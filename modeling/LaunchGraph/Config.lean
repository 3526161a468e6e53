import LaunchGraph.Json.Reader

/-!
# Configuration

Which passes a scheduler runs, how often, and when; and how this is read from
JSON.  A field that is not given has its standard value.
-/

namespace LaunchGraph

/-- What a scheduler is to do on each flush. -/
structure Config where
  /-- Fuse tasks that may share a loop. -/
  fusion : Bool := true
  /-- How many consecutive pending nodes are considered together for fusion. -/
  fusionWindow : Nat := 64
  /-- Remove redundant list generations. -/
  listgen : Bool := true
  /-- Leave out list generations of current lists when they are launched. -/
  listgenFilter : Bool := true
  /-- Eliminate dead stores. -/
  deadStores : Bool := true
  /-- Remove activations made before. -/
  demotion : Bool := true
  /-- The most rounds of passes per flush. -/
  maxRounds : Nat := 5
  /-- Flush after this many launches. -/
  flushEvery : Option Nat := none
  /-- Check the graph after every pass. -/
  verify : Bool := false
  /-- Where to write a drawing of the graph after every round. -/
  dotDumpDir : Option String := none
deriving DecidableEq, Inhabited

/-- Why a text is no configuration. -/
inductive ConfigError where
  /-- The text is not JSON. -/
  | notJson
  /-- The text is JSON, but a field has a value that it cannot have. -/
  | badField
deriving DecidableEq

def ConfigError.detail : ConfigError -> String
  | notJson => "not a JSON value"
  | badField => "not a configuration"

def ConfigError.message (e : ConfigError) : String :=
  "Couldn't parse scheduler config.\n" ++ e.detail

namespace Config

def standard : Config := {}

def unoptimized : Config :=
  { fusion := false, listgen := false, listgenFilter := false, deadStores := false,
    demotion := false }

def fieldNames : List String :=
  ["fusion", "fusion_window", "listgen", "listgen_filter", "dead_store",
    "activation_demotion", "max_optimize_iterations", "flush_every", "debug_verify",
    "dot_dump_dir"]

def toJson (c : Config) : Json :=
  .ofMembers <| fieldNames.zip
    [.bool c.fusion, .ofNat c.fusionWindow, .bool c.listgen, .bool c.listgenFilter,
      .bool c.deadStores, .bool c.demotion, .ofNat c.maxRounds,
      .ofOption .ofNat c.flushEvery, .bool c.verify, .ofOption .ofString c.dotDumpDir]

def field? {α : Type} (decode : Json -> Option α) (standard : α) : Option Json -> Option α
  | none => some standard
  | some value => decode value

def size? (value : Json) : Option Nat := value.natBelow? UInt64.size

def ofValue? (value : Json) : Option Config := do
  match ← value.fields? fieldNames with
  | [fusion, fusionWindow, listgen, listgenFilter, deadStores, demotion, maxRounds, flushEvery,
      verify, dotDumpDir] =>
      return {
        fusion := ← field? Json.bool? standard.fusion fusion
        fusionWindow := ← field? size? standard.fusionWindow fusionWindow
        listgen := ← field? Json.bool? standard.listgen listgen
        listgenFilter := ← field? Json.bool? standard.listgenFilter listgenFilter
        deadStores := ← field? Json.bool? standard.deadStores deadStores
        demotion := ← field? Json.bool? standard.demotion demotion
        maxRounds := ← field? size? standard.maxRounds maxRounds
        flushEvery := ← field? (Json.nullable? size?) standard.flushEvery flushEvery
        verify := ← field? Json.bool? standard.verify verify
        dotDumpDir := ← field? (Json.nullable? Json.text?) standard.dotDumpDir dotDumpDir }
  | _ => none

def ofText (text : String) : Except ConfigError Config :=
  match Json.read? text with
  | none => throw .notJson
  | some value =>
      match ofValue? value with
      | none => throw .badField
      | some c => return c

end Config

end LaunchGraph
