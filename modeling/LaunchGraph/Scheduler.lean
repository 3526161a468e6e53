import LaunchGraph.Config
import LaunchGraph.Graph.Draw
import LaunchGraph.Graph.Execute
import LaunchGraph.Graph.Listing
import LaunchGraph.Graph.Verify
import LaunchGraph.Pass.DeadStores
import LaunchGraph.Pass.Demotion
import LaunchGraph.Pass.Fusion
import LaunchGraph.Pass.Listgen

/-!
# Schedulers

A scheduler collects launches in a queue.  A flush moves them into the graph, runs
the passes until none of them changes anything, and has a backend execute the
result.

The backend may refuse to execute a batch, or to write a drawing.  The scheduler
then keeps what it has done so far and reports the error.
-/

namespace LaunchGraph

/-! ## Errors and reports -/

/-- Why a scheduler could not do what it was asked for. -/
inductive SchedulerError where
  | execute (detail : String)
  | dotDump (detail : String)
  /-- The scheduler of a launch queue is gone. -/
  | disconnected
deriving DecidableEq

def SchedulerError.message : SchedulerError -> String
  | execute detail => "Executor failed:\n" ++ detail
  | dotDump detail => "Couldn't write the graph dump.\n" ++ detail
  | disconnected => "Launch queue is disconnected"

structure FlushReport where
  submitted : Nat
  inserted : Nat
  executed : Nat
  rounds : Nat
deriving DecidableEq

/-! ## Queues -/

/-- Launches that wait for their scheduler.  Anyone may submit as long as the
scheduler is there. -/
structure LaunchQueue (ρ : Type) where
  waiting : List ρ
  isOpen : Bool

namespace LaunchQueue

variable {ρ : Type}

def new : LaunchQueue ρ := ⟨[], true⟩

def submit (q : LaunchQueue ρ) (record : ρ) : Except SchedulerError (LaunchQueue ρ) :=
  if q.isOpen then .ok { q with waiting := q.waiting ++ [record] } else .error .disconnected

def drain (q : LaunchQueue ρ) : LaunchQueue ρ × List ρ := ({ q with waiting := [] }, q.waiting)

def disconnect (q : LaunchQueue ρ) : LaunchQueue ρ := { q with isOpen := false }

end LaunchQueue

/-! ## Passes -/

namespace Pass

variable {ρ : Type}

def run (bank : Bank ρ) (g : Graph ρ) : Pass -> Outcome (Graph ρ × Bool)
  | .listgen => g.optimizeListgen
  | .deadStores => g.eliminateDeadStores bank
  | .demotion => g.demoteActivations bank
  | .fusion => g.fuse bank

/-- Runs a pass and, with `verify`, checks the graph afterwards.  A graph that fails
the check is listed for the report; an edge that leads to a node that is gone stops
the listing, which is then what is reported. -/
def runChecked (bank : Bank ρ) (verify : Bool) (g : Graph ρ) (pass : Pass) :
    Outcome (Graph ρ × Bool) := do
  let (g, changed) ← pass.run bank g
  if verify then
    match g.verify bank false with
    | .error violation => throw (.broken pass violation (← g.listing))
    | .ok _ => return (g, changed)
  else
    return (g, changed)

end Pass

/-- The passes that a configuration asks for, in the order in which they run. -/
def Config.passes (c : Config) : List Pass :=
  (if c.listgen then [.listgen] else []) ++ (if c.deadStores then [.deadStores] else [])
    ++ (if c.demotion then [.demotion] else []) ++ (if c.fusion then [.fusion] else [])

def Config.runPasses {ρ : Type} (c : Config) (bank : Bank ρ) (g : Graph ρ) :
    Outcome (Graph ρ × Bool) :=
  c.passes.foldlM (fun (g, changed) pass => do
    let (g, changedNow) ← pass.runChecked bank c.verify g
    return (g, changed || changedNow)) (g, false)

/-! ## Schedulers -/

/-- What a scheduler needs from outside, acting on a state of type `σ`.  Each
action succeeds, or fails for a reason. -/
structure Backend (ρ σ : Type) where
  /-- Executes a batch of records in order. -/
  execute : List ρ -> σ -> Except String Unit × σ
  /-- Writes a file with a text into a directory. -/
  write : (directory file text : String) -> σ -> Except String Unit × σ

/-- A graph with what is waiting for it, and the state of the backend. -/
structure Scheduler (ρ σ : Type) where
  graph : Graph ρ
  queue : LaunchQueue ρ
  config : Config
  /-- Launches since the last flush that completed. -/
  sinceFlush : Nat
  /-- Flushes that completed. -/
  flushes : Nat
  backend : σ

/-- A scheduler after an action, and what the action achieved. -/
abbrev Scheduled (ρ σ α : Type) := Scheduler ρ σ × Except SchedulerError α

namespace Scheduler

variable {ρ σ : Type}

def new (config : Config) (backend : σ) : Scheduler ρ σ where
  graph := Graph.new.setWindow config.fusionWindow
  queue := .new
  config
  sinceFlush := 0
  flushes := 0
  backend

def padded (width n : Nat) : String :=
  let digits := toString n
  String.ofList (List.replicate (width - digits.length) '0') ++ digits

def drawingName (flushes round : Nat) : String :=
  "sfg_" ++ padded 4 flushes ++ "_" ++ padded 2 round ++ ".dot"

def dump (b : Backend ρ σ) (s : Scheduler ρ σ) (round : Nat) :
    Scheduled ρ σ Unit :=
  match s.config.dotDumpDir with
  | none => (s, .ok ())
  | some directory =>
      let text := s.graph.dot (some "LR") 2
      match b.write directory (drawingName s.flushes round) text s.backend with
      | (.ok _, backend) => ({ s with backend }, .ok ())
      | (.error detail, backend) => ({ s with backend }, .error (.dotDump detail))

/-- Runs rounds of passes until one changes nothing, but no more than `left`.
Tells how many rounds there were, together with those before. -/
def rounds (bank : Bank ρ) (b : Backend ρ σ) :
    (left before : Nat) -> Scheduler ρ σ -> Outcome (Scheduled ρ σ Nat)
  | 0, before, s => return (s, .ok before)
  | left + 1, before, s => do
      let (graph, changed) ← s.config.runPasses bank s.graph
      match { s with graph }.dump b (before + 1) with
      | (s, .error e) => return (s, .error e)
      | (s, .ok _) =>
          if changed then rounds bank b left (before + 1) s else return (s, .ok (before + 1))

def optimize (bank : Bank ρ) (b : Backend ρ σ) (s : Scheduler ρ σ) :
    Outcome (Scheduled ρ σ Nat) :=
  if s.graph.pendingCount = 0 then return (s, .ok 0)
  else rounds bank b s.config.maxRounds 0 s

def executeBatch (b : Backend ρ σ) (s : Scheduler ρ σ) (records : List ρ) :
    Scheduled ρ σ Unit :=
  if records.isEmpty then (s, .ok ())
  else
    match b.execute records s.backend with
    | (.ok _, backend) => ({ s with backend }, .ok ())
    | (.error detail, backend) => ({ s with backend }, .error (.execute detail))

/-- Moves the waiting launches into the graph.  Tells how many were waiting and how
many were not left out. -/
def insertWaiting (bank : Bank ρ) (s : Scheduler ρ σ) :
    Outcome (Scheduler ρ σ × Nat × Nat) := do
  let (queue, records) := s.queue.drain
  let (graph, inserted) ← s.graph.insertTasks bank s.config.listgenFilter records
  return ({ s with queue, graph }, records.length, inserted)

/-- Hands the pending nodes over to the backend.  Tells how many records they had. -/
def handOver (b : Backend ρ σ) (s : Scheduler ρ σ) : Outcome (Scheduled ρ σ Nat) := do
  let (graph, records) ← s.graph.extractToExecute
  match { s with graph }.executeBatch b records with
  | (s, .error e) => return (s, .error e)
  | (s, .ok _) =>
      return ({ s with flushes := s.flushes + 1, sinceFlush := 0 }, .ok records.length)

/-- Inserts the waiting launches, optimizes, and executes the result. -/
def flush (bank : Bank ρ) (b : Backend ρ σ) (s : Scheduler ρ σ) :
    Outcome (Scheduled ρ σ FlushReport) := do
  let (s, submitted, inserted) ← s.insertWaiting bank
  match ← s.optimize bank b with
  | (s, .error e) => return (s, .error e)
  | (s, .ok rounds) =>
      match ← s.handOver b with
      | (s, .error e) => return (s, .error e)
      | (s, .ok executed) => return (s, .ok { submitted, inserted, executed, rounds })

def submit (s : Scheduler ρ σ) (record : ρ) : Scheduled ρ σ Unit :=
  match s.queue.submit record with
  | .ok queue => ({ s with queue }, .ok ())
  | .error e => (s, .error e)

/-- Whether enough launches have come together for a flush. -/
def isDue (s : Scheduler ρ σ) : Bool := s.config.flushEvery.any (· ≤ s.sinceFlush)

/-- Launches a record, and flushes if it is time. -/
def launch (bank : Bank ρ) (b : Backend ρ σ) (s : Scheduler ρ σ) (record : ρ) :
    Outcome (Scheduled ρ σ (Option FlushReport)) := do
  match s.submit record with
  | (s, .error e) => return (s, .error e)
  | (s, .ok _) =>
      let s := { s with sinceFlush := s.sinceFlush + 1 }
      if s.isDue then
        let (s, result) ← s.flush bank b
        return (s, result.map some)
      else
        return (s, .ok none)

end Scheduler

end LaunchGraph
