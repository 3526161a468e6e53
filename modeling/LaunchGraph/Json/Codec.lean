import LaunchGraph.Json.Reader
import LaunchGraph.Task

/-!
# JSON forms of states and tasks

How states, task types and fusion keys are written in JSON, and which JSON values
are read as one.
-/

namespace LaunchGraph

def Json.word? (value : Json) : Option UInt32 :=
  (value.natBelow? UInt32.size).map UInt32.ofNat

def Json.ofWord (n : UInt32) : Json := .ofNat n.toNat

namespace Resource

/-- The JSON form of a resource: an object with one member, named for its sort. -/
def toJson : Resource -> Json
  | .snode s => .ofMembers [("SNode", .ofWord s.number)]
  | .globalTmp k => .ofMembers [("GlobalTmp", .ofWord k.number)]

def ofJson? (value : Json) : Option Resource :=
  match value.variant? with
  | some ("SNode", some n) => n.word?.map fun n => .snode ⟨n⟩
  | some ("GlobalTmp", some n) => n.word?.map fun n => .globalTmp ⟨n⟩
  | _ => none

end Resource

def StateKind.ofJson? (value : Json) : Option StateKind :=
  value.unitVariant?.bind fun tag => StateKind.all.find? (·.tag == tag)

namespace State

def toJson (s : State) : Json :=
  .ofMembers [("resource", s.resource.toJson), ("kind", .ofString s.kind.tag)]

def ofJson? (value : Json) : Option State := do
  match ← value.record? ["resource", "kind"] with
  | [some resource, some kind] =>
      return ⟨← Resource.ofJson? resource, ← StateKind.ofJson? kind⟩
  | _ => none

end State

namespace TaskType

def toJson (t : TaskType) : Json := .ofString t.name

def ofJson? (value : Json) : Option TaskType := value.unitVariant?.bind ofName?

end TaskType

namespace FusionKey

def toJson (k : FusionKey) : Json :=
  .ofMembers
    [("kernel", .ofOption (fun i : KernelId => .ofWord i.number) k.kernel),
      ("task_type", k.taskType.toJson),
      ("snode", .ofOption (fun s : SNodeId => .ofWord s.number) k.snode),
      ("block_dim", .ofWord k.blockDim),
      ("bit_vectorized", .bool k.bitVectorized)]

def wordField? (field : Option Json) : Option (Option UInt32) :=
  (field.getD .null).nullable? Json.word?

def ofJson? (value : Json) : Option FusionKey := do
  match ← value.record? ["kernel", "task_type", "snode", "block_dim", "bit_vectorized"] with
  | [kernel, some taskType, snode, some blockDim, some bitVectorized] =>
      return {
        kernel := (← wordField? kernel).map (⟨·⟩)
        taskType := ← TaskType.ofJson? taskType
        snode := (← wordField? snode).map (⟨·⟩)
        blockDim := ← blockDim.word?
        bitVectorized := ← bitVectorized.bool? }
  | _ => none

end FusionKey

end LaunchGraph
