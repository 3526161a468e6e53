import LaunchGraph.State

/-!
# Tasks

A task describes what every launch of it does to the states: which ones it
reads and which ones it writes, along with what decides whether two launches
may share one loop.  The module also says through which states one task
followed by another forms a hazard.
-/

namespace LaunchGraph

inductive TaskType where
  | serial
  | rangeFor
  | structFor
  | listgen
  | gc
deriving DecidableEq, Inhabited

namespace TaskType

/-- Whether iterations of the task may run concurrently. -/
def isParallel : TaskType -> Bool
  | .rangeFor => true
  | .structFor => true
  | .serial => false
  | .listgen => false
  | .gc => false

def name : TaskType -> String
  | .serial => "Serial"
  | .rangeFor => "RangeFor"
  | .structFor => "StructFor"
  | .listgen => "Listgen"
  | .gc => "Gc"

def all : List TaskType := [.serial, .rangeFor, .structFor, .listgen, .gc]

def ofName? (text : String) : Option TaskType := all.find? (·.name == text)

end TaskType

/-- Launch parameters that must agree for two tasks to run in one loop. -/
structure FusionKey where
  /-- Set for tasks that touch the temporaries of one kernel. -/
  kernel : Option KernelId
  taskType : TaskType
  snode : Option SNodeId
  blockDim : UInt32
  bitVectorized : Bool
deriving DecidableEq, Inhabited

structure Task where
  name : String
  taskType : TaskType
  /-- The loop target of struct-for and listgen tasks. -/
  snode : Option SNodeId := none
  inputs : StateSet := ∅
  outputs : StateSet := ∅
  /-- Fields accessed only at the task's own loop index. -/
  elementWise : OrderedSet SNodeId := ∅
  /-- Absent for tasks that must never be fused. -/
  fusion : Option FusionKey := none
  /-- Prints, assertions and other effects that no state shows. -/
  sideEffects : Bool := false
deriving DecidableEq

namespace Task

instance : Inhabited Task := ⟨⟨"", .serial, none, ∅, ∅, ∅, none, false⟩⟩

def reads (t : Task) (s : State) : Bool := s ∈ t.inputs

def writes (t : Task) (s : State) : Bool := s ∈ t.outputs

/-- Both tasks carry a fusion key, and the keys agree. -/
def fusible (a b : Task) : Bool :=
  match a.fusion, b.fusion with
  | some k, some l => k == l
  | _, _ => false

/-- The states through which `first` followed by `later` forms a hazard: what is
written then read, then what is written twice, then what is read then written. -/
def hazards (first later : Task) : List State :=
  (first.outputs ∩ later.inputs).toList
    ++ (first.outputs ∩ later.outputs).toList
    ++ (first.inputs ∩ later.outputs).toList

/-- Whether both tasks access a field only at their own loop index. -/
def sharesElements (a b : Task) (s : SNodeId) : Bool :=
  s ∈ a.elementWise && s ∈ b.elementWise

/-- Whether iterations that stay ordered element by element keep accesses to a
state ordered, for two tasks in one loop. -/
def orderedByElement (a b : Task) (s : State) : Bool :=
  match s.resource, s.kind with
  | .snode id, .value => a.sharesElements b id
  | .snode id, .mask => a.sharesElements b id
  | _, _ => false

/-- Whether running `later` inside the loop body of `first` keeps every hazard
between them intact.  A serial body runs in order; any other task is taken to be
parallel, so that only iterations on the same element stay ordered. -/
def hazardFree (first later : Task) : Bool :=
  first.taskType == .serial || (first.hazards later).all (first.orderedByElement later)

/-- The fields whose index lists a launch of the task makes stale: those of
which it writes the mask, the allocator or the list. -/
def staleLists (t : Task) : List SNodeId :=
  t.outputs.toList.filterMap fun s =>
    match s.kind with
    | .value => none
    | .mask => s.snode?
    | .list => s.snode?
    | .allocator => s.snode?

theorem mem_hazards {first later : Task} {s : State} :
    s ∈ first.hazards later ↔
      (s ∈ first.outputs ∧ s ∈ later.inputs) ∨ (s ∈ first.outputs ∧ s ∈ later.outputs) ∨
        (s ∈ first.inputs ∧ s ∈ later.outputs) := by
  rw [hazards, List.mem_append, List.mem_append, ← OrderedSet.mem_def, ← OrderedSet.mem_def,
    ← OrderedSet.mem_def, OrderedSet.mem_inter, OrderedSet.mem_inter, OrderedSet.mem_inter,
    or_assoc]

end Task

end LaunchGraph
