import LaunchGraph.Task

/-!
# Task banks

Launch records are opaque to the graph.  Whatever it needs to know about a
record, and every change of a record, it asks of a bank.
-/

namespace LaunchGraph

/-- What a bank answers about a record: the task it launches, and a tag shared
by all launches of the same task type.  A record without a tag is a task type
of its own. -/
structure Description where
  task : Task
  sharedAs : Option String := none
deriving DecidableEq, Inhabited

/-- Everything that the graph may ask about records of type `ρ`. -/
structure Bank (ρ : Type) where
  /-- The task that a record launches. -/
  describe : ρ -> Description
  /-- One record that runs the first and then the second. -/
  fuse : ρ -> ρ -> Option ρ := fun _ _ => none
  /-- The first record with its activations removed, given that the second has
  already activated the same elements. -/
  demote : ρ -> ρ -> Option ρ := fun _ _ => none
  /-- A record without its stores to the given states. -/
  eliminateStores : ρ -> StateSet -> Option ρ := fun _ _ => none
  /-- The task of a record derived afresh from its instructions. -/
  analyze : ρ -> Option Task := fun _ => none
  /-- The direct children of a structure node. -/
  children : SNodeId -> List SNodeId := fun _ => []

end LaunchGraph
