import LaunchGraph.Graph.Delete
import LaunchGraph.Graph.Rebuild

/-!
# Dead stores

A write of a pending node is dead if nothing reads it and the node is not the
latest owner of the state.  A node all of whose writes are dead is deleted, if it
has no other effect; from any other node the bank may strip the dead stores.
-/

namespace LaunchGraph

/-- What was found out about a node's writes. -/
inductive StoreVerdict (ρ : Type) where
  | keep
  | delete
  | strip (record : ρ) (description : Description)

namespace Graph

variable {ρ : Type}

def isDeadStore (g : Graph ρ) (v : Vertex ρ) (s : State) : Outcome Bool := do
  if g.owners.get? s = some v.key then return false
  else return !(← (v.outputs.get s).mapM g.find).any (·.reads s)

def deadStores (g : Graph ρ) (v : Vertex ρ) : Outcome StateSet := do
  let verdicts ← v.task.outputs.toList.mapM fun s => do return (s, ← g.isDeadStore v s)
  return v.task.outputs.filter fun s => (s, true) ∈ verdicts

/-- The record of a node stripped of dead stores, if the bank can do it and it
makes a difference. -/
def stripped? (bank : Bank ρ) (v : Vertex ρ) (record : ρ) (dead : StateSet) :
    Option (ρ × Description) := do
  let record ← bank.eliminateStores record dead
  let d := bank.describe record
  if d.task.outputs = v.task.outputs then none else some (record, d)

def storeVerdict (bank : Bank ρ) (g : Graph ρ) (v : Vertex ρ) : Outcome (StoreVerdict ρ) :=
  match v.record with
  | none => return .keep
  | some record =>
      if v.task.sideEffects || v.task.outputs.isEmpty then return .keep
      else do
        let dead ← g.deadStores v
        if dead.isEmpty then return .keep
        else if dead = v.task.outputs then return .delete
        else
          match stripped? bank v record dead with
          | some (record, d) => return .strip record d
          | none => return .keep

/-- What a walk over the pending nodes has done so far: the positions of nodes to
be deleted, and whether any node was stripped. -/
structure StoreScan (ρ : Type) where
  graph : Graph ρ
  doomed : OrderedSet Nat
  stripped : Bool

def scanStores (bank : Bank ρ) (scan : StoreScan ρ) (k : NodeKey) : Outcome (StoreScan ρ) := do
  let v ← scan.graph.find k
  match ← scan.graph.storeVerdict bank v with
  | .keep => return scan
  | .delete => return { scan with doomed := scan.doomed.insert v.nodeId }
  | .strip record d =>
      let (g, handle) := scan.graph.adopt d
      return { scan with graph := ← g.modify k (·.relaunched record handle), stripped := true }

/-- Eliminates dead stores, first node to last.  Tells whether there were any. -/
def eliminateDeadStores (bank : Bank ρ) (g : Graph ρ) : Outcome (Graph ρ × Bool) := do
  let scan ← g.pendingKeys.foldlM (scanStores bank) ⟨g, ∅, false⟩
  if scan.doomed.isEmpty && !scan.stripped then return (scan.graph, false)
  else return (← (← scan.graph.deleteNodes scan.doomed).rebuild false, true)

end Graph

end LaunchGraph
