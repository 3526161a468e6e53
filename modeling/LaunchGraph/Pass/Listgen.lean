import LaunchGraph.Graph.Delete
import LaunchGraph.Graph.Rebuild
import LaunchGraph.Graph.Redirect

/-!
# Redundant list generations

Generating the index list of a field again is redundant if nothing that the
generation reads has been written since the last time, nor the list itself.  Such
a list generation is deleted, and the readers of its list read that of the
surviving one.
-/

namespace LaunchGraph

/-- A list generation that is to go, and the one that stays in its place. -/
structure Redundancy where
  redundant : NodeKey
  position : Nat
  survivor : NodeKey
deriving DecidableEq

/-- How far the list generations of one field have been compared: the last one
that stays, and those after it that are to go. -/
structure ListgenScan where
  survivor : Option NodeKey
  dropped : List NodeKey
  found : List Redundancy

namespace Graph

variable {ρ : Type}

/-- The field whose list a pending node generates, if it generates one. -/
def listTarget? (v : Vertex ρ) : Option SNodeId :=
  if v.task.taskType = .listgen then v.task.snode else none

/-- Whether two nodes read a state from the same writer. -/
def sameSource (g : Graph ρ) (a b : NodeKey) (s : State) : Outcome Bool := do
  return (← g.priorWriter a s []) == (← g.priorWriter b s [])

/-- Whether a test holds for all states of a list; the states after the first at
which it fails are not looked at. -/
def allStates (test : State -> Outcome Bool) : List State -> Outcome Bool
  | [] => return true
  | s :: rest => do if ← test s then allStates test rest else return false

/-- Whether a list generation makes the same list as an earlier one: both have the
same inputs from the same writers, and the list was last written by the earlier
one, leaving out list generations that are to go. -/
def isRedundant (g : Graph ρ) (earlier later : Vertex ρ) (list : State)
    (dropped : List NodeKey) : Outcome Bool :=
  if earlier.task.inputs ≠ later.task.inputs then return false
  else do
    if ← allStates (g.sameSource earlier.key later.key) later.task.inputs.toList then
      return (← g.priorWriter later.key list dropped) == earlier.key
    else
      return false

def scanListgen (g : Graph ρ) (list : State) (scan : ListgenScan) (v : Vertex ρ) :
    Outcome ListgenScan := do
  let fresh : ListgenScan := { scan with survivor := some v.key, dropped := [] }
  match scan.survivor with
  | none => return fresh
  | some k =>
      if ← g.isRedundant (← g.find k) v list scan.dropped then
        return { scan with
          dropped := scan.dropped ++ [v.key]
          found := scan.found ++ [⟨v.key, v.nodeId, k⟩] }
      else
        return fresh

def redundantListgens (g : Graph ρ) (s : SNodeId) : Outcome (List Redundancy) := do
  let listgens := g.pending.filter fun v => listTarget? v == some s
  let scan ← listgens.foldlM (g.scanListgen (.ofSNode s .list)) ⟨none, [], []⟩
  return scan.found

def listTargets (g : Graph ρ) : OrderedSet SNodeId :=
  .ofList (g.pending.filterMap listTarget?)

/-- Deletes redundant list generations.  Tells whether there were any. -/
def optimizeListgen (g : Graph ρ) : Outcome (Graph ρ × Bool) := do
  let g ← g.sortPending
  let found := (← g.listTargets.toList.mapM g.redundantListgens).flatten
  if found.isEmpty then return (g, false)
  else
    let g ← found.foldlM (fun g r => g.redirect r.redundant r.survivor true) g
    let g ← g.deleteNodes (.ofList (found.map (·.position)))
    return (← g.rebuild false, true)

end Graph

end LaunchGraph
