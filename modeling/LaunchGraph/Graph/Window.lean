import LaunchGraph.Graph.Basic
import LaunchGraph.Reachability

/-!
# Reachability in a window

Within a window of consecutive pending nodes, reachability along edges follows
from the edges inside the window, as long as the pending nodes are in order.
-/

namespace LaunchGraph

namespace Graph

variable {ρ : Type}

/-- The positions inside a window of pending nodes, counted from its start, to
which a node has edges. -/
def windowTargets (g : Graph ρ) (first last : Nat) (v : Vertex ρ) : Outcome (List Nat) := do
  let targets ← v.outputs.neighbors.mapM g.find
  let positions := (targets.filterMap (·.pendingId)).filter fun p => first ≤ p && p < last
  return (OrderedSet.ofList (positions.map (· - first))).toList

/-- Reachability among the pending nodes from `first` up to before `last`. -/
def reachability (g : Graph ρ) (first last : Nat) : Outcome Reachability := do
  let window ← g.pendingRange first last
  let successors ← window.mapM (g.windowTargets first last)
  Reachability.ofSuccessors successors

end Graph

end LaunchGraph
