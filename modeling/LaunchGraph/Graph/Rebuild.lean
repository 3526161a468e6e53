import LaunchGraph.Graph.Insert
import LaunchGraph.Graph.Order
import LaunchGraph.Graph.Writers

/-!
# Rebuilding the pending part

Taking the pending nodes out of a graph leaves it as it was after the last
execution.  Putting them back in derives all their edges anew, from the states
their tasks read and write now.
-/

namespace LaunchGraph

namespace Graph

variable {ρ : Type}

def dropOutputsTo (doomed : List NodeKey) (v : Vertex ρ) : Vertex ρ :=
  v.update fun n => { n with outputs := n.outputs.filter fun _ k => k ∉ doomed }

/-- Takes the pending nodes out, disconnected and in order.  Ownership falls back
to the last executed writers. -/
def extractPending (g : Graph ρ) : Outcome (Graph ρ × List (Node ρ)) := do
  let owners ← g.ownersWithout g.pendingKeys
  let nodes := g.pending.map (·.disconnected)
  let g := { g with
    initial := dropOutputsTo g.pendingKeys g.initial
    history := g.history.map (dropOutputsTo g.pendingKeys)
    pending := []
    owners
    readers := g.readers.filter fun _ k => k ∉ g.pendingKeys }
  return (g, nodes)

/-- Derives all edges of pending nodes anew, after putting the nodes in order if
`sort` asks for it. -/
def rebuild (g : Graph ρ) (sort : Bool) : Outcome (Graph ρ) := do
  let g ← if sort then g.sortPending else pure g
  let (g, nodes) ← g.extractPending
  g.insertNodes nodes

def rebuildTimes (g : Graph ρ) : (n : Nat) -> Outcome (Graph ρ)
  | 0 => .ok g
  | n + 1 => do (← g.rebuild false).rebuildTimes n

end Graph

end LaunchGraph
