import LaunchGraph.Graph.Writers

/-!
# Deleting pending nodes

Deleting a node keeps the order that it carried: on every state, its
predecessors are connected with its successors.  A state that it owned falls back
to the writer before it.
-/

namespace LaunchGraph

namespace Graph

variable {ρ : Type}

/-- The pending node at a position of the sequence. -/
def deletableAt (g : Graph ρ) (position : Nat) : Outcome NodeKey := do
  let v ← g.vertexAt position
  if v.isPending then return v.key else throw (.deleteExecuted v.label)

/-- Connects, on every state, the sources of one set of edges with the targets
of another. -/
def bridge (g : Graph ρ) (inputs outputs : Links) : Outcome (Graph ρ) :=
  inputs.pairs.foldlM (fun g (s, source) =>
    (outputs.get s).foldlM (fun g target => g.insertEdge source target s) g) g

/-- Takes a node out of all edges and reader entries, and bridges the gap. -/
def isolate (g : Graph ρ) (k : NodeKey) : Outcome (Graph ρ) := do
  let v ← g.find k
  let g ← g.modify k (·.disconnected)
  let g ← v.inputs.pairs.foldlM (fun g (s, source) => g.dropOutput source k s) g
  let g ← v.outputs.pairs.foldlM (fun g (s, target) => g.dropInput k target s) g
  let g ← g.bridge v.inputs v.outputs
  return { g with readers := g.readers.eraseNode k }

/-- Deletes the pending nodes at the given positions of the sequence. -/
def deleteNodes (g : Graph ρ) (positions : OrderedSet Nat) : Outcome (Graph ρ) :=
  if positions.isEmpty then .ok g
  else do
    let doomed ← positions.toList.mapM g.deletableAt
    let owners ← g.ownersWithout doomed
    let g ← doomed.foldlM isolate { g with owners }
    return { g with pending := g.pending.filter (·.key ∉ doomed) }.renumber

end Graph

end LaunchGraph
