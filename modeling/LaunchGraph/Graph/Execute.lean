import LaunchGraph.Graph.Order

/-!
# Execution

Executing the pending nodes hands over their records and moves the nodes into
the history.  The history keeps only nodes that still own a state, and no edges:
everything else is in order already.
-/

namespace LaunchGraph

namespace Graph

variable {ρ : Type}

def isOwner (g : Graph ρ) (k : NodeKey) : Bool := k ∈ g.owners.values

/-- Moves every pending node into the history, and drops all nodes that own no
state. -/
def markExecuted (g : Graph ρ) : Graph ρ :=
  let settle : Vertex ρ -> Vertex ρ := fun v =>
    v.update fun n => { n.disconnected with pendingId := none }
  { g with
    initial := settle g.initial
    history := ((g.history ++ g.pending).filter fun v : Vertex ρ => g.isOwner v.key).map settle
    pending := []
    readers := ∅ }.renumber

def releaseRecords (g : Graph ρ) : Graph ρ × List ρ :=
  ({ g with pending := g.pending.map fun v => v.update fun n => { n with record := none } },
    g.pending.filterMap (·.record))

/-- Hands over the records of the pending nodes, in an order that respects every
edge, and marks the nodes executed. -/
def extractToExecute (g : Graph ρ) : Outcome (Graph ρ × List ρ) := do
  let (g, records) := (← g.sortPending).releaseRecords
  return (g.markExecuted, records)

/-- Drops every node except the initial one.  The counts of launches and the
knowledge about index lists stay, since they are not about the graph. -/
def clear (g : Graph ρ) : Graph ρ :=
  { g with
    initial := g.initial.update (·.disconnected)
    history := []
    pending := []
    owners := ∅
    readers := ∅ }.renumber

end Graph

end LaunchGraph
