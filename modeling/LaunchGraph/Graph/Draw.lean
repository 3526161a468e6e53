import LaunchGraph.Dot
import LaunchGraph.Graph.Basic

/-!
# Drawing a graph

Every node of the sequence gives a node statement, and every edge that is stored
at its source an edge statement.  The identifiers of nodes whose names are no
identifiers have the slot of the node in them.
-/

namespace LaunchGraph

namespace Graph

variable {ρ : Type}

def positionOf (g : Graph ρ) (k : NodeKey) : Nat := ((g.find? k).map (·.nodeId)).getD 0

def dotId (slot : NodeKey -> Nat) (v : Vertex ρ) : String :=
  Dot.identifier v.task.name v.launchId (slot v.key)

/-- Whether a node is drawn with cells: if it has outputs, but no more than the
threshold. -/
def hasCells (threshold : Nat) (v : Vertex ρ) : Bool :=
  !v.isInitial && 0 < v.task.outputs.size && v.task.outputs.size ≤ threshold

def nodeStatement (g : Graph ρ) (slot : NodeKey -> Nat) (threshold : Nat) (v : Vertex ρ) :
    Dot.NodeStatement where
  id := dotId slot v
  title := v.label
  cells := if hasCells threshold v then v.task.outputs.toList else []
  isInitial := v.isInitial
  isOwner := v.key ∈ g.owners.values

/-- The statement for an edge, unless its target is gone. -/
def edgeStatement? (g : Graph ρ) (slot : NodeKey -> Nat) (threshold : Nat) (v : Vertex ρ)
    (s : State) (target : NodeKey) : Option Dot.EdgeStatement :=
  (g.find? target).map fun w =>
    { source := dotId slot v
      target := dotId slot w
      state := s
      fromCell := hasCells threshold v && v.task.writes s
      isFlow := w.reads s }

def edgeStatements (g : Graph ρ) (slot : NodeKey -> Nat) (threshold : Nat) (v : Vertex ρ) :
    List Dot.EdgeStatement :=
  v.outputs.pairs.filterMap fun (s, target) => g.edgeStatement? slot threshold v s target

/-- The drawing of a graph.  Nodes with at most `threshold` output states have
cells. -/
def drawing (g : Graph ρ) (slot : NodeKey -> Nat) (rankdir : Option String) (threshold : Nat) :
    Dot.Drawing where
  rankdir
  nodes := g.vertices.map (g.nodeStatement slot threshold)
  edges := g.vertices.flatMap (g.edgeStatements slot threshold)

/-- The text of the drawing.  Any numbering of the stored nodes can take the place of their
positions. -/
def dot (g : Graph ρ) (rankdir : Option String) (threshold : Nat)
    (slot : NodeKey -> Nat := g.positionOf) : String :=
  (g.drawing slot rankdir threshold).text

end Graph

end LaunchGraph
