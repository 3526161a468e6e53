import LaunchGraph.Bank
import LaunchGraph.Fault
import LaunchGraph.Node

/-!
# State flow graphs

A graph keeps every launch as a vertex of one sequence.  The sequence begins
with the initial node, which stands for the first contents of every state; then
come the executed nodes that are still needed, then the pending nodes.  Only
pending nodes are ever changed.

Beside the sequence, a graph knows for each state its latest owner, the last
node to write it, and its latest readers, the nodes that read it since.

The module holds the type, how vertices are found and changed, and edges.
-/

namespace LaunchGraph

/-- How many consecutive pending nodes are considered together for fusion. -/
structure FusionWindow where
  size : Nat
  two_le : 2 ≤ size

/-- The window closest to a wanted size; no window is narrower than two nodes. -/
def FusionWindow.ofNat (n : Nat) : FusionWindow := ⟨max n 2, Nat.le_max_right n 2⟩

def FusionWindow.standard : FusionWindow := .ofNat 64

/-- A sequence of launches and what connects them. -/
structure Graph (ρ : Type) where
  initial : Vertex ρ
  /-- The executed nodes that are kept. -/
  history : List (Vertex ρ)
  pending : List (Vertex ρ)
  /-- The last node to write each state. -/
  owners : Table State NodeKey
  /-- The nodes that read each state since its last write. -/
  readers : Links
  /-- How many launches each task name has had. -/
  launches : Table String Nat
  /-- The fields whose index list is known to be current. -/
  currentLists : OrderedSet SNodeId
  nextSeq : Nat
  nextStamp : Nat
  nextSerial : Nat
  window : FusionWindow

namespace Graph

variable {ρ : Type}

/-- The node that stands for the first contents of every state. -/
def initialNode : Vertex ρ where
  record := none
  handle := ⟨⟨"initial_state", .serial, none, ∅, ∅, ∅, none, false⟩, .own 0⟩
  launchId := 0
  pendingId := none
  isInitial := true
  key := ⟨0⟩

def new : Graph ρ where
  initial := initialNode
  history := []
  pending := []
  owners := ∅
  readers := ∅
  launches := ∅
  currentLists := ∅
  nextSeq := 1
  nextStamp := 1
  nextSerial := 1
  window := .standard

instance : Inhabited (Graph ρ) := ⟨new⟩

/-! ## The sequence -/

def executed (g : Graph ρ) : List (Vertex ρ) := g.initial :: g.history

def vertices (g : Graph ρ) : List (Vertex ρ) := g.executed ++ g.pending

def size (g : Graph ρ) : Nat := g.vertices.length

def firstPending (g : Graph ρ) : Nat := g.executed.length

def pendingCount (g : Graph ρ) : Nat := g.pending.length

def pendingKeys (g : Graph ρ) : List NodeKey := g.pending.map (·.key)

/-- The vertex under a key, if it is still in the sequence. -/
def find? (g : Graph ρ) (k : NodeKey) : Option (Vertex ρ) :=
  g.vertices.find? (·.key == k)

def contains (g : Graph ρ) (k : NodeKey) : Bool := (g.find? k).isSome

def find (g : Graph ρ) (k : NodeKey) : Outcome (Vertex ρ) :=
  match g.find? k with
  | some v => .ok v
  | none => .error (.staleKey k)

def vertexAt (g : Graph ρ) (position : Nat) : Outcome (Vertex ρ) :=
  match g.vertices[position]? with
  | some v => .ok v
  | none => .error .outOfRange

/-- The pending nodes from position `first` up to before `last`, both counted
among the pending nodes. -/
def pendingRange (g : Graph ρ) (first last : Nat) : Outcome (List (Vertex ρ)) :=
  if first ≤ last ∧ last ≤ g.pending.length then
    .ok ((g.pending.take last).drop first)
  else
    .error .outOfRange

def mapVertices (g : Graph ρ) (f : Vertex ρ -> Vertex ρ) : Graph ρ :=
  { g with initial := f g.initial, history := g.history.map f, pending := g.pending.map f }

def update (g : Graph ρ) (k : NodeKey) (f : Node ρ -> Node ρ) : Graph ρ :=
  g.mapVertices fun v => if v.key = k then v.update f else v

def require (g : Graph ρ) (k : NodeKey) : Outcome Unit :=
  if g.contains k then .ok () else .error (.staleKey k)

def modify (g : Graph ρ) (k : NodeKey) (f : Node ρ -> Node ρ) : Outcome (Graph ρ) := do
  g.require k
  return g.update k f

theorem vertices_mapVertices (g : Graph ρ) (f : Vertex ρ -> Vertex ρ) :
    (g.mapVertices f).vertices = g.vertices.map f := by
  simp [vertices, executed, mapVertices]

theorem vertices_update (g : Graph ρ) (k : NodeKey) (f : Node ρ -> Node ρ) :
    (g.update k f).vertices = g.vertices.map fun v => if v.key = k then v.update f else v :=
  g.vertices_mapVertices _

theorem find?_update (g : Graph ρ) (k j : NodeKey) (f : Node ρ -> Node ρ) :
    (g.update k f).find? j =
      (g.find? j).map fun v => if v.key = k then v.update f else v := by
  have same : forall v : Vertex ρ, (if v.key = k then v.update f else v).key = v.key := by
    intro v
    split <;> rfl
  rw [find?, find?, vertices_update, List.find?_map]
  congr 2
  funext v
  rw [Function.comp_apply, same]

@[simp] theorem contains_update (g : Graph ρ) (k j : NodeKey) (f : Node ρ -> Node ρ) :
    (g.update k f).contains j = g.contains j := by
  rw [contains, contains, find?_update, Option.isSome_map]

/-! ## Owners and edges -/

/-- The last node to write a state, or the initial node. -/
def ownerOrInitial (g : Graph ρ) (s : State) : NodeKey := (g.owners.get? s).getD g.initial.key

def isListCurrent (g : Graph ρ) (s : SNodeId) : Bool := s ∈ g.currentLists

/-- Records an edge at both of its ends.  An edge that is there already stays as
it is. -/
def connect (g : Graph ρ) (source target : NodeKey) (s : State) : Graph ρ :=
  (g.update source fun n => { n with outputs := n.outputs.insert s target }).update target
    fun n => { n with inputs := n.inputs.insert s source }

/-- Connects two nodes through a state.  No node is connected with itself. -/
def insertEdge (g : Graph ρ) (source target : NodeKey) (s : State) : Outcome (Graph ρ) :=
  if source = target then .ok g
  else do
    g.require source
    g.require target
    return g.connect source target s

def insertEdgesInto (g : Graph ρ) (sources : List NodeKey) (target : NodeKey) (s : State) :
    Outcome (Graph ρ) :=
  sources.foldlM (fun g source => g.insertEdge source target s) g

def dropOutput (g : Graph ρ) (source target : NodeKey) (s : State) : Outcome (Graph ρ) :=
  g.modify source fun n => { n with outputs := n.outputs.erase s target }

def dropInput (g : Graph ρ) (source target : NodeKey) (s : State) : Outcome (Graph ρ) :=
  g.modify target fun n => { n with inputs := n.inputs.erase s source }

def setWindow (g : Graph ρ) (n : Nat) : Graph ρ := { g with window := .ofNat n }

/-! ## Positions -/

/-- Numbers vertices from `position` on; `pendingFrom` is the pending position of
the first. -/
def numberPending (pending : List (Vertex ρ)) (position pendingFrom : Nat) : List (Vertex ρ) :=
  pending.mapIdx fun i v => v.update (·.renumbered (position + i) (some (pendingFrom + i)))

def numberExecuted (history : List (Vertex ρ)) (position : Nat) : List (Vertex ρ) :=
  history.mapIdx fun i v => v.update (·.renumbered (position + i) none)

def renumberPending (g : Graph ρ) : Graph ρ :=
  { g with pending := numberPending g.pending g.firstPending 0 }

def renumber (g : Graph ρ) : Graph ρ :=
  { g.renumberPending with
    initial := g.initial.update (·.renumbered 0 none)
    history := numberExecuted g.history 1 }

end Graph

end LaunchGraph
