import LaunchGraph.Graph.Basic
import LaunchGraph.IndexSet

/-!
# Order of the pending nodes

Pending nodes are put in an order in which every edge between them points
forward.  Whenever several nodes are ready, the oldest goes first; of two equally
old ones, the one that was first already.
-/

namespace LaunchGraph

/-- An item to be put in order: its age, its present position, and the positions
of the items that must come before it. -/
structure Candidate (α : Type) where
  item : α
  seq : Nat
  position : Nat
  after : IndexSet

namespace Candidate

variable {α : Type}

def positions (cs : List (Candidate α)) : IndexSet := .ofList (cs.map (·.position))

def isReady (remaining : IndexSet) (c : Candidate α) : Bool := (c.after ∩ remaining).isEmpty

/-- The one of two candidates that goes first, in favor of the left one. -/
def older (a : Option (Candidate α)) (b : Candidate α) : Option (Candidate α) :=
  match a with
  | none => some b
  | some a => if b.seq < a.seq then some b else some a

/-- The oldest candidate that is ready, the first of several. -/
def next? (cs : List (Candidate α)) : Option (Candidate α) :=
  (cs.filter (isReady (positions cs))).foldl older none

/-- Takes `steps` ready candidates, oldest first; none if there are not enough. -/
def arrange : (steps : Nat) -> List (Candidate α) -> Option (List α)
  | 0, _ => some []
  | steps + 1, cs => do
      let c ← next? cs
      let rest ← arrange steps (cs.filter (·.position != c.position))
      return c.item :: rest

end Candidate

namespace Graph

variable {ρ : Type}

def positionsInto (k : NodeKey) (targets : List (Nat × List NodeKey)) : IndexSet :=
  .ofList ((targets.filter (k ∈ ·.2)).map (·.1))

/-- The pending nodes as candidates: a node comes after the sources of its edges. -/
def candidates (g : Graph ρ) : List (Candidate (Vertex ρ)) :=
  let targets := g.pending.mapIdx fun j u => (j, u.outputs.neighbors)
  g.pending.mapIdx fun i v =>
    { item := v, seq := v.seq, position := i, after := positionsInto v.key targets }

/-- Puts the pending nodes in order.  This fails exactly if they form a cycle. -/
def sortPending (g : Graph ρ) : Outcome (Graph ρ) :=
  match Candidate.arrange g.pending.length g.candidates with
  | some pending => .ok { g with pending }.renumberPending
  | none => .error .pendingCycle

end Graph

end LaunchGraph
