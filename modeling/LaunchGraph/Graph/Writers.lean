import LaunchGraph.Graph.Basic

/-!
# Previous writers

The input edges of a node on a state lead back to the writer that it reads from
or overwrites, and from there to the writer before.  Going back this way while
skipping some nodes finds the last writer that remains without them.
-/

namespace LaunchGraph

namespace Graph

variable {ρ : Type}

/-- The later of two nodes by position; of two at one position, the second. -/
def laterOf (a : Option (Vertex ρ)) (b : Vertex ρ) : Option (Vertex ρ) :=
  match a with
  | none => some b
  | some a => if b.nodeId < a.nodeId then some a else some b

/-- The latest writer of a state among the sources of a node's edges on it. -/
def latestSource (g : Graph ρ) (v : Vertex ρ) (s : State) : Outcome (Option (Vertex ρ)) := do
  let sources ← (v.inputs.get s).mapM g.find
  return (sources.filter (·.writes s)).foldl laterOf none

/-- Follows latest sources from `k`, for at most `fuel` steps, to one outside of
`skip`. -/
def writerBefore (g : Graph ρ) (s : State) (skip : List NodeKey) :
    (fuel : Nat) -> (k : NodeKey) -> Outcome NodeKey
  | 0, _ => .error (.endlessWriters s)
  | fuel + 1, k => do
      match ← g.latestSource (← g.find k) s with
      | none => return g.initial.key
      | some w => if w.key ∈ skip then g.writerBefore s skip fuel w.key else return w.key

/-- The writer of a state that a node overwrote or read from, leaving out the
nodes in `skip`; the initial node if there is none.  A walk that takes more steps
than there are nodes would never end. -/
def priorWriter (g : Graph ρ) (k : NodeKey) (s : State) (skip : List NodeKey) :
    Outcome NodeKey :=
  g.writerBefore s skip (g.size + 1) k

/-- The owners once the nodes in `doomed` are gone: a state owned by one of them
falls back to its previous writer. -/
def ownersWithout (g : Graph ρ) (doomed : List NodeKey) : Outcome (Table State NodeKey) :=
  g.owners.traverse fun s owner =>
    if owner ∈ doomed then g.priorWriter owner s doomed else pure owner

end Graph

end LaunchGraph
