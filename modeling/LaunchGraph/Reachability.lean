import LaunchGraph.Fault
import LaunchGraph.IndexSet

/-!
# Reachability

Which of finitely many items, numbered from zero, can be reached from which, kept
as one row of descendants and one row of ancestors for each item.  Every item
reaches itself.  Merging two items makes them reach whatever either one reached.
-/

namespace LaunchGraph

/-- Rows of descendants, and their transpose. -/
structure Reachability where
  descendants : List IndexSet
  ancestors : List IndexSet
deriving DecidableEq, Inhabited

namespace Reachability

def size (r : Reachability) : Nat := r.descendants.length

def row (rows : List IndexSet) (i : Nat) : IndexSet := (rows[i]?).getD ∅

/-! ## From successors -/

/-- Joins the row of a successor of `i` to a row; `later` has the rows of the
items after `i`. -/
def joinSuccessor (i : Nat) (later : List IndexSet) (acc : IndexSet) (successor : Nat) :
    Outcome IndexSet :=
  if successor ≤ i then throw (.backwardEdge i successor)
  else
    match later[successor - i - 1]? with
    | some r => return acc ∪ r
    | none => throw .outOfRange

/-- The rows of descendants of the items from `i` on, given their successors. -/
def rowsFrom (i : Nat) : (successors : List (List Nat)) -> Outcome (List IndexSet)
  | [] => return []
  | next :: rest => do
      let later ← rowsFrom (i + 1) rest
      let r ← next.foldlM (joinSuccessor i later) (.single i)
      return r :: later

/-- The rows of the opposite relation. -/
def transpose (rows : List IndexSet) : List IndexSet :=
  (List.range rows.length).map fun j =>
    .ofList ((List.range rows.length).filter fun i => j ∈ row rows i)

/-- Reachability along edges that all lead to items with higher numbers. -/
def ofSuccessors (successors : List (List Nat)) : Outcome Reachability := do
  let rows ← rowsFrom 0 successors
  return ⟨rows, transpose rows⟩

/-! ## Paths and merging -/

def reaches (r : Reachability) (source target : Nat) : Bool := target ∈ row r.descendants source

/-- The items on a way from one item to another, both included. -/
def between (r : Reachability) (source target : Nat) : IndexSet :=
  row r.descendants source ∩ row r.ancestors target

/-- Joins `extra` to the rows of the given items. -/
def widen (rows : List IndexSet) (items extra : IndexSet) : List IndexSet :=
  rows.mapIdx fun i r => if i ∈ items then r ∪ extra else r

/-- Joins two items into one: whatever reached either one now reaches everything
that either one reached. -/
def merge (r : Reachability) (a b : Nat) : Reachability :=
  let reach := row r.descendants a ∪ row r.descendants b
  let reachedBy := row r.ancestors a ∪ row r.ancestors b
  ⟨widen r.descendants reachedBy reach, widen r.ancestors reach reachedBy⟩

/-- Whether one item can be reached from another, where the first must be an item. -/
def hasPath (r : Reachability) (source target : Nat) : Outcome Bool :=
  if source < r.size then return r.reaches source target else throw .outOfRange

/-- Joins two items into one, where both must be items. -/
def contract (r : Reachability) (a b : Nat) : Outcome Reachability :=
  if a < r.size ∧ b < r.size then return r.merge a b else throw .outOfRange

end Reachability

end LaunchGraph
