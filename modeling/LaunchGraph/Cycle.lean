/-!
# Cycle search

A depth-first search lists the items of a directed graph in reverse order of
finishing.  If no edge goes backwards in that list there is no cycle; the source
of a backward edge lies on one.

Items are visited in the order given, and the successors of an item in their own
order.
-/

namespace LaunchGraph

namespace Cycle

variable {α : Type} [DecidableEq α]

/-- What a search has yet to do: visit an item, or finish one that was visited. -/
inductive Step (α : Type) where
  | enter (item : α)
  | leave (item : α)

/-- The most steps that it takes to visit and finish all of some items. -/
def effort (successors : α -> List α) (items : List α) : Nat :=
  items.foldr (fun x n => (successors x).length + 2 + n) 0

theorem effort_erase (successors : α -> List α) {x : α} {items : List α} (h : x ∈ items) :
    effort successors items = (successors x).length + 2 + effort successors (items.erase x) := by
  refine (List.perm_cons_erase h).foldr_eq' ?_ 0
  intros
  omega

/-- Carries out the steps in `work`.  Each item of `unvisited` is visited once;
`finished` collects the items, last finished first. -/
def search (successors : α -> List α) (unvisited : List α) :
    (work : List (Step α)) -> (finished : List α) -> List α
  | [], finished => finished
  | .leave x :: work, finished => search successors unvisited work (x :: finished)
  | .enter x :: work, finished =>
      if x ∈ unvisited then
        search successors (unvisited.erase x)
          ((successors x).map .enter ++ .leave x :: work) finished
      else
        search successors unvisited work finished
termination_by work => effort successors unvisited + work.length
decreasing_by
  · simp
  · next h =>
      rw [effort_erase successors h]
      simp only [List.length_append, List.length_map, List.length_cons]
      omega
  · simp

/-- The items in reverse order of finishing. -/
def finishOrder (successors : α -> List α) (items : List α) : List α :=
  search successors items (items.map .enter) []

/-- The source of the first backward edge: at the first item of `order` that has
a predecessor after it, the predecessor that comes first in `items`. -/
def backwardSource? (successors : α -> List α) (items : List α) : (order : List α) -> Option α
  | [] => none
  | x :: later =>
      match items.find? fun p => p ∈ later && x ∈ successors p with
      | some p => some p
      | none => backwardSource? successors items later

def find? (successors : α -> List α) (items : List α) : Option α :=
  backwardSource? successors items (finishOrder successors items)

end Cycle

end LaunchGraph
