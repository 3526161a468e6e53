import LaunchGraph.Proofs.Graph.Verify

/-!
# A search in two phases

Another search for cycles follows edges in both directions.  Its first phase finishes the items
in depth-first order, on a stack on which an item stays while it is open.  Its second phase takes
the items in reverse order of finishing and searches back from each, through what it has not
discovered before.  The items lie on no cycle if no such search discovers a second item.

Edges may be parallel here, and those of an item are followed in the reverse of the order in which
they were put in, in either direction.  Both searches name the same item.  Neither looks for an edge
from an item to itself.
-/

namespace LaunchGraph

namespace Cycle

variable {α : Type}

/-!
## The search
-/

section Search

variable [DecidableEq α]

def outgoing (edges : List (α × α)) (x : α) : List α :=
  ((edges.filter (·.1 = x)).map (·.2)).reverse

def incoming (edges : List (α × α)) (x : α) : List α :=
  ((edges.filter (·.2 = x)).map (·.1)).reverse

/-- Puts those of the items that are undiscovered on a stack.  The last one ends up on top. -/
def push (undiscovered items stack : List α) : List α :=
  (items.filter (· ∈ undiscovered)).reverse ++ stack

/-- Works off a stack.  An item is discovered when it comes to the top for the first time, and
stays below its neighbors.  It is finished when it is on top again. -/
def visit (neighbors : α -> List α) (undiscovered : List α) :
    (stack finished : List α) -> List α × List α
  | [], finished => (undiscovered, finished)
  | x :: stack, finished =>
      if x ∈ undiscovered then
        visit neighbors (undiscovered.erase x)
          (push (undiscovered.erase x) (neighbors x) (x :: stack)) finished
      else
        visit neighbors undiscovered stack (if x ∈ finished then finished else x :: finished)
termination_by stack => effort neighbors undiscovered + stack.length
decreasing_by
  · next h =>
      have hpushed := List.length_filter_le (fun y => decide (y ∈ undiscovered.erase x)) (neighbors x)
      rw [effort_erase neighbors h, push, List.length_append, List.length_reverse]
      simp only [List.length_cons]
      omega
  · simp

def visitNew (neighbors : α -> List α) (p : List α × List α) (x : α) : List α × List α :=
  if x ∈ p.1 then visit neighbors p.1 [x] p.2 else p

def firstPhase (neighbors : α -> List α) (items : List α) : List α :=
  (items.foldl (visitNew neighbors) (items, [])).2

def discover? (neighbors : α -> List α) (undiscovered : List α) :
    (stack : List α) -> Option (α × List α × List α)
  | [] => none
  | x :: stack =>
      if x ∈ undiscovered then
        some (x, undiscovered.erase x, push (undiscovered.erase x) (neighbors x) stack)
      else
        discover? neighbors undiscovered stack

/-- The second phase: the first item that is discovered in a search from another one. -/
def secondPhase? (neighbors : α -> List α) (undiscovered : List α) : (order : List α) -> Option α
  | [] => none
  | x :: order =>
      match discover? neighbors undiscovered [x] with
      | none => secondPhase? neighbors undiscovered order
      | some (_, undiscovered, stack) =>
          match discover? neighbors undiscovered stack with
          | some (y, _, _) => some y
          | none => secondPhase? neighbors undiscovered order

def twoPhase? (items : List α) (edges : List (α × α)) : Option α :=
  secondPhase? (incoming edges) items (firstPhase (outgoing edges) items)

end Search

def edgesOf (successors : α -> List α) (items : List α) : List (α × α) :=
  items.flatMap fun x => (successors x).map (x, ·)

/-!
## The first phase
-/

/-- A stack holds what the work of a search comes to above some of it: the items that are open, and
those that are to be visited.  Of the latter, what was visited may be left out, and nothing is open
below. -/
inductive Tracks (items unvisited : List α) (base : List (Step α)) :
    List (Step α) -> List α -> Prop where
  | base : Tracks items unvisited base base []
  | enter {x : α} {work : List (Step α)} {stack : List α}
      (rest : Tracks items unvisited base work stack) (known : x ∈ items)
      (closed : Step.leave x ∉ work) : Tracks items unvisited base (.enter x :: work) (x :: stack)
  | skip {x : α} {work : List (Step α)} {stack : List α}
      (rest : Tracks items unvisited base work stack)
      (visited : x ∉ unvisited) : Tracks items unvisited base (.enter x :: work) stack
  | leave {x : α} {work : List (Step α)} {stack : List α}
      (rest : Tracks items unvisited base work stack) :
      Tracks items unvisited base (.leave x :: work) (x :: stack)

namespace Tracks

variable {items unvisited stack : List α} {base work : List (Step α)}

theorem mono {unvisited' : List α} (h : Tracks items unvisited base work stack)
    (hfewer : unvisited' ⊆ unvisited) : Tracks items unvisited' base work stack := by
  induction h with
  | base => exact .base
  | enter _ known closed ih => exact .enter ih known closed
  | skip _ visited ih => exact .skip ih fun hx => visited (hfewer hx)
  | leave _ ih => exact .leave ih

theorem enters [DecidableEq α] (h : Tracks items unvisited base work stack) {xs : List α}
    (hknown : xs ⊆ items) (hclosed : forall x, x ∈ unvisited -> Step.leave x ∉ work) :
    Tracks items unvisited base (xs.map .enter ++ work)
      (xs.filter (· ∈ unvisited) ++ stack) := by
  induction xs with
  | nil => exact h
  | cons x xs ih =>
      rcases List.cons_subset.mp hknown with ⟨hx, hxs⟩
      rw [List.filter_cons]
      split
      · next hnew =>
          refine .enter (ih hxs) hx fun hin => ?_
          rcases List.mem_append.mp hin with hin | hin
          · exact not_leave_mem_enters hin
          · exact hclosed x (of_decide_eq_true hnew) hin
      · next hold => exact .skip (ih hxs) fun hin => hold (decide_eq_true hin)

end Tracks

section FirstPhase

variable [DecidableEq α] {successors neighbors : α -> List α} {items : List α}
  (hneighbors : forall x, neighbors x = (successors x).reverse)
  (hitems : forall x y, y ∈ successors x -> y ∈ items)

include hneighbors hitems

/-- Working off a stack is a stretch of the search whose work it tracks. -/
theorem search_of_visit {base : List (Step α)} (unvisited : List α) (work : List (Step α))
    (finished : List α) {stack : List α} (h : Searching successors items unvisited work finished)
    (htracks : Tracks items unvisited base work stack) :
    exists unvisited' finished', visit neighbors unvisited stack finished = (unvisited', finished') ∧
      search successors unvisited work finished = search successors unvisited' base finished' ∧
      Searching successors items unvisited' base finished' := by
  induction unvisited, work, finished using search.induct successors generalizing stack with
  | case1 unvisited finished =>
      cases htracks with
      | base => exact ⟨unvisited, finished, by rw [visit], rfl, h⟩
  | case2 unvisited x work finished ih =>
      cases htracks with
      | base => exact ⟨unvisited, finished, by rw [visit], rfl, h⟩
      | leave rest =>
          have hx := h.fresh x (List.mem_cons_self ..)
          rw [visit, if_neg hx.right, if_neg hx.left, search]
          exact ih (h.leave (hitems x)) rest
  | case3 unvisited x work finished hx ih =>
      cases htracks with
      | base => exact ⟨unvisited, finished, by rw [visit], rfl, h⟩
      | skip rest visited => exact absurd hx visited
      | enter rest known closed =>
          have hvisit := h.visit hx
          rw [visit, if_pos hx, search, if_pos hx, push, hneighbors, List.filter_reverse,
            List.reverse_reverse]
          refine ih hvisit (.enters (.leave (rest.mono List.erase_subset)) (hitems x) ?_)
          intro y hy hleave
          exact (hvisit.fresh y (List.mem_append_right _ hleave)).right hy
  | case4 unvisited x work finished hx ih =>
      cases htracks with
      | base => exact ⟨unvisited, finished, by rw [visit], rfl, h⟩
      | skip rest visited =>
          rw [search, if_neg hx]
          exact ih (h.skip hx) rest
      | enter rest known closed =>
          -- nothing was open below when the item was put on the stack
          have hfinished : x ∈ finished := by
            rcases h.covered x known with hu | hf | hw
            · exact absurd hu hx
            · exact hf
            · rcases List.mem_cons.mp hw with heq | hw
              · cases heq
              · exact absurd hw closed
          rw [visit, if_neg hx, if_pos hfinished, search, if_neg hx]
          exact ih (h.skip hx) rest

theorem foldl_visitNew {roots unvisited finished : List α} (hroots : roots ⊆ items)
    (h : Searching successors items unvisited (roots.map .enter) finished) :
    (roots.foldl (visitNew neighbors) (unvisited, finished)).2
      = search successors unvisited (roots.map .enter) finished := by
  induction roots generalizing unvisited finished with
  | nil =>
      rw [List.map_nil, search]
      rfl
  | cons x roots ih =>
      rcases List.cons_subset.mp hroots with ⟨hx, hrest⟩
      rw [List.foldl_cons, visitNew]
      dsimp only
      split
      · have htracks : Tracks items unvisited (roots.map .enter) (.enter x :: roots.map .enter)
            [x] := .enter .base hx not_leave_mem_enters
        rcases search_of_visit hneighbors hitems unvisited _ finished h htracks
          with ⟨unvisited', finished', hvisit, hsearch, h'⟩
        rw [hvisit, ih hrest h', hsearch]
      · next hvisited =>
          rw [List.map_cons, search, if_neg hvisited]
          exact ih hrest (h.skip hvisited)

/-- The first phase finishes the items in the order of the search. -/
theorem firstPhase_eq (hnodup : items.Nodup) :
    firstPhase neighbors items = finishOrder successors items :=
  foldl_visitNew hneighbors hitems (List.Subset.refl items) (searching_start hnodup)

end FirstPhase

/-!
## Each item is finished once
-/

def opened (work : List (Step α)) : List α :=
  work.filterMap fun
    | .enter _ => none
    | .leave x => some x

theorem opened_enters (xs : List α) : opened (xs.map Step.enter) = [] := by
  rw [opened, List.filterMap_map, List.filterMap_eq_nil_iff]
  intro x _
  rfl

section Finished

variable [DecidableEq α] {successors : α -> List α} {items : List α}

theorem search_perm (hitems : forall x y, y ∈ successors x -> y ∈ items) (unvisited : List α)
    (work : List (Step α)) (finished : List α)
    (h : Searching successors items unvisited work finished) :
    (search successors unvisited work finished).Perm (unvisited ++ opened work ++ finished) := by
  induction unvisited, work, finished using search.induct successors with
  | case1 unvisited finished =>
      have hnone : unvisited = [] :=
        List.eq_nil_iff_forall_not_mem.mpr fun x hx => List.not_mem_nil (h.awaited x hx)
      rw [search, hnone]
      exact .refl _
  | case2 unvisited x work finished ih =>
      rw [search]
      refine (ih (h.leave (hitems x))).trans ?_
      rw [List.append_assoc, List.append_assoc]
      exact List.perm_middle.append_left unvisited
  | case3 unvisited x work finished hx ih =>
      rw [search, if_pos hx]
      refine (ih (h.visit hx)).trans (List.Perm.append_right finished ?_)
      have hopened : opened ((successors x).map .enter ++ .leave x :: work) = x :: opened work := by
        rw [opened, List.filterMap_append]
        exact congrArg (· ++ _) (opened_enters (successors x))
      rw [hopened]
      exact List.perm_middle.trans ((List.perm_cons_erase hx).symm.append_right _)
  | case4 unvisited x work finished hx ih =>
      rw [search, if_neg hx]
      exact ih (h.skip hx)

theorem finishOrder_perm (hnodup : items.Nodup)
    (hitems : forall x y, y ∈ successors x -> y ∈ items) :
    (finishOrder successors items).Perm items := by
  have hperm := search_perm hitems items _ [] (searching_start hnodup)
  rw [opened_enters, List.append_nil, List.append_nil] at hperm
  exact hperm

end Finished

/-!
## The second phase
-/

section SecondPhase

variable [DecidableEq α] {successors neighbors : α -> List α} {items : List α}

theorem map_discover? (neighbors : α -> List α) (undiscovered stack : List α) :
    (discover? neighbors undiscovered stack).map (·.1) = stack.find? (· ∈ undiscovered) := by
  induction stack with
  | nil => rfl
  | cons x stack ih =>
      rw [discover?, List.find?_cons]
      by_cases hx : x ∈ undiscovered
      · rw [if_pos hx, decide_eq_true hx]
        rfl
      · rw [if_neg hx, decide_eq_false hx]
        exact ih

/-- The second phase looks for the same edges that lead backward in the order.  The induction is on
what it has yet to discover. -/
theorem secondPhase?_eq
    (hneighbors : forall x (p : α -> Bool),
      (neighbors x).reverse.find? p = items.find? fun y => p y && x ∈ successors y)
    {undiscovered order : List α} (h : undiscovered.Perm order) :
    secondPhase? neighbors undiscovered order = backwardSource? successors items order := by
  induction order generalizing undiscovered with
  | nil => rfl
  | cons x later ih =>
      have hx : x ∈ undiscovered := h.mem_iff.mpr (List.mem_cons_self ..)
      have hlater : (undiscovered.erase x).Perm later := by
        have herase := h.erase x
        rw [List.erase_cons_head] at herase
        exact herase
      have hsecond : (discover? neighbors (undiscovered.erase x)
            (push (undiscovered.erase x) (neighbors x) [])).map (·.1)
          = items.find? fun p => p ∈ later && x ∈ successors p := by
        rw [map_discover?, push, List.append_nil, ← List.filter_reverse, List.find?_filter,
          hneighbors]
        simp only [hlater.mem_iff, decide_eq_true_eq, and_self]
      rw [secondPhase?, discover?, if_pos hx, backwardSource?, ← hsecond]
      cases hfound : discover? neighbors (undiscovered.erase x)
          (push (undiscovered.erase x) (neighbors x) []) with
      | none =>
          dsimp only
          rw [hfound]
          exact ih hlater
      | some found =>
          dsimp only
          rw [hfound]
          rfl

/-!
## Both phases
-/

theorem map_filter_edgesOf (successors : α -> List α) (hnodup : items.Nodup) (x : α) :
    ((edgesOf successors items).filter (·.1 = x)).map (·.2)
      = if x ∈ items then successors x else [] := by
  induction items with
  | nil => rfl
  | cons y items ih =>
      rcases List.nodup_cons.mp hnodup with ⟨hy, hrest⟩
      rw [edgesOf, List.flatMap_cons, List.filter_append, List.map_append]
      rw [← edgesOf, ih hrest, List.filter_map, List.map_map]
      by_cases hyx : y = x
      · subst hyx
        rw [if_neg hy, if_pos (List.mem_cons_self ..), List.append_nil]
        simp [Function.comp_def]
      · have hmem : x ∈ y :: items ↔ x ∈ items := by simp [Ne.symm hyx]
        simp only [hmem]
        simp [Function.comp_def, hyx]

theorem outgoing_edgesOf (hnodup : items.Nodup) (hsources : forall x y, y ∈ successors x -> x ∈ items)
    (x : α) : outgoing (edgesOf successors items) x = (successors x).reverse := by
  rw [outgoing, map_filter_edgesOf successors hnodup]
  split
  · rfl
  · next hx =>
      have hnone : successors x = [] :=
        List.eq_nil_iff_forall_not_mem.mpr fun y hy => hx (hsources x y hy)
      rw [hnone]

theorem find?_edges (y x : α) (p : α -> Bool) (targets : List α) :
    ((targets.map (y, ·)).find? fun e => e.2 = x && p e.1).map (·.1)
      = Option.guard (fun y => p y && x ∈ targets) y := by
  cases hfind : (targets.map (y, ·)).find? fun e => e.2 = x && p e.1 with
  | none =>
      rw [List.find?_eq_none] at hfind
      refine (Option.guard_eq_none_iff.mpr ?_).symm
      by_contra hy
      rw [Bool.not_eq_false, Bool.and_eq_true, decide_eq_true_iff] at hy
      refine hfind (y, x) (List.mem_map_of_mem hy.right) ?_
      rw [Bool.and_eq_true]
      exact ⟨decide_eq_true rfl, hy.left⟩
  | some e =>
      have htest := List.find?_some hfind
      rcases List.mem_map.mp (List.mem_of_find?_eq_some hfind) with ⟨z, hz, rfl⟩
      rw [Bool.and_eq_true, decide_eq_true_iff] at htest
      rcases htest with ⟨rfl, hp⟩
      refine (Option.guard_eq_some_iff.mpr ⟨rfl, ?_⟩).symm
      rw [Bool.and_eq_true]
      exact ⟨hp, decide_eq_true hz⟩

theorem find?_incoming (x : α) (p : α -> Bool) :
    (incoming (edgesOf successors items) x).reverse.find? p
      = items.find? fun y => p y && x ∈ successors y := by
  rw [incoming, List.reverse_reverse, List.find?_map, List.find?_filter, edgesOf,
    List.find?_flatMap, List.map_findSome?, List.find?_eq_findSome?_guard]
  refine congrArg (items.findSome? ·) (funext fun y => ?_)
  simp only [Bool.decide_and, Bool.decide_eq_true, Function.comp_apply]
  exact find?_edges y x p (successors y)

/-- Both searches name the same item. -/
theorem twoPhase?_eq_find? (hnodup : items.Nodup)
    (hitems : forall x y, y ∈ successors x -> x ∈ items ∧ y ∈ items) :
    twoPhase? items (edgesOf successors items) = find? successors items := by
  have htargets : forall x y, y ∈ successors x -> y ∈ items := fun x y hy => (hitems x y hy).right
  have hfirst : firstPhase (outgoing (edgesOf successors items)) items
      = finishOrder successors items :=
    firstPhase_eq (outgoing_edgesOf hnodup fun x y hy => (hitems x y hy).left) htargets hnodup
  rw [twoPhase?, hfirst, find?]
  exact secondPhase?_eq find?_incoming (finishOrder_perm hnodup htargets).symm

end SecondPhase

end Cycle

/-!
## Graphs
-/

namespace Graph

variable {ρ : Type} {g : Graph ρ}

def arcs (g : Graph ρ) : List (NodeKey × NodeKey) :=
  g.vertices.flatMap fun v => v.outputs.neighbors.map (v.key, ·)

theorem arcs_eq (hg : g.Keyed) : g.arcs = Cycle.edgesOf g.targets g.keys := by
  rw [arcs, Cycle.edgesOf, keys, List.flatMap_map]
  refine List.flatMap_congr fun v hv => ?_
  rw [targets, find?_of_mem hg.nodup hv]

/-- The check for cycles names the node that a search in two phases comes upon first. -/
theorem checkAcyclic_eq_twoPhase (hg : g.Linked) :
    g.checkAcyclic = match Cycle.twoPhase? g.keys g.arcs with
      | some k => throw (.cycle (g.nameOf k))
      | none => pure () := by
  rw [arcs_eq hg.keyed,
    Cycle.twoPhase?_eq_find? hg.keyed.nodup fun u v huv => hg.mem_keys_of_mem_targets huv]
  rfl

end Graph

end LaunchGraph
