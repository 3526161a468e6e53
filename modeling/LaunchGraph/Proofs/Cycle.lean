import LaunchGraph.Cycle
import Mathlib.Data.List.Nodup
import Mathlib.Logic.Relation

/-!
# The cycle search is exact

When the search finishes an item, each of its successors is finished as well or still open,
and an item that is open leads to everything that was visited since.  So an edge that goes
backward in the reverse order of finishing closes a cycle: its target leads back to its
source.  A cycle, for its part, cannot go forward all the way around.

An edge from an item to itself is not looked for.
-/

namespace LaunchGraph
namespace Cycle

variable {α : Type}

def LeadsTo (successors : α -> List α) (x y : α) : Prop := y ∈ successors x

def OnCycle (successors : α -> List α) (x : α) : Prop :=
  Relation.TransGen (LeadsTo successors) x x

def Step.item : Step α -> α
  | .enter x => x
  | .leave x => x

def Above (successors : α -> List α) (a b : Step α) : Prop :=
  forall p, b = .leave p -> Relation.ReflTransGen (LeadsTo successors) p a.item

/-- The state of a search: what is unvisited, what is left to do, what is finished.
An open item, one that was visited but is not finished, has one step to leave it. -/
structure Searching (successors : α -> List α) (items : List α) (unvisited : List α)
    (work : List (Step α)) (finished : List α) : Prop where
  nodup : unvisited.Nodup
  awaited : forall x, x ∈ unvisited -> Step.enter x ∈ work
  covered : forall x, x ∈ items -> x ∈ unvisited ∨ x ∈ finished ∨ Step.leave x ∈ work
  once : work.Pairwise (fun a b => forall p, a = .leave p -> b ≠ .leave p)
  chained : work.Pairwise (Above successors)
  supplied : forall a p b, work = a ++ Step.leave p :: b ->
    forall x, x ∈ successors p -> x ∉ unvisited ∨ Step.enter x ∈ a
  fresh : forall p, Step.leave p ∈ work -> p ∉ finished ∧ p ∉ unvisited
  apart : forall p, p ∈ finished -> p ∉ unvisited
  closed : forall p, p ∈ finished -> forall x, x ∈ successors p -> x ∈ finished ∨
    (Step.leave x ∈ work ∧ Relation.ReflTransGen (LeadsTo successors) x p)
  closing : finished.Pairwise (fun x p => x ∈ successors p ->
    Relation.ReflTransGen (LeadsTo successors) x p)

structure Searched (successors : α -> List α) (items : List α) (order : List α) : Prop where
  complete : forall x, x ∈ items -> x ∈ order
  closing : order.Pairwise (fun x p => x ∈ successors p ->
    Relation.ReflTransGen (LeadsTo successors) x p)

section Search

variable {successors : α -> List α} {items : List α}

theorem not_leave_mem_enters {l : List α} {p : α} : Step.leave p ∉ l.map Step.enter := by
  intro hp
  rcases List.mem_map.mp hp with ⟨x, _, hx⟩
  cases hx

theorem pairwise_enters {R : Step α -> Step α -> Prop} (l : List α)
    (h : forall x y, R (.enter x) (.enter y)) : (l.map Step.enter).Pairwise R := by
  rw [List.pairwise_map]
  exact List.pairwise_of_forall fun x y => h x y

theorem above_enter (a : Step α) (y : α) : Above successors a (.enter y) := by
  intro p hp
  cases hp

theorem searching_start (hitems : items.Nodup) :
    Searching successors items items (items.map Step.enter) [] where
  nodup := hitems
  awaited x hx := List.mem_map_of_mem hx
  covered x hx := Or.inl hx
  once := pairwise_enters items fun x y p hp => by cases hp
  chained := pairwise_enters items fun x y => above_enter _ y
  supplied a p b hsplit := by
    have hmem : Step.leave p ∈ items.map Step.enter := by
      rw [hsplit]
      simp
    exact absurd hmem not_leave_mem_enters
  fresh p hp := absurd hp not_leave_mem_enters
  apart p hp := by cases hp
  closed p hp := by cases hp
  closing := List.Pairwise.nil

namespace Searching

variable {unvisited finished : List α} {work : List (Step α)} {x : α}

/-- Finishing an item.  A successor of it is finished, or lies open below it. -/
theorem leave (h : Searching successors items unvisited (.leave x :: work) finished)
    (hitems : forall y, y ∈ successors x -> y ∈ items) :
    Searching successors items unvisited work (x :: finished) := by
  have hx := h.fresh x (List.mem_cons_self ..)
  have honce := List.pairwise_cons.mp h.once
  have hchained := List.pairwise_cons.mp h.chained
  refine ⟨h.nodup, ?_, ?_, honce.right, hchained.right, ?_, ?_, ?_, ?_, ?_⟩
  · intro y hy
    rcases List.mem_cons.mp (h.awaited y hy) with heq | hw
    · cases heq
    · exact hw
  · intro y hy
    rcases h.covered y hy with hu | hf | hw
    · exact Or.inl hu
    · exact Or.inr (Or.inl (List.mem_cons_of_mem _ hf))
    · rcases List.mem_cons.mp hw with heq | hw
      · cases heq
        exact Or.inr (Or.inl (List.mem_cons_self ..))
      · exact Or.inr (Or.inr hw)
  · intro a p b hsplit y hy
    rcases h.supplied (.leave x :: a) p b (by rw [hsplit]; rfl) y hy with hu | ha
    · exact Or.inl hu
    · rcases List.mem_cons.mp ha with heq | ha
      · cases heq
      · exact Or.inr ha
  · intro p hp
    have hold := h.fresh p (List.mem_cons_of_mem _ hp)
    refine ⟨?_, hold.right⟩
    intro hin
    rcases List.mem_cons.mp hin with rfl | hin
    · exact honce.left (.leave p) hp p rfl rfl
    · exact hold.left hin
  · intro p hp
    rcases List.mem_cons.mp hp with rfl | hp
    · exact hx.right
    · exact h.apart p hp
  · intro p hp y hy
    rcases List.mem_cons.mp hp with rfl | hp
    · have hvisited : y ∉ unvisited := by
        rcases h.supplied [] p work rfl y hy with hu | ha
        · exact hu
        · cases ha
      rcases h.covered y (hitems y hy) with hu | hf | hw
      · exact absurd hu hvisited
      · exact Or.inl (List.mem_cons_of_mem _ hf)
      · rcases List.mem_cons.mp hw with heq | hw
        · cases heq
          exact Or.inl (List.mem_cons_self ..)
        · exact Or.inr ⟨hw, hchained.left (.leave y) hw y rfl⟩
    · rcases h.closed p hp y hy with hf | ⟨hw, hreach⟩
      · exact Or.inl (List.mem_cons_of_mem _ hf)
      · rcases List.mem_cons.mp hw with heq | hw
        · cases heq
          exact Or.inl (List.mem_cons_self ..)
        · exact Or.inr ⟨hw, hreach⟩
  · rw [List.pairwise_cons]
    refine ⟨?_, h.closing⟩
    intro p hp hedge
    rcases h.closed p hp x hedge with hf | ⟨_, hreach⟩
    · exact absurd hf hx.left
    · exact hreach

theorem skip (h : Searching successors items unvisited (.enter x :: work) finished)
    (hx : x ∉ unvisited) : Searching successors items unvisited work finished := by
  have htail : forall p, Step.leave p ∈ .enter x :: work -> Step.leave p ∈ work := by
    intro p hp
    rcases List.mem_cons.mp hp with heq | hp
    · cases heq
    · exact hp
  refine ⟨h.nodup, ?_, ?_, (List.pairwise_cons.mp h.once).right,
    (List.pairwise_cons.mp h.chained).right, ?_, ?_, h.apart, ?_, h.closing⟩
  · intro y hy
    rcases List.mem_cons.mp (h.awaited y hy) with heq | hw
    · cases heq
      exact absurd hy hx
    · exact hw
  · intro y hy
    rcases h.covered y hy with hu | hf | hw
    · exact Or.inl hu
    · exact Or.inr (Or.inl hf)
    · exact Or.inr (Or.inr (htail y hw))
  · intro a p b hsplit y hy
    rcases h.supplied (.enter x :: a) p b (by rw [hsplit]; rfl) y hy with hu | ha
    · exact Or.inl hu
    · rcases List.mem_cons.mp ha with heq | ha
      · cases heq
        exact Or.inl hx
      · exact Or.inr ha
  · intro p hp
    exact h.fresh p (List.mem_cons_of_mem _ hp)
  · intro p hp y hy
    rcases h.closed p hp y hy with hf | ⟨hw, hreach⟩
    · exact Or.inl hf
    · exact Or.inr ⟨htail y hw, hreach⟩

theorem searched (h : Searching successors items unvisited [] finished) :
    Searched successors items finished := by
  refine ⟨?_, h.closing⟩
  intro x hx
  rcases h.covered x hx with hu | hf | hw
  · exact absurd (h.awaited x hu) List.not_mem_nil
  · exact hf
  · exact absurd hw List.not_mem_nil

/-- Where an item is left, after a visit to `x` was put in front of the work. -/
theorem leave_of_append {xs : List α} {x p : α} {work a b : List (Step α)}
    (h : xs.map .enter ++ .leave x :: work = a ++ .leave p :: b) :
    (p = x ∧ a = xs.map .enter ∧ b = work) ∨
      exists d, a = xs.map .enter ++ .leave x :: d ∧ work = d ++ .leave p :: b := by
  rcases List.append_eq_append_iff.mp h with ⟨c, rfl, hrest⟩ | ⟨c, henters, hrest⟩
  · rcases List.cons_eq_append_iff.mp hrest with ⟨rfl, hcons⟩ | ⟨d, rfl, hwork⟩
    · cases hcons
      exact Or.inl ⟨rfl, List.append_nil _, rfl⟩
    · exact Or.inr ⟨d, rfl, hwork⟩
  · cases c with
    | nil =>
        cases hrest
        rw [List.append_nil] at henters
        exact Or.inl ⟨rfl, henters.symm, rfl⟩
    | cons d c =>
        cases hrest
        have hmem : Step.leave p ∈ xs.map Step.enter := by
          rw [henters]
          simp
        exact absurd hmem not_leave_mem_enters

variable [DecidableEq α]

theorem visit (h : Searching successors items unvisited (.enter x :: work) finished)
    (hx : x ∈ unvisited) :
    Searching successors items (unvisited.erase x)
      ((successors x).map .enter ++ .leave x :: work) finished := by
  have honce := List.pairwise_cons.mp h.once
  have hchained := List.pairwise_cons.mp h.chained
  have herase : forall y, y ∈ unvisited.erase x ↔ y ≠ x ∧ y ∈ unvisited :=
    fun y => h.nodup.mem_erase_iff
  have hclosed : Step.leave x ∉ work := by
    intro hw
    exact (h.fresh x (List.mem_cons_of_mem _ hw)).right hx
  have hfinished : x ∉ finished := fun hf => h.apart x hf hx
  have hkept : forall step, step ∈ work ->
      step ∈ (successors x).map .enter ++ .leave x :: work := by
    intro step hw
    exact List.mem_append_right _ (List.mem_cons_of_mem _ hw)
  have htail : forall p, Step.leave p ∈ .enter x :: work -> Step.leave p ∈ work := by
    intro p hp
    rcases List.mem_cons.mp hp with heq | hp
    · cases heq
    · exact hp
  refine ⟨h.nodup.erase x, ?_, ?_, ?_, ?_, ?_, ?_, ?_, ?_, h.closing⟩
  · intro y hy
    have hne := (herase y).mp hy
    rcases List.mem_cons.mp (h.awaited y hne.right) with heq | hw
    · cases heq
      exact absurd rfl hne.left
    · exact hkept _ hw
  · intro y hy
    rcases h.covered y hy with hu | hf | hw
    · by_cases hyx : y = x
      · subst hyx
        exact Or.inr (Or.inr (by simp))
      · exact Or.inl ((herase y).mpr ⟨hyx, hu⟩)
    · exact Or.inr (Or.inl hf)
    · exact Or.inr (Or.inr (hkept _ (htail y hw)))
  · rw [List.pairwise_append, List.pairwise_cons]
    refine ⟨pairwise_enters _ (fun y z p hp => by cases hp), ⟨?_, honce.right⟩, ?_⟩
    · intro b hb p hp heq
      cases hp
      exact hclosed (heq ▸ hb)
    · intro a ha b _ p hp
      exact absurd (hp ▸ ha) not_leave_mem_enters
  · rw [List.pairwise_append, List.pairwise_cons]
    refine ⟨pairwise_enters _ fun y z => above_enter _ z, ⟨?_, hchained.right⟩, ?_⟩
    · intro b hb p hp
      exact hchained.left b hb p hp
    · intro a ha b hb p hp
      rcases List.mem_map.mp ha with ⟨y, hy, rfl⟩
      rcases List.mem_cons.mp hb with rfl | hb
      · cases hp
        exact Relation.ReflTransGen.single hy
      · exact (hchained.left b hb p hp).tail hy
  · intro a p b hsplit y hy
    rcases leave_of_append hsplit with ⟨rfl, rfl, rfl⟩ | ⟨d, rfl, hwork⟩
    · exact Or.inr (List.mem_map_of_mem hy)
    · rcases h.supplied (.enter x :: d) p b (by rw [hwork]; rfl) y hy with hu | ha
      · exact Or.inl fun he => hu ((herase y).mp he).right
      · rcases List.mem_cons.mp ha with heq | ha
        · cases heq
          exact Or.inl fun he => ((herase _).mp he).left rfl
        · exact Or.inr (List.mem_append_right _ (List.mem_cons_of_mem _ ha))
  · intro p hp
    rcases List.mem_append.mp hp with hp | hp
    · exact absurd hp not_leave_mem_enters
    · rcases List.mem_cons.mp hp with heq | hp
      · cases heq
        exact ⟨hfinished, fun he => ((herase x).mp he).left rfl⟩
      · have hold := h.fresh p (List.mem_cons_of_mem _ hp)
        exact ⟨hold.left, fun he => hold.right ((herase p).mp he).right⟩
  · intro p hp he
    exact h.apart p hp ((herase p).mp he).right
  · intro p hp y hy
    rcases h.closed p hp y hy with hf | ⟨hw, hreach⟩
    · exact Or.inl hf
    · exact Or.inr ⟨hkept _ (htail y hw), hreach⟩

end Searching

variable [DecidableEq α]

/-- The induction follows the steps of the search. -/
theorem search_searched (hitems : forall x y, y ∈ successors x -> y ∈ items)
    (unvisited : List α) (work : List (Step α)) (finished : List α)
    (h : Searching successors items unvisited work finished) :
    Searched successors items (search successors unvisited work finished) := by
  induction unvisited, work, finished using search.induct successors with
  | case1 unvisited finished =>
      rw [search]
      exact h.searched
  | case2 unvisited x work finished ih =>
      rw [search]
      exact ih (h.leave (hitems x))
  | case3 unvisited x work finished hx ih =>
      rw [search, if_pos hx]
      exact ih (h.visit hx)
  | case4 unvisited x work finished hx ih =>
      rw [search, if_neg hx]
      exact ih (h.skip hx)

theorem finishOrder_searched (hnodup : items.Nodup)
    (hitems : forall x y, y ∈ successors x -> y ∈ items) :
    Searched successors items (finishOrder successors items) :=
  search_searched hitems items _ [] (searching_start hnodup)

/-!
## Backward edges
-/

theorem onCycle_of_backwardSource? {order : List α} {p : α}
    (hclosing : order.Pairwise (fun x p => x ∈ successors p ->
      Relation.ReflTransGen (LeadsTo successors) x p))
    (h : backwardSource? successors items order = some p) : OnCycle successors p := by
  induction order with
  | nil => cases h
  | cons x later ih =>
      rw [List.pairwise_cons] at hclosing
      rw [backwardSource?] at h
      cases hfind : items.find? (fun p => p ∈ later && x ∈ successors p) with
      | none =>
          rw [hfind] at h
          exact ih hclosing.right h
      | some q =>
          rw [hfind] at h
          cases h
          have hq := List.find?_some hfind
          rw [Bool.and_eq_true, decide_eq_true_iff, decide_eq_true_iff] at hq
          have hback := hclosing.left p hq.left hq.right
          exact Relation.TransGen.head' hq.right hback

theorem pairwise_of_backwardSource? {order : List α}
    (hsources : forall x y, y ∈ successors x -> x ∈ items)
    (h : backwardSource? successors items order = none) :
    order.Pairwise (fun x p => x ∉ successors p) := by
  induction order with
  | nil => exact List.Pairwise.nil
  | cons x later ih =>
      rw [backwardSource?] at h
      cases hfind : items.find? (fun p => p ∈ later && x ∈ successors p) with
      | some q =>
          rw [hfind] at h
          cases h
      | none =>
          rw [hfind] at h
          rw [List.pairwise_cons]
          refine ⟨?_, ih h⟩
          intro p hp hedge
          rw [List.find?_eq_none] at hfind
          refine hfind p (hsources p x hedge) ?_
          rw [Bool.and_eq_true, decide_eq_true_iff, decide_eq_true_iff]
          exact ⟨hp, hedge⟩

theorem not_onCycle_of_pairwise {order : List α}
    (hcomplete : forall x y, y ∈ successors x -> x ∈ order ∧ y ∈ order)
    (hself : forall x, x ∉ successors x)
    (h : order.Pairwise (fun x p => x ∉ successors p)) (x : α) : ¬OnCycle successors x := by
  have hstep : forall u v, LeadsTo successors u v -> order.idxOf u < order.idxOf v := by
    intro u v huv
    rcases hcomplete u v huv with ⟨hu, hv⟩
    have hne : order.idxOf u ≠ order.idxOf v := by
      intro heq
      rw [List.idxOf_inj hu] at heq
      subst heq
      exact hself u huv
    refine Nat.lt_of_le_of_ne (Nat.not_lt.mp ?_) hne
    intro hlt
    have hback := List.pairwise_iff_getElem.mp h _ _ (List.idxOf_lt_length_of_mem hv)
      (List.idxOf_lt_length_of_mem hu) hlt
    rw [List.getElem_idxOf, List.getElem_idxOf] at hback
    exact hback huv
  have hpath : forall v, Relation.TransGen (LeadsTo successors) x v ->
      order.idxOf x < order.idxOf v := by
    intro v hv
    induction hv with
    | single huv => exact hstep x _ huv
    | tail _ huv ih => exact Nat.lt_trans ih (hstep _ _ huv)
  intro hcycle
  exact Nat.lt_irrefl _ (hpath x hcycle)

/-!
## The search
-/

theorem onCycle_of_find? (hnodup : items.Nodup)
    (hitems : forall x y, y ∈ successors x -> y ∈ items) {p : α}
    (h : find? successors items = some p) : OnCycle successors p :=
  onCycle_of_backwardSource? (finishOrder_searched hnodup hitems).closing h

theorem find?_eq_none_iff (hnodup : items.Nodup)
    (hitems : forall x y, y ∈ successors x -> x ∈ items ∧ y ∈ items)
    (hself : forall x, x ∉ successors x) :
    find? successors items = none ↔ forall x, ¬OnCycle successors x := by
  have hsearched := finishOrder_searched hnodup fun x y hxy => (hitems x y hxy).right
  constructor
  · intro hnone
    have hforward := pairwise_of_backwardSource? (fun x y hxy => (hitems x y hxy).left) hnone
    refine not_onCycle_of_pairwise ?_ hself hforward
    intro x y hxy
    rcases hitems x y hxy with ⟨hx, hy⟩
    exact ⟨hsearched.complete x hx, hsearched.complete y hy⟩
  · intro hacyclic
    cases hfind : find? successors items with
    | none => rfl
    | some p =>
        have hcycle := onCycle_of_find? hnodup (fun x y hxy => (hitems x y hxy).right) hfind
        exact absurd hcycle (hacyclic p)

end Search

end Cycle
end LaunchGraph
