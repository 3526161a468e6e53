import LaunchGraph.Reachability
import LaunchGraph.Proofs.Loops
import Mathlib.Logic.Relation

/-!
# Reachability is closed

The rows that are kept for some items describe a reflexive and transitive relation
on them.  They do so when they are computed from forward edges, where they describe
just what a number of steps can reach.  Merging two items keeps it that way: what is
reached newly goes through one of the merged items.
-/

namespace LaunchGraph
namespace Reachability

/-- The rows speak of the items below `n`, and the relation that they describe is
reflexive and transitive. -/
structure Closed (r : Reachability) (n : Nat) : Prop where
  length_descendants : r.descendants.length = n
  length_ancestors : r.ancestors.length = n
  bounded : forall x y, r.reaches x y = true -> x < n ∧ y < n
  refl : forall x, x < n -> r.reaches x x = true
  trans : forall x y z, r.reaches x y = true -> r.reaches y z = true -> r.reaches x z = true
  mirrored : forall x y, x ∈ row r.ancestors y ↔ r.reaches x y = true

/-- The rows describe what is reached from the items below `n` along `R`, in any
number of steps. -/
structure Exact (r : Reachability) (n : Nat) (R : Nat -> Nat -> Prop) : Prop where
  length_descendants : r.descendants.length = n
  length_ancestors : r.ancestors.length = n
  reaches_iff : forall x y, r.reaches x y = true ↔ x < n ∧ Relation.ReflTransGen R x y
  mirrored : forall x y, x ∈ row r.ancestors y ↔ r.reaches x y = true

theorem lt_of_reflTransGen {R : Nat -> Nat -> Prop} {n x y : Nat}
    (hR : forall u v, R u v -> v < n) (hx : x < n) (h : Relation.ReflTransGen R x y) : y < n := by
  cases h with
  | refl => exact hx
  | tail _ hstep => exact hR _ _ hstep

theorem Exact.congr {r : Reachability} {n : Nat} {R S : Nat -> Nat -> Prop} (h : r.Exact n R)
    (hRS : forall x y, R x y ↔ S x y) : r.Exact n S := by
  have hrel : R = S := funext fun x => funext fun y => propext (hRS x y)
  rw [← hrel]
  exact h

theorem Exact.closed {r : Reachability} {n : Nat} {R : Nat -> Nat -> Prop} (h : r.Exact n R)
    (hR : forall x y, R x y -> y < n) : r.Closed n := by
  refine ⟨h.length_descendants, h.length_ancestors, ?_, ?_, ?_, h.mirrored⟩
  · intro x y hxy
    rcases (h.reaches_iff x y).mp hxy with ⟨hx, hsteps⟩
    exact ⟨hx, lt_of_reflTransGen hR hx hsteps⟩
  · intro x hx
    exact (h.reaches_iff x x).mpr ⟨hx, .refl⟩
  · intro x y z hxy hyz
    rcases (h.reaches_iff x y).mp hxy with ⟨hx, hsteps⟩
    exact (h.reaches_iff x z).mpr ⟨hx, hsteps.trans ((h.reaches_iff y z).mp hyz).right⟩

theorem reaches_iff {r : Reachability} {x y : Nat} :
    r.reaches x y = true ↔ y ∈ row r.descendants x :=
  decide_eq_true_iff

/-!
## Rows
-/

theorem row_of_lt {rows : List IndexSet} {i : Nat} (h : i < rows.length) : row rows i = rows[i] := by
  rw [row, List.getElem?_eq_getElem h, Option.getD_some]

theorem not_mem_row {rows : List IndexSet} {i j : Nat} (h : rows.length ≤ i) : j ∉ row rows i := by
  rw [row, List.getElem?_eq_none h, Option.getD_none]
  exact IndexSet.not_mem_empty j

theorem row_cons_zero (r : IndexSet) (rows : List IndexSet) : row (r :: rows) 0 = r := rfl

theorem row_cons_succ (r : IndexSet) (rows : List IndexSet) (i : Nat) :
    row (r :: rows) (i + 1) = row rows i := rfl

theorem mem_row_widen {rows : List IndexSet} {items extra : IndexSet} {i j : Nat}
    (hitems : forall k, k ∈ items -> k < rows.length) :
    j ∈ row (widen rows items extra) i ↔ j ∈ row rows i ∨ (i ∈ items ∧ j ∈ extra) := by
  have hlength : (widen rows items extra).length = rows.length := List.length_mapIdx
  by_cases hi : i < rows.length
  · have hget : (widen rows items extra)[i]? =
        some (if i ∈ items then rows[i] ∪ extra else rows[i]) := by
      rw [widen, List.getElem?_mapIdx, List.getElem?_eq_getElem hi, Option.map_some]
    rw [row, hget, Option.getD_some, row_of_lt hi]
    by_cases hmem : i ∈ items
    · rw [if_pos hmem, IndexSet.mem_union]
      simp [hmem]
    · rw [if_neg hmem]
      simp [hmem]
  · have hle := Nat.le_of_not_lt hi
    constructor
    · intro hj
      exact absurd hj (not_mem_row (hlength.symm ▸ hle))
    · rintro (hj | ⟨hmem, _⟩)
      · exact absurd hj (not_mem_row hle)
      · exact absurd (hitems i hmem) hi

/-!
## Merging
-/

namespace Closed

variable {r : Reachability} {n : Nat}

theorem reaches_merge (h : r.Closed n) (a b x y : Nat) :
    (r.merge a b).reaches x y = true ↔ r.reaches x y = true ∨
      ((r.reaches x a = true ∨ r.reaches x b = true) ∧
        (r.reaches a y = true ∨ r.reaches b y = true)) := by
  rw [reaches_iff, merge]
  have hitems : forall k, k ∈ row r.ancestors a ∪ row r.ancestors b -> k < r.descendants.length := by
    intro k hk
    rw [h.length_descendants]
    rw [IndexSet.mem_union, h.mirrored, h.mirrored] at hk
    rcases hk with hk | hk
    · exact (h.bounded k a hk).left
    · exact (h.bounded k b hk).left
  rw [mem_row_widen hitems, IndexSet.mem_union, IndexSet.mem_union, h.mirrored, h.mirrored,
    ← reaches_iff, ← reaches_iff, ← reaches_iff]

theorem reachedBy_merge (h : r.Closed n) (a b x y : Nat) :
    x ∈ row (r.merge a b).ancestors y ↔ r.reaches x y = true ∨
      ((r.reaches x a = true ∨ r.reaches x b = true) ∧
        (r.reaches a y = true ∨ r.reaches b y = true)) := by
  rw [merge]
  have hitems : forall k, k ∈ row r.descendants a ∪ row r.descendants b ->
      k < r.ancestors.length := by
    intro k hk
    rw [h.length_ancestors]
    rw [IndexSet.mem_union, ← reaches_iff, ← reaches_iff] at hk
    rcases hk with hk | hk
    · exact (h.bounded a k hk).right
    · exact (h.bounded b k hk).right
  rw [mem_row_widen hitems, IndexSet.mem_union, IndexSet.mem_union, h.mirrored, h.mirrored,
    h.mirrored, ← reaches_iff, ← reaches_iff]
  exact or_congr Iff.rfl and_comm

theorem merge (h : r.Closed n) (a b : Nat) : (r.merge a b).Closed n := by
  constructor
  · exact List.length_mapIdx.trans h.length_descendants
  · exact List.length_mapIdx.trans h.length_ancestors
  · intro x y hxy
    rcases (h.reaches_merge a b x y).mp hxy with hold | ⟨hx, hy⟩
    · exact h.bounded x y hold
    · refine ⟨?_, ?_⟩
      · rcases hx with hx | hx
        · exact (h.bounded x a hx).left
        · exact (h.bounded x b hx).left
      · rcases hy with hy | hy
        · exact (h.bounded a y hy).right
        · exact (h.bounded b y hy).right
  · intro x hx
    exact (h.reaches_merge a b x x).mpr (Or.inl (h.refl x hx))
  · intro x y z hxy hyz
    rw [h.reaches_merge] at hxy hyz ⊢
    rcases hxy with hxy | ⟨hx, hy⟩
    · rcases hyz with hyz | ⟨hy, hz⟩
      · exact Or.inl (h.trans x y z hxy hyz)
      · exact Or.inr ⟨hy.imp (h.trans x y a hxy) (h.trans x y b hxy), hz⟩
    · rcases hyz with hyz | ⟨_, hz⟩
      · exact Or.inr ⟨hx, hy.imp (h.trans a y z · hyz) (h.trans b y z · hyz)⟩
      · exact Or.inr ⟨hx, hz⟩
  · intro x y
    rw [h.reachedBy_merge, h.reaches_merge]

end Closed

/-!
## Rows from successors
-/

theorem foldlM_joinSuccessor_ok {i : Nat} {later : List IndexSet} {next : List Nat}
    (hnext : forall s, s ∈ next -> i < s ∧ s - i - 1 < later.length) :
    exists acc, next.foldlM (joinSuccessor i later) (.single i) = .ok acc ∧
      forall y, y ∈ acc ↔ y = i ∨ exists s, s ∈ next ∧ y ∈ row later (s - i - 1) := by
  refine foldlM_ok_of_step (fun done acc => forall y, y ∈ acc ↔
    y = i ∨ exists s, s ∈ done ∧ y ∈ row later (s - i - 1)) ?_ ?_
  · intro done s rest acc hsplit hacc
    rcases hnext s (by simp [hsplit]) with ⟨hlt, hbound⟩
    refine ⟨acc ∪ row later (s - i - 1), ?_, ?_⟩
    · rw [joinSuccessor, if_neg (Nat.not_le_of_lt hlt), List.getElem?_eq_getElem hbound,
        row_of_lt hbound]
      rfl
    · intro y
      rw [IndexSet.mem_union, hacc]
      simp only [List.mem_append, List.mem_singleton]
      grind
  · intro y
    simp

/-- The rows of the items from `i` on: every item reaches itself and whatever its
successors reach. -/
theorem rowsFrom_ok {i : Nat} {successors : List (List Nat)}
    (hforward : forall k next, successors[k]? = some next -> forall s, s ∈ next ->
      i + k < s ∧ s < i + successors.length) :
    exists rows, rowsFrom i successors = .ok rows ∧ rows.length = successors.length ∧
      forall k next, successors[k]? = some next -> forall y, y ∈ row rows k ↔
        y = i + k ∨ exists s, s ∈ next ∧ y ∈ row rows (s - i) := by
  induction successors generalizing i with
  | nil => exact ⟨[], rfl, rfl, fun k next h => by simp at h⟩
  | cons next rest ih =>
      have hrest : forall k next, rest[k]? = some next -> forall s, s ∈ next ->
          i + 1 + k < s ∧ s < i + 1 + rest.length := by
        intro k nextk hk s hs
        have hbound := hforward (k + 1) nextk (by simpa using hk) s hs
        rw [List.length_cons] at hbound
        omega
      rcases ih hrest with ⟨later, hlater, hlength, hrows⟩
      have hnext : forall s, s ∈ next -> i < s ∧ s - i - 1 < later.length := by
        intro s hs
        have hbound := hforward 0 next rfl s hs
        rw [List.length_cons] at hbound
        omega
      rcases foldlM_joinSuccessor_ok hnext with ⟨acc, hacc, hmem⟩
      have hshift : forall s, i < s -> row (acc :: later) (s - i) = row later (s - i - 1) := by
        intro s hs
        rw [show s - i = s - i - 1 + 1 from by omega, row_cons_succ]
        rfl
      refine ⟨acc :: later, ?_, by rw [List.length_cons, List.length_cons, hlength], ?_⟩
      · rw [rowsFrom, hlater, ok_bind, hacc]
        rfl
      · intro k nextk hk y
        cases k with
        | zero =>
            rw [List.getElem?_cons_zero, Option.some.injEq] at hk
            subst hk
            rw [row_cons_zero, hmem, Nat.add_zero]
            refine or_congr Iff.rfl (exists_congr fun s => and_congr_right fun hs => ?_)
            rw [hshift s (hnext s hs).left]
        | succ k =>
            rw [List.getElem?_cons_succ] at hk
            rw [row_cons_succ, hrows k nextk hk, show i + 1 + k = i + (k + 1) from by omega]
            refine or_congr Iff.rfl (exists_congr fun s => and_congr_right fun hs => ?_)
            have hlt := (hrest k nextk hk s hs).left
            rw [hshift s (by omega), show s - (i + 1) = s - i - 1 from by omega]

theorem mem_row_transpose {rows : List IndexSet} {i j : Nat} (hj : j < rows.length) :
    i ∈ row (transpose rows) j ↔ j ∈ row rows i := by
  have hlength : j < (transpose rows).length := by
    simpa [transpose] using hj
  have hget : (transpose rows)[j] =
      .ofList ((List.range rows.length).filter fun i => j ∈ row rows i) := by
    simp [transpose]
  rw [row_of_lt hlength, hget, IndexSet.mem_ofList, List.mem_filter, List.mem_range,
    decide_eq_true_iff]
  constructor
  · exact And.right
  · intro h
    refine ⟨Nat.lt_of_not_le fun hle => ?_, h⟩
    exact not_mem_row hle h

def SuccessorOf (successors : List (List Nat)) (x s : Nat) : Prop :=
  exists next, successors[x]? = some next ∧ s ∈ next

theorem mem_row_iff_steps {successors : List (List Nat)} {rows : List IndexSet}
    (hforward : forall x s, SuccessorOf successors x s -> x < s ∧ s < successors.length)
    (hrows : forall k next, successors[k]? = some next -> forall y, y ∈ row rows k ↔
      y = k ∨ exists s, s ∈ next ∧ y ∈ row rows s) {x y : Nat} (hx : x < successors.length) :
    y ∈ row rows x ↔ Relation.ReflTransGen (SuccessorOf successors) x y := by
  -- Later items first: the rows of successors are known when a row is looked at.
  induction hd : successors.length - x using Nat.strongRecOn generalizing x with
  | ind d ih =>
      have hget := List.getElem?_eq_getElem hx
      have hlater : forall s, SuccessorOf successors x s ->
          (y ∈ row rows s ↔ Relation.ReflTransGen (SuccessorOf successors) s y) := by
        intro s hs
        have hbound := hforward x s hs
        exact ih (successors.length - s) (by omega) hbound.right rfl
      rw [hrows x _ hget, Relation.ReflTransGen.cases_head_iff]
      constructor
      · rintro (rfl | ⟨s, hs, hys⟩)
        · exact Or.inl rfl
        · exact Or.inr ⟨s, ⟨_, hget, hs⟩, (hlater s ⟨_, hget, hs⟩).mp hys⟩
      · rintro (rfl | ⟨s, hs, hsteps⟩)
        · exact Or.inl rfl
        · rcases hs with ⟨next, hnext, hmem⟩
          have hys := (hlater s ⟨next, hnext, hmem⟩).mpr hsteps
          rw [hget, Option.some.injEq] at hnext
          subst hnext
          exact Or.inr ⟨s, hmem, hys⟩

/-- Reachability along forward edges can be computed, and is exact. -/
theorem ofSuccessors_exact {successors : List (List Nat)}
    (hforward : forall x s, SuccessorOf successors x s -> x < s ∧ s < successors.length) :
    exists r, ofSuccessors successors = .ok r ∧
      r.Exact successors.length (SuccessorOf successors) := by
  have hbounds : forall k next, successors[k]? = some next -> forall s, s ∈ next ->
      0 + k < s ∧ s < 0 + successors.length := by
    intro k next hk s hs
    rw [Nat.zero_add, Nat.zero_add]
    exact hforward k s ⟨next, hk, hs⟩
  rcases rowsFrom_ok hbounds with ⟨rows, hrows, hlength, hmem⟩
  have hsteps : forall x y, x < successors.length ->
      (y ∈ row rows x ↔ Relation.ReflTransGen (SuccessorOf successors) x y) := by
    intro x y hx
    exact mem_row_iff_steps hforward (by simpa using hmem) hx
  have hrun : ofSuccessors successors = .ok ⟨rows, transpose rows⟩ := by
    rw [ofSuccessors, hrows]
    rfl
  have hreaches : forall x y, Reachability.reaches ⟨rows, transpose rows⟩ x y = true ↔
      x < successors.length ∧ Relation.ReflTransGen (SuccessorOf successors) x y := by
    intro x y
    rw [reaches_iff]
    constructor
    · intro hy
      have hx : x < successors.length := by
        rw [← hlength]
        exact Nat.lt_of_not_le fun hle => not_mem_row hle hy
      exact ⟨hx, (hsteps x y hx).mp hy⟩
    · rintro ⟨hx, hxy⟩
      exact (hsteps x y hx).mpr hxy
  refine ⟨_, hrun, hlength, by simpa [transpose] using hlength, hreaches, ?_⟩
  intro x y
  by_cases hy : y < rows.length
  · rw [reaches_iff]
    exact mem_row_transpose hy
  · have hle := Nat.le_of_not_lt hy
    constructor
    · intro hx
      refine absurd hx (not_mem_row ?_)
      simpa [transpose] using hle
    · intro hxy
      rcases (hreaches x y).mp hxy with ⟨hx, hpath⟩
      have hlt := lt_of_reflTransGen (fun u v huv => (hforward u v huv).right) hx hpath
      exact absurd (hlength ▸ hlt) hy

theorem le_of_steps {R : Nat -> Nat -> Prop} {x y : Nat} (hR : forall u v, R u v -> u < v)
    (h : Relation.ReflTransGen R x y) : x ≤ y := by
  induction h with
  | refl => exact Nat.le_refl _
  | tail _ hstep ih => exact Nat.le_trans ih (Nat.le_of_lt (hR _ _ hstep))

end Reachability
end LaunchGraph
