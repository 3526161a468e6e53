import LaunchGraph.Proofs.Reachability

/-!
# Contraction is exact

Items that are merged lead to one another from then on.  However many pairs have been
merged, the rows hold exactly what can be reached along the successors and between
merged items.  So neither the order of the merges matters, nor how often a pair is
merged.
-/

namespace LaunchGraph
namespace Reachability

variable {r : Reachability} {n : Nat} {R : Nat -> Nat -> Prop}

/-- The relation `R`, with the two items of every pair leading to one another. -/
def Joined (R : Nat -> Nat -> Prop) (pairs : List (Nat × Nat)) (x y : Nat) : Prop :=
  R x y ∨ (x, y) ∈ pairs ∨ (y, x) ∈ pairs

theorem joined_append (pairs more : List (Nat × Nat)) (x y : Nat) :
    Joined R (pairs ++ more) x y ↔ Joined (Joined R pairs) more x y := by
  unfold Joined
  simp only [List.mem_append]
  constructor
  · rintro (h | (h | h) | h | h)
    · exact Or.inl (Or.inl h)
    · exact Or.inl (Or.inr (Or.inl h))
    · exact Or.inr (Or.inl h)
    · exact Or.inl (Or.inr (Or.inr h))
    · exact Or.inr (Or.inr h)
  · rintro ((h | h | h) | h | h)
    · exact Or.inl h
    · exact Or.inr (Or.inl (Or.inl h))
    · exact Or.inr (Or.inr (Or.inl h))
    · exact Or.inr (Or.inl (Or.inr h))
    · exact Or.inr (Or.inr (Or.inr h))

theorem joined_lt {pairs : List (Nat × Nat)} (hR : forall x y, R x y -> y < n)
    (hpairs : forall p, p ∈ pairs -> p.1 < n ∧ p.2 < n) {x y : Nat} (h : Joined R pairs x y) :
    y < n := by
  rcases h with h | h | h
  · exact hR x y h
  · exact (hpairs _ h).right
  · exact (hpairs _ h).left

namespace Exact

theorem unique {r' : Reachability} (h : r.Exact n R) (h' : r'.Exact n R) : r = r' := by
  have hreaches : forall x y, r.reaches x y = true ↔ r'.reaches x y = true := by
    intro x y
    rw [h.reaches_iff, h'.reaches_iff]
  have hrows : forall {l m : List IndexSet}, l.length = m.length ->
      (forall x y, y ∈ row l x ↔ y ∈ row m x) -> l = m := by
    intro l m hlength hmem
    refine List.ext_getElem hlength ?_
    intro x hl hm
    refine IndexSet.eq_of_mem_iff fun y => ?_
    rw [← row_of_lt hl, ← row_of_lt hm]
    exact hmem x y
  have hdescendants : r.descendants = r'.descendants := by
    refine hrows (h.length_descendants.trans h'.length_descendants.symm) fun x y => ?_
    rw [← Reachability.reaches_iff, ← Reachability.reaches_iff]
    exact hreaches x y
  have hancestors : r.ancestors = r'.ancestors := by
    refine hrows (h.length_ancestors.trans h'.length_ancestors.symm) fun x y => ?_
    rw [h.mirrored, h'.mirrored]
    exact hreaches y x
  cases r
  cases r'
  exact congrArg₂ Reachability.mk hdescendants hancestors

theorem merge (h : r.Exact n R) (hR : forall x y, R x y -> y < n) {a b : Nat} (ha : a < n)
    (hb : b < n) : (r.merge a b).Exact n (Joined R [(a, b)]) := by
  have hclosed := h.closed hR
  have hmerged := hclosed.merge a b
  have hold : forall x y, r.reaches x y = true -> (r.merge a b).reaches x y = true := by
    intro x y hxy
    exact (hclosed.reaches_merge a b x y).mpr (Or.inl hxy)
  have hab : (r.merge a b).reaches a b = true :=
    (hclosed.reaches_merge a b a b).mpr
      (Or.inr ⟨Or.inl (hclosed.refl a ha), Or.inr (hclosed.refl b hb)⟩)
  have hba : (r.merge a b).reaches b a = true :=
    (hclosed.reaches_merge a b b a).mpr
      (Or.inr ⟨Or.inr (hclosed.refl b hb), Or.inl (hclosed.refl a ha)⟩)
  have hsteps : forall x y, r.reaches x y = true ->
      Relation.ReflTransGen (Joined R [(a, b)]) x y := by
    intro x y hxy
    have hmono : R ≤ Joined R [(a, b)] := fun u v huv => Or.inl huv
    exact Relation.ReflTransGen.mono hmono x y ((h.reaches_iff x y).mp hxy).right
  have hacross : Relation.ReflTransGen (Joined R [(a, b)]) a b :=
    .single (Or.inr (Or.inl (List.mem_singleton.mpr rfl)))
  have hback : Relation.ReflTransGen (Joined R [(a, b)]) b a :=
    .single (Or.inr (Or.inr (List.mem_singleton.mpr rfl)))
  refine ⟨hmerged.length_descendants, hmerged.length_ancestors, ?_, hmerged.mirrored⟩
  intro x y
  constructor
  · intro hxy
    refine ⟨(hmerged.bounded x y hxy).left, ?_⟩
    rcases (hclosed.reaches_merge a b x y).mp hxy with hxy | ⟨hx | hx, hy | hy⟩
    · exact hsteps x y hxy
    · exact (hsteps x a hx).trans (hsteps a y hy)
    · exact ((hsteps x a hx).trans hacross).trans (hsteps b y hy)
    · exact ((hsteps x b hx).trans hback).trans (hsteps a y hy)
    · exact (hsteps x b hx).trans (hsteps b y hy)
  · rintro ⟨hx, hpath⟩
    induction hpath with
    | refl => exact hmerged.refl x hx
    | tail _ hstep ih =>
        refine hmerged.trans _ _ _ ih ?_
        rcases hstep with hstep | hstep | hstep
        · have hy := (hmerged.bounded _ _ ih).right
          exact hold _ _ ((h.reaches_iff _ _).mpr ⟨hy, .single hstep⟩)
        · cases List.mem_singleton.mp hstep
          exact hab
        · cases List.mem_singleton.mp hstep
          exact hba

/-- Any number of merges goes through, and adds the steps between all merged items. -/
theorem contractAll (h : r.Exact n R) (hR : forall x y, R x y -> y < n)
    {pairs : List (Nat × Nat)} (hpairs : forall p, p ∈ pairs -> p.1 < n ∧ p.2 < n) :
    exists r', pairs.foldlM (fun r p => r.contract p.1 p.2) r = .ok r' ∧
      r'.Exact n (Joined R pairs) := by
  refine foldlM_ok_of_step (fun done (r' : Reachability) => r'.Exact n (Joined R done)) ?_ ?_
  · rintro done ⟨a, b⟩ rest r1 hsplit h1
    have hdone : forall p, p ∈ done -> p.1 < n ∧ p.2 < n :=
      fun p hp => hpairs p (by simp [hsplit, hp])
    have hab := hpairs (a, b) (by simp [hsplit])
    refine ⟨r1.merge a b, ?_, ?_⟩
    · rw [contract, size, h1.length_descendants, if_pos hab]
      rfl
    · refine (h1.merge (fun x y => joined_lt hR hdone) hab.left hab.right).congr ?_
      intro x y
      exact (joined_append done [(a, b)] x y).symm
  · refine h.congr fun x y => ?_
    simp [Joined]

end Exact

/-- The rows of successors and merged pairs can be computed.  An item is in the row of
descendants of another one exactly if it can be reached from that one along the
successors and between merged items; the rows of ancestors say the same from the other
end.  The same pairs give the same rows, in whatever order and however often. -/
theorem contraction_exact {successors : List (List Nat)} {pairs : List (Nat × Nat)}
    (hforward : forall i next, successors[i]? = some next -> forall s, s ∈ next ->
      i < s ∧ s < successors.length)
    (hpairs : forall p, p ∈ pairs -> p.1 < successors.length ∧ p.2 < successors.length) :
    exists r, (ofSuccessors successors >>= pairs.foldlM fun r p => r.contract p.1 p.2) = .ok r ∧
      r.descendants.length = successors.length ∧ r.ancestors.length = successors.length ∧
      (forall i j, i < successors.length -> (j ∈ row r.descendants i ↔
        Relation.ReflTransGen (Joined (SuccessorOf successors) pairs) i j)) ∧
      (forall i j, i ∈ row r.ancestors j ↔ j ∈ row r.descendants i) ∧
      (forall pairs' : List (Nat × Nat), (forall p, p ∈ pairs' ↔ p ∈ pairs) ->
        (ofSuccessors successors >>= pairs'.foldlM fun r p => r.contract p.1 p.2) = .ok r) := by
  have hsuccessor : forall x s, SuccessorOf successors x s -> x < s ∧ s < successors.length := by
    rintro x s ⟨next, hx, hs⟩
    exact hforward x next hx s hs
  have hbound : forall x s, SuccessorOf successors x s -> s < successors.length :=
    fun x s h => (hsuccessor x s h).right
  rcases ofSuccessors_exact hsuccessor with ⟨r0, hr0, h0⟩
  rcases h0.contractAll hbound hpairs with ⟨r, hr, h⟩
  refine ⟨r, by rw [hr0, ok_bind, hr], h.length_descendants, h.length_ancestors, ?_, ?_, ?_⟩
  · intro i j hi
    rw [← reaches_iff, h.reaches_iff]
    exact and_iff_right hi
  · intro i j
    rw [h.mirrored, reaches_iff]
  · intro pairs' hsame
    rcases h0.contractAll hbound (fun p hp => hpairs p ((hsame p).mp hp)) with ⟨r', hr', h'⟩
    have hjoined : r'.Exact successors.length (Joined (SuccessorOf successors) pairs) := by
      refine h'.congr fun x y => ?_
      unfold Joined
      rw [hsame, hsame]
    rw [hr0, ok_bind, hr', h.unique hjoined]

/-- In a diamond, the tip is merged with an item beside it, then with the start. -/
theorem contraction_exact_diamond :
    exists r, (ofSuccessors [[1, 2], [3], [3], [], []] >>=
        [(3, 4), (0, 3), (3, 4)].foldlM fun r p => r.contract p.1 p.2) = .ok r ∧
      (2 ∈ row r.descendants 4 ↔ Relation.ReflTransGen
        (Joined (SuccessorOf [[1, 2], [3], [3], [], []]) [(3, 4), (0, 3), (3, 4)]) 4 2) ∧
      2 ∈ row r.descendants 4 ∧
      (ofSuccessors [[1, 2], [3], [3], [], []] >>=
        [(0, 3), (3, 4)].foldlM fun r p => r.contract p.1 p.2) = .ok r := by
  have hforward : forall i next, [[1, 2], [3], [3], [], []][i]? = some next ->
      forall s, s ∈ next -> i < s ∧ s < [[1, 2], [3], [3], [], []].length := by
    intro i next h
    rcases List.getElem?_eq_some_iff.mp h with ⟨hi, rfl⟩
    have hall : forall i : Fin 5, forall s, s ∈ [[1, 2], [3], [3], [], []][i] ->
        i.val < s ∧ s < 5 := by decide
    exact hall ⟨i, hi⟩
  have hpairs : forall p : Nat × Nat, p ∈ [(3, 4), (0, 3), (3, 4)] ->
      p.1 < [[1, 2], [3], [3], [], []].length ∧ p.2 < [[1, 2], [3], [3], [], []].length := by
    decide
  rcases contraction_exact hforward hpairs with ⟨r, hr, _, _, hrows, _, hsame⟩
  have hvalue : (ofSuccessors [[1, 2], [3], [3], [], []] >>=
      [(3, 4), (0, 3), (3, 4)].foldlM fun r p => r.contract p.1 p.2).map
        (fun r => decide (2 ∈ row r.descendants 4)) = .ok true := by decide
  rw [hr] at hvalue
  refine ⟨r, hr, hrows 4 2 (by decide), of_decide_eq_true (Except.ok.inj hvalue), hsame _ ?_⟩
  intro p
  simp only [List.mem_cons, List.not_mem_nil, or_false]
  grind

end Reachability
end LaunchGraph
