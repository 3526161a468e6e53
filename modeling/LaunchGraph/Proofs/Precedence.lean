import Mathlib.Data.List.Nodup

/-!
# Order inside a list

One item comes before another in a list if the two, in this order, form a
sublist.  In a list without repeats this is a strict order, and it is total on
the items of the list.
-/

namespace LaunchGraph

variable {α β : Type}

def ComesBefore (l : List α) (a b : α) : Prop := [a, b].Sublist l

namespace ComesBefore

theorem left_mem {l : List α} {a b : α} (h : ComesBefore l a b) : a ∈ l :=
  List.Sublist.subset h (List.mem_cons_self ..)

theorem right_mem {l : List α} {a b : α} (h : ComesBefore l a b) : b ∈ l :=
  List.Sublist.subset h (List.mem_cons_of_mem _ (List.mem_cons_self ..))

theorem of_sublist {l m : List α} {a b : α} (h : ComesBefore l a b) (hlm : l.Sublist m) :
    ComesBefore m a b :=
  List.Sublist.trans h hlm

theorem map {l : List α} {a b : α} (f : α -> β) (h : ComesBefore l a b) :
    ComesBefore (l.map f) (f a) (f b) :=
  List.Sublist.map f h

theorem cons_iff {l : List α} {a b c : α} :
    ComesBefore (c :: l) a b ↔ (a = c ∧ b ∈ l) ∨ ComesBefore l a b := by
  constructor
  · intro h
    cases h with
    | cons _ h => exact Or.inr h
    | cons_cons _ h => exact Or.inl ⟨rfl, List.singleton_sublist.mp h⟩
  · rintro (⟨rfl, hb⟩ | h)
    · exact List.Sublist.cons_cons _ (List.singleton_sublist.mpr hb)
    · exact List.Sublist.cons _ h

theorem append_iff {l m : List α} {a b : α} :
    ComesBefore (l ++ m) a b ↔
      ComesBefore l a b ∨ (a ∈ l ∧ b ∈ m) ∨ ComesBefore m a b := by
  induction l with
  | nil => simp [ComesBefore]
  | cons c l ih =>
      rw [List.cons_append, cons_iff, ih, cons_iff, List.mem_append, List.mem_cons]
      constructor
      · rintro (⟨hc, hb | hb⟩ | h | ⟨ha, hb⟩ | h)
        · exact Or.inl (Or.inl ⟨hc, hb⟩)
        · exact Or.inr (Or.inl ⟨Or.inl hc, hb⟩)
        · exact Or.inl (Or.inr h)
        · exact Or.inr (Or.inl ⟨Or.inr ha, hb⟩)
        · exact Or.inr (Or.inr h)
      · rintro ((⟨hc, hb⟩ | h) | ⟨hc | ha, hb⟩ | h)
        · exact Or.inl ⟨hc, Or.inl hb⟩
        · exact Or.inr (Or.inl h)
        · exact Or.inl ⟨hc, Or.inr hb⟩
        · exact Or.inr (Or.inr (Or.inl ⟨ha, hb⟩))
        · exact Or.inr (Or.inr (Or.inr h))

theorem remove_middle {l m : List α} {a b c : α} (h : ComesBefore (l ++ c :: m) a b)
    (ha : a ≠ c) (hb : b ≠ c) : ComesBefore (l ++ m) a b := by
  rw [append_iff, cons_iff] at h
  rw [append_iff]
  rcases h with hl | ⟨hal, hbm⟩ | ⟨hac, _⟩ | hm
  · exact Or.inl hl
  · rcases List.mem_cons.mp hbm with hbc | hbm
    · exact absurd hbc hb
    · exact Or.inr (Or.inl ⟨hal, hbm⟩)
  · exact absurd hac ha
  · exact Or.inr (Or.inr hm)

theorem exists_split {l : List α} {a b : α} (h : ComesBefore l a b) :
    exists x y z, l = x ++ a :: (y ++ b :: z) := by
  induction l with
  | nil => cases h
  | cons c l ih =>
      rcases cons_iff.mp h with ⟨rfl, hb⟩ | h
      · rcases List.append_of_mem hb with ⟨y, z, rfl⟩
        exact ⟨[], y, z, rfl⟩
      · rcases ih h with ⟨x, y, z, rfl⟩
        exact ⟨c :: x, y, z, rfl⟩

theorem of_map {l : List α} {f : α -> β} {x y : β} (h : ComesBefore (l.map f) x y) :
    exists a b, ComesBefore l a b ∧ f a = x ∧ f b = y := by
  induction l with
  | nil => cases h
  | cons c l ih =>
      rw [List.map_cons, cons_iff] at h
      rcases h with ⟨rfl, hy⟩ | h
      · rcases List.mem_map.mp hy with ⟨b, hb, rfl⟩
        exact ⟨c, b, cons_iff.mpr (Or.inl ⟨rfl, hb⟩), rfl, rfl⟩
      · rcases ih h with ⟨a, b, hab, rfl, rfl⟩
        exact ⟨a, b, cons_iff.mpr (Or.inr hab), rfl, rfl⟩

theorem filter {l : List α} {p : α -> Bool} {a b : α} (h : ComesBefore l a b)
    (ha : p a = true) (hb : p b = true) : ComesBefore (l.filter p) a b := by
  have hsub := List.Sublist.filter p h
  rw [List.filter_cons_of_pos ha, List.filter_cons_of_pos hb] at hsub
  exact hsub

theorem of_pairwise {l : List α} {R : α -> α -> Prop} {a b : α} (hl : l.Pairwise R)
    (h : ComesBefore l a b) : R a b := by
  have hpair := hl.sublist h
  rw [List.pairwise_cons] at hpair
  exact hpair.left b (List.mem_cons_self ..)

theorem pairwise (l : List α) : l.Pairwise (ComesBefore l) := by
  induction l with
  | nil => exact List.Pairwise.nil
  | cons c l ih =>
      rw [List.pairwise_cons]
      constructor
      · intro b hb
        exact cons_iff.mpr (Or.inl ⟨rfl, hb⟩)
      · exact ih.imp (fun h => cons_iff.mpr (Or.inr h))

theorem of_getElem? {l : List α} {a b : α} {i j : Nat} (hij : i < j) (ha : l[i]? = some a)
    (hb : l[j]? = some b) : ComesBefore l a b := by
  rcases List.getElem?_eq_some_iff.mp ha with ⟨hi, rfl⟩
  rcases List.getElem?_eq_some_iff.mp hb with ⟨hj, rfl⟩
  exact List.pairwise_iff_getElem.mp (pairwise l) i j hi hj hij

/-!
## Lists without repeats
-/

theorem trans {l : List α} {a b c : α} (hl : l.Nodup) (hab : ComesBefore l a b)
    (hbc : ComesBefore l b c) : ComesBefore l a c := by
  induction l with
  | nil => cases hab
  | cons d l ih =>
      rw [List.nodup_cons] at hl
      rcases cons_iff.mp hab with ⟨rfl, hb⟩ | hab'
      · rcases cons_iff.mp hbc with ⟨rfl, _⟩ | hbc'
        · exact absurd hb hl.left
        · exact cons_iff.mpr (Or.inl ⟨rfl, hbc'.right_mem⟩)
      · rcases cons_iff.mp hbc with ⟨rfl, _⟩ | hbc'
        · exact absurd hab'.right_mem hl.left
        · exact cons_iff.mpr (Or.inr (ih hl.right hab' hbc'))

theorem irrefl {l : List α} {a : α} (hl : l.Nodup) : ¬ComesBefore l a a := by
  intro h
  exact of_pairwise hl h rfl

theorem ne {l : List α} {a b : α} (hl : l.Nodup) (h : ComesBefore l a b) : a ≠ b :=
  of_pairwise hl h

theorem asymm {l : List α} {a b : α} (hl : l.Nodup) (hab : ComesBefore l a b) :
    ¬ComesBefore l b a := by
  intro hba
  exact irrefl hl (trans hl hab hba)

theorem total {l : List α} {a b : α} (ha : a ∈ l) (hb : b ∈ l) (hab : a ≠ b) :
    ComesBefore l a b ∨ ComesBefore l b a := by
  induction l with
  | nil => cases ha
  | cons c l ih =>
      rcases List.mem_cons.mp ha with hac | ha'
      · rcases List.mem_cons.mp hb with hbc | hb'
        · exact absurd (hac.trans hbc.symm) hab
        · exact Or.inl (cons_iff.mpr (Or.inl ⟨hac, hb'⟩))
      · rcases List.mem_cons.mp hb with hbc | hb'
        · exact Or.inr (cons_iff.mpr (Or.inl ⟨hbc, ha'⟩))
        · rcases ih ha' hb' with h | h
          · exact Or.inl (cons_iff.mpr (Or.inr h))
          · exact Or.inr (cons_iff.mpr (Or.inr h))

theorem restrict {l m : List α} {a b : α} (h : ComesBefore m a b) (hm : m.Nodup)
    (hlm : l.Sublist m) (ha : a ∈ l) (hb : b ∈ l) : ComesBefore l a b := by
  rcases total ha hb (h.ne hm) with hab | hba
  · exact hab
  · exact absurd (hba.of_sublist hlm) (h.asymm hm)

end ComesBefore

theorem prefix_eq_of_nodup {f : α -> β} {l a b c d : List α} {x y : α} (hl : (l.map f).Nodup)
    (hx : l = a ++ x :: b) (hy : l = c ++ y :: d) (hxy : f x = f y) : a = c := by
  subst hx
  induction a generalizing c with
  | nil =>
      cases c with
      | nil => rfl
      | cons z c =>
          rcases List.cons.inj hy with ⟨_, rfl⟩
          rw [List.nil_append, List.map_cons, List.nodup_cons, hxy] at hl
          exact absurd (List.mem_map_of_mem (by simp)) hl.left
  | cons w a ih =>
      rw [List.cons_append, List.map_cons, List.nodup_cons] at hl
      cases c with
      | nil =>
          rcases List.cons.inj hy with ⟨rfl, rfl⟩
          rw [← hxy] at hl
          exact absurd (List.mem_map_of_mem (by simp)) hl.left
      | cons z c =>
          rcases List.cons.inj hy with ⟨rfl, hrest⟩
          rw [ih hl.right hrest]

theorem split_of_append_map {ι : Type} {key : α -> β} {f : ι -> α} {done a b c : List α}
    {items : List ι} {x y : ι} (hl : ((done ++ items.map f).map key).Nodup) (hx : x ∈ items)
    (hy : y ∈ items) (h : done ++ items.map f = a ++ f x :: (b ++ f y :: c)) :
    exists a' b' c', items = a' ++ x :: (b' ++ y :: c') ∧ b = b'.map f := by
  rcases List.append_of_mem hx with ⟨a', rest, hitems⟩
  have hsplit : done ++ items.map f = (done ++ a'.map f) ++ f x :: rest.map f := by
    rw [hitems, List.map_append, List.map_cons, List.append_assoc]
  have hrest : rest.map f = b ++ f y :: c := by
    have hfront := prefix_eq_of_nodup hl h hsplit rfl
    rw [h, hfront] at hsplit
    exact (List.cons.inj (List.append_cancel_left hsplit)).right.symm
  rcases List.map_eq_append_iff.mp hrest with ⟨b', last, rfl, hb, hlast⟩
  rcases List.map_eq_cons_iff.mp hlast with ⟨z, c', rfl, hz, _⟩
  have hkeys : (items.map fun i => key (f i)).Nodup := by
    rw [List.map_append, List.map_map] at hl
    exact (List.nodup_append.mp hl).right.left
  have hmem : z ∈ items := by
    rw [hitems]
    simp
  have hzy : z = y := List.inj_on_of_nodup_map hkeys hmem hy (congrArg key hz)
  rw [hzy] at hitems
  exact ⟨a', b', c', hitems, hb.symm⟩

theorem ComesBefore.mem_of_split {l m : List α} {a b : α} (hl : (l ++ b :: m).Nodup)
    (h : ComesBefore (l ++ b :: m) a b) : a ∈ l := by
  rcases h.exists_split with ⟨x, y, z, hsplit⟩
  have hsplit' : l ++ b :: m = (x ++ a :: y) ++ b :: z := by
    rw [hsplit, List.append_assoc, List.cons_append]
  have hids : ((l ++ b :: m).map fun c => c).Nodup := by
    rw [List.map_id']
    exact hl
  rw [prefix_eq_of_nodup hids rfl hsplit' rfl]
  exact List.mem_append_right _ (List.mem_cons_self ..)

theorem ComesBefore.mem_after_of_split {l m : List α} {a b : α} (hl : (l ++ a :: m).Nodup)
    (h : ComesBefore (l ++ a :: m) a b) : b ∈ m := by
  rcases h.exists_split with ⟨x, y, z, hsplit⟩
  have hids : ((l ++ a :: m).map fun c => c).Nodup := by
    rw [List.map_id']
    exact hl
  rw [prefix_eq_of_nodup hids rfl hsplit rfl] at hsplit
  rw [(List.cons.inj (List.append_cancel_left hsplit)).right]
  exact List.mem_append_right _ (List.mem_cons_self ..)

end LaunchGraph
