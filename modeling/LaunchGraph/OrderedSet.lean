/-!
# Ordered sets

Finite sets of elements that carry a numeric rank, kept as the list of their
elements in increasing rank.  Each set has one such list, so two sets are equal
as soon as they have the same members, and a traversal always meets the members
in the same order.
-/

namespace LaunchGraph

/-- Elements told apart, and ordered, by a number. -/
class Ranked (α : Type) where
  rank : α -> Nat
  rank_injective : forall a b : α, rank a = rank b -> a = b

export Ranked (rank)

instance : Ranked Nat where
  rank n := n
  rank_injective _ _ h := h

/-- A finite set, listed by increasing rank. -/
structure OrderedSet (α : Type) [Ranked α] where
  toList : List α
  increasing : toList.Pairwise (fun a b => rank a < rank b)

namespace OrderedSet

variable {α : Type} [Ranked α]

/-! ## Membership -/

instance : Membership α (OrderedSet α) where
  mem s a := a ∈ s.toList

theorem mem_def {a : α} {s : OrderedSet α} : a ∈ s ↔ a ∈ s.toList := Iff.rfl

instance [DecidableEq α] (a : α) (s : OrderedSet α) : Decidable (a ∈ s) :=
  inferInstanceAs (Decidable (a ∈ s.toList))

theorem eq_of_toList_eq {s t : OrderedSet α} (h : s.toList = t.toList) : s = t := by
  cases s
  cases t
  cases h
  rfl

instance [DecidableEq α] : DecidableEq (OrderedSet α) := fun s t =>
  if h : s.toList = t.toList then
    isTrue (eq_of_toList_eq h)
  else
    isFalse (fun e => h (e ▸ rfl))

theorem nodup (s : OrderedSet α) : s.toList.Nodup :=
  s.increasing.imp fun h e => by
    subst e
    exact Nat.lt_irrefl _ h

private theorem eq_of_pairwise_of_mem_iff {l m : List α}
    (hl : l.Pairwise (fun a b => rank a < rank b))
    (hm : m.Pairwise (fun a b => rank a < rank b))
    (h : forall a, a ∈ l ↔ a ∈ m) : l = m := by
  induction l generalizing m with
  | nil =>
      cases m with
      | nil => rfl
      | cons b m => exact absurd ((h b).2 (List.mem_cons_self ..)) (by simp)
  | cons a l ih =>
      cases m with
      | nil => exact absurd ((h a).1 (List.mem_cons_self ..)) (by simp)
      | cons b m =>
          rw [List.pairwise_cons] at hl hm
          have hab : a = b := by
            rcases List.mem_cons.1 ((h a).1 (List.mem_cons_self ..)) with e | ha
            · exact e
            · rcases List.mem_cons.1 ((h b).2 (List.mem_cons_self ..)) with e | hb
              · exact e.symm
              · exact absurd (hl.1 b hb) (Nat.not_lt_of_gt (hm.1 a ha))
          subst hab
          refine congrArg (a :: ·) (ih hl.2 hm.2 fun c => ?_)
          constructor
          · intro hc
            rcases List.mem_cons.1 ((h c).1 (List.mem_cons_of_mem _ hc)) with e | hc'
            · subst e
              exact absurd (hl.1 c hc) (Nat.lt_irrefl _)
            · exact hc'
          · intro hc
            rcases List.mem_cons.1 ((h c).2 (List.mem_cons_of_mem _ hc)) with e | hc'
            · subst e
              exact absurd (hm.1 c hc) (Nat.lt_irrefl _)
            · exact hc'

/-- A set is determined by its members. -/
theorem eq_of_mem_iff {s t : OrderedSet α} (h : forall a, a ∈ s ↔ a ∈ t) : s = t :=
  eq_of_toList_eq (eq_of_pairwise_of_mem_iff s.increasing t.increasing h)

/-! ## Building sets -/

def empty : OrderedSet α := ⟨[], List.Pairwise.nil⟩

instance : EmptyCollection (OrderedSet α) := ⟨empty⟩

instance : Inhabited (OrderedSet α) := ⟨∅⟩

@[simp] theorem toList_empty : (∅ : OrderedSet α).toList = [] := rfl

@[simp] theorem not_mem_empty (a : α) : a ∉ (∅ : OrderedSet α) := by
  simp [mem_def]

/-- Puts `a` before the first element of higher rank, unless it is there already. -/
def insertInto (a : α) : List α -> List α
  | [] => [a]
  | b :: rest =>
      if rank a < rank b then a :: b :: rest
      else if rank a = rank b then b :: rest
      else b :: insertInto a rest

theorem mem_insertInto {a c : α} {l : List α} : c ∈ insertInto a l ↔ c = a ∨ c ∈ l := by
  induction l with
  | nil => simp [insertInto]
  | cons b rest ih =>
      rw [insertInto]
      split
      · simp
      · split
        · next h =>
            have e : a = b := Ranked.rank_injective a b h
            subst e
            simp
        · simp only [List.mem_cons, ih]
          constructor
          · rintro (h | h | h) <;> simp [h]
          · rintro (h | h | h) <;> simp [h]

theorem pairwise_insertInto {a : α} {l : List α}
    (h : l.Pairwise (fun a b => rank a < rank b)) :
    (insertInto a l).Pairwise (fun a b => rank a < rank b) := by
  induction l with
  | nil => simp [insertInto]
  | cons b rest ih =>
      rw [insertInto]
      rw [List.pairwise_cons] at h
      split
      · next hab =>
          refine List.pairwise_cons.2 ⟨fun c hc => ?_, List.pairwise_cons.2 h⟩
          rcases List.mem_cons.1 hc with e | hc
          · subst e
            exact hab
          · exact Nat.lt_trans hab (h.1 c hc)
      · split
        · exact List.pairwise_cons.2 h
        · next h1 h2 =>
            refine List.pairwise_cons.2 ⟨fun c hc => ?_, ih h.2⟩
            rcases mem_insertInto.1 hc with e | hc
            · subst e
              omega
            · exact h.1 c hc

def insert (s : OrderedSet α) (a : α) : OrderedSet α :=
  ⟨insertInto a s.toList, pairwise_insertInto s.increasing⟩

@[simp] theorem mem_insert {a c : α} {s : OrderedSet α} : c ∈ s.insert a ↔ c = a ∨ c ∈ s :=
  mem_insertInto

def insertAll (s : OrderedSet α) (l : List α) : OrderedSet α := l.foldl insert s

@[simp] theorem mem_insertAll {c : α} {l : List α} {s : OrderedSet α} :
    c ∈ s.insertAll l ↔ c ∈ l ∨ c ∈ s := by
  induction l generalizing s with
  | nil => simp [insertAll]
  | cons a l ih =>
      have : s.insertAll (a :: l) = (s.insert a).insertAll l := rfl
      rw [this, ih, mem_insert, List.mem_cons]
      constructor
      · rintro (h | h | h) <;> simp [h]
      · rintro ((h | h) | h) <;> simp [h]

def ofList (l : List α) : OrderedSet α := insertAll ∅ l

@[simp] theorem mem_ofList {c : α} {l : List α} : c ∈ ofList l ↔ c ∈ l := by
  simp [ofList]

def union (s t : OrderedSet α) : OrderedSet α := s.insertAll t.toList

instance : Union (OrderedSet α) := ⟨union⟩

@[simp] theorem mem_union {c : α} {s t : OrderedSet α} : c ∈ s ∪ t ↔ c ∈ s ∨ c ∈ t := by
  show c ∈ s.insertAll t.toList ↔ _
  rw [mem_insertAll, Or.comm]
  rfl

def filter (s : OrderedSet α) (p : α -> Bool) : OrderedSet α :=
  ⟨s.toList.filter p, s.increasing.filter p⟩

@[simp] theorem mem_filter {c : α} {p : α -> Bool} {s : OrderedSet α} :
    c ∈ s.filter p ↔ c ∈ s ∧ p c = true :=
  List.mem_filter

def inter [DecidableEq α] (s t : OrderedSet α) : OrderedSet α := s.filter (· ∈ t)

instance [DecidableEq α] : Inter (OrderedSet α) := ⟨inter⟩

@[simp] theorem mem_inter [DecidableEq α] {c : α} {s t : OrderedSet α} :
    c ∈ s ∩ t ↔ c ∈ s ∧ c ∈ t := by
  show c ∈ s.filter _ ↔ _
  simp

def diff [DecidableEq α] (s t : OrderedSet α) : OrderedSet α := s.filter (· ∉ t)

instance [DecidableEq α] : SDiff (OrderedSet α) := ⟨diff⟩

@[simp] theorem mem_sdiff [DecidableEq α] {c : α} {s t : OrderedSet α} :
    c ∈ s \ t ↔ c ∈ s ∧ c ∉ t := by
  show c ∈ s.filter _ ↔ _
  simp

/-! ## Size -/

def size (s : OrderedSet α) : Nat := s.toList.length

def isEmpty (s : OrderedSet α) : Bool := s.toList.isEmpty

theorem isEmpty_iff {s : OrderedSet α} : s.isEmpty = true ↔ forall a, a ∉ s := by
  rw [isEmpty, List.isEmpty_iff, List.eq_nil_iff_forall_not_mem]
  rfl

theorem size_insert_of_not_mem {a : α} {s : OrderedSet α} (h : a ∉ s) :
    (s.insert a).size = s.size + 1 := by
  have key : forall l : List α, a ∉ l -> (insertInto a l).length = l.length + 1 := by
    intro l
    induction l with
    | nil => intro _; rfl
    | cons b rest ih =>
        intro hl
        rw [insertInto]
        split
        · rfl
        · split
          · next _ e =>
              exact absurd (Ranked.rank_injective a b e) fun e => hl (by simp [e])
          · simp [ih fun hr => hl (List.mem_cons_of_mem _ hr)]
  exact key s.toList h

private theorem length_le_of_rank_lt {n m : Nat} {l : List α}
    (hl : l.Pairwise (fun a b => rank a < rank b))
    (lower : forall a, a ∈ l -> m ≤ rank a) (upper : forall a, a ∈ l -> rank a < n) :
    l.length ≤ n - m := by
  induction l generalizing m with
  | nil => simp
  | cons a l ih =>
      rw [List.pairwise_cons] at hl
      have h1 := lower a (List.mem_cons_self ..)
      have h2 := upper a (List.mem_cons_self ..)
      have := ih (m := m + 1) hl.2
        (fun b hb => by have := hl.1 b hb; omega)
        (fun b hb => upper b (List.mem_cons_of_mem _ hb))
      simp only [List.length_cons]
      omega

/-- Ranks below a bound leave room for no more members than the bound. -/
theorem size_le_of_rank_lt {n : Nat} {s : OrderedSet α} (h : forall a, a ∈ s -> rank a < n) :
    s.size ≤ n := by
  simpa [size] using length_le_of_rank_lt (m := 0) s.increasing (fun _ _ => Nat.zero_le _) h

end OrderedSet

end LaunchGraph
