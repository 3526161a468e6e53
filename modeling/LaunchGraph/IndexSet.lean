/-!
# Index sets

Finite sets of natural numbers, held as the bits of one number, so that unions
and intersections of long rows stay cheap.
-/

namespace LaunchGraph

/-- A finite set of natural numbers: those whose bit is set. -/
structure IndexSet where
  bits : Nat
deriving DecidableEq, Inhabited

namespace IndexSet

instance : Membership Nat IndexSet where
  mem s i := s.bits.testBit i = true

theorem mem_def {i : Nat} {s : IndexSet} : i ∈ s ↔ s.bits.testBit i = true := Iff.rfl

instance (i : Nat) (s : IndexSet) : Decidable (i ∈ s) :=
  inferInstanceAs (Decidable (s.bits.testBit i = true))

/-- A set is determined by its members. -/
theorem eq_of_mem_iff {s t : IndexSet} (h : forall i, i ∈ s ↔ i ∈ t) : s = t := by
  cases s
  cases t
  refine congrArg mk (Nat.eq_of_testBit_eq fun i => ?_)
  exact Bool.eq_iff_iff.2 (h i)

def empty : IndexSet := ⟨0⟩

instance : EmptyCollection IndexSet := ⟨empty⟩

@[simp] theorem not_mem_empty (i : Nat) : i ∉ (∅ : IndexSet) := by
  simp [mem_def, show (∅ : IndexSet) = ⟨0⟩ from rfl]

def single (i : Nat) : IndexSet := ⟨1 <<< i⟩

@[simp] theorem mem_single {i j : Nat} : i ∈ single j ↔ i = j := by
  rw [mem_def, single, Nat.one_shiftLeft, Nat.testBit_two_pow, decide_eq_true_iff, eq_comm]

def union (s t : IndexSet) : IndexSet := ⟨s.bits ||| t.bits⟩

instance : Union IndexSet := ⟨union⟩

@[simp] theorem mem_union {i : Nat} {s t : IndexSet} : i ∈ s ∪ t ↔ i ∈ s ∨ i ∈ t := by
  show (s.bits ||| t.bits).testBit i = true ↔ _
  rw [Nat.testBit_or, Bool.or_eq_true]
  rfl

def inter (s t : IndexSet) : IndexSet := ⟨s.bits &&& t.bits⟩

instance : Inter IndexSet := ⟨inter⟩

@[simp] theorem mem_inter {i : Nat} {s t : IndexSet} : i ∈ s ∩ t ↔ i ∈ s ∧ i ∈ t := by
  show (s.bits &&& t.bits).testBit i = true ↔ _
  rw [Nat.testBit_and, Bool.and_eq_true]
  rfl

def diff (s t : IndexSet) : IndexSet := ⟨s.bits ^^^ (s.bits &&& t.bits)⟩

instance : SDiff IndexSet := ⟨diff⟩

@[simp] theorem mem_sdiff {i : Nat} {s t : IndexSet} : i ∈ s \ t ↔ i ∈ s ∧ i ∉ t := by
  show (s.bits ^^^ (s.bits &&& t.bits)).testBit i = true ↔ _
  rw [Nat.testBit_xor, Nat.testBit_and, mem_def, mem_def]
  cases s.bits.testBit i <;> cases t.bits.testBit i <;> simp

def insert (s : IndexSet) (i : Nat) : IndexSet := s ∪ single i

@[simp] theorem mem_insert {i j : Nat} {s : IndexSet} : i ∈ s.insert j ↔ i = j ∨ i ∈ s := by
  rw [insert, mem_union, mem_single, Or.comm]

def isEmpty (s : IndexSet) : Bool := s.bits == 0

theorem isEmpty_iff {s : IndexSet} : s.isEmpty = true ↔ forall i, i ∉ s := by
  rw [isEmpty, beq_iff_eq]
  constructor
  · intro h i hi
    rw [mem_def, h, Nat.zero_testBit] at hi
    cases hi
  · intro h
    refine Nat.eq_of_testBit_eq fun i => ?_
    rw [Nat.zero_testBit]
    exact Bool.eq_false_iff.2 (h i)

def ofList (l : List Nat) : IndexSet := l.foldl insert ∅

theorem mem_foldl_insert {i : Nat} {l : List Nat} {s : IndexSet} :
    i ∈ l.foldl insert s ↔ i ∈ l ∨ i ∈ s := by
  induction l generalizing s with
  | nil => simp
  | cons a l ih =>
      rw [List.foldl_cons, ih, mem_insert, List.mem_cons]
      constructor
      · rintro (h | h | h) <;> simp [h]
      · rintro ((h | h) | h) <;> simp [h]

@[simp] theorem mem_ofList {i : Nat} {l : List Nat} : i ∈ ofList l ↔ i ∈ l := by
  simp [ofList, mem_foldl_insert]

/-- The members below a bound, in increasing order. -/
def below (s : IndexSet) (n : Nat) : List Nat := (List.range n).filter (· ∈ s)

@[simp] theorem mem_below {i n : Nat} {s : IndexSet} : i ∈ s.below n ↔ i < n ∧ i ∈ s := by
  simp [below]

end IndexSet

end LaunchGraph
