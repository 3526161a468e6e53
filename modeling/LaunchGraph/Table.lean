/-!
# Tables

Finite maps that remember the order in which their keys first came in.  A key
has at most one entry; setting it again keeps its place.
-/

namespace LaunchGraph

/-- A finite map from keys to values, its entries in order of first insertion. -/
structure Table (κ : Type) (α : Type) where
  entries : List (κ × α)
  keys_nodup : (entries.map (·.1)).Nodup

namespace Table

variable {κ α β : Type}

theorem eq_of_entries_eq {t u : Table κ α} (h : t.entries = u.entries) : t = u := by
  cases t
  cases u
  cases h
  rfl

def empty : Table κ α := ⟨[], List.nodup_nil⟩

instance : EmptyCollection (Table κ α) := ⟨empty⟩

instance : Inhabited (Table κ α) := ⟨∅⟩

@[simp] theorem entries_empty : (∅ : Table κ α).entries = [] := rfl

def keys (t : Table κ α) : List κ := t.entries.map (·.1)

def values (t : Table κ α) : List α := t.entries.map (·.2)

variable [DecidableEq κ]

/-! ## Looking up -/

def lookup (k : κ) : List (κ × α) -> Option α
  | [] => none
  | e :: rest => if e.1 = k then some e.2 else lookup k rest

def get? (t : Table κ α) (k : κ) : Option α := lookup k t.entries

@[simp] theorem get?_empty (k : κ) : (∅ : Table κ α).get? k = none := rfl

theorem lookup_eq_none_iff {k : κ} {l : List (κ × α)} :
    lookup k l = none ↔ k ∉ l.map (·.1) := by
  induction l with
  | nil => simp [lookup]
  | cons e rest ih =>
      rw [lookup]
      split
      · next h => simp [h]
      · next h =>
          rw [ih, List.map_cons, List.mem_cons, not_or]
          exact ⟨fun hr => ⟨fun he => h he.symm, hr⟩, fun hr => hr.2⟩

theorem lookup_eq_some_iff {k : κ} {a : α} {l : List (κ × α)} (h : (l.map (·.1)).Nodup) :
    lookup k l = some a ↔ (k, a) ∈ l := by
  induction l with
  | nil => simp [lookup]
  | cons e rest ih =>
      rw [List.map_cons, List.nodup_cons] at h
      rw [lookup]
      split
      · next hk =>
          subst hk
          constructor
          · intro he
            cases he
            exact List.mem_cons_self ..
          · intro hm
            rcases List.mem_cons.1 hm with he | hm
            · rw [← he]
            · exact absurd (List.mem_map.2 ⟨_, hm, rfl⟩) h.1
      · next hk =>
          rw [ih h.2, List.mem_cons]
          exact ⟨Or.inr, fun hm => hm.elim (fun he => absurd (by rw [← he]) hk) id⟩

theorem get?_eq_none_iff {t : Table κ α} {k : κ} : t.get? k = none ↔ k ∉ t.keys :=
  lookup_eq_none_iff

/-- Looking up finds exactly the stored entries. -/
theorem get?_eq_some_iff {t : Table κ α} {k : κ} {a : α} :
    t.get? k = some a ↔ (k, a) ∈ t.entries :=
  lookup_eq_some_iff t.keys_nodup

/-! ## Setting -/

/-- Stores `a` under `k`, in the place of the entry for `k` or else at the end. -/
def setIn (k : κ) (a : α) : List (κ × α) -> List (κ × α)
  | [] => [(k, a)]
  | e :: rest => if e.1 = k then (k, a) :: rest else e :: setIn k a rest

theorem mem_map_setIn {k j : κ} {a : α} {l : List (κ × α)} :
    j ∈ (setIn k a l).map (·.1) ↔ j = k ∨ j ∈ l.map (·.1) := by
  induction l with
  | nil => simp [setIn]
  | cons e rest ih =>
      rw [setIn]
      split
      · next h =>
          subst h
          simp
      · rw [List.map_cons, List.mem_cons, ih, List.map_cons, List.mem_cons]
        constructor
        · rintro (h | h | h) <;> simp [h]
        · rintro (h | h | h) <;> simp [h]

theorem nodup_map_setIn {k : κ} {a : α} {l : List (κ × α)} (h : (l.map (·.1)).Nodup) :
    ((setIn k a l).map (·.1)).Nodup := by
  induction l with
  | nil => simp [setIn]
  | cons e rest ih =>
      rw [setIn]
      rw [List.map_cons, List.nodup_cons] at h
      split
      · next hk =>
          subst hk
          exact List.nodup_cons.2 h
      · next hk =>
          rw [List.map_cons, List.nodup_cons]
          refine ⟨fun hm => ?_, ih h.2⟩
          rcases mem_map_setIn.1 hm with he | hm
          · exact hk he
          · exact h.1 hm

theorem lookup_setIn {k j : κ} {a : α} {l : List (κ × α)} :
    lookup j (setIn k a l) = if j = k then some a else lookup j l := by
  induction l with
  | nil =>
      by_cases h : j = k
      · simp [setIn, lookup, h]
      · simp [setIn, lookup, h, Ne.symm h]
  | cons e rest ih =>
      rw [setIn]
      by_cases hj : j = k
      · subst hj
        by_cases he : e.1 = j
        · simp [he, lookup]
        · simp [he, lookup, ih]
      · by_cases he : e.1 = k
        · simp [he, lookup, hj, Ne.symm hj]
        · simp only [he, if_false, lookup, ih, hj]

def set (t : Table κ α) (k : κ) (a : α) : Table κ α :=
  ⟨setIn k a t.entries, nodup_map_setIn t.keys_nodup⟩

@[simp] theorem get?_set {t : Table κ α} {k j : κ} {a : α} :
    (t.set k a).get? j = if j = k then some a else t.get? j :=
  lookup_setIn

/-! ## Changing values -/

/-- Changes the value of every entry, or drops the entry where there is none. -/
def filterMap (t : Table κ α) (f : κ -> α -> Option β) : Table κ β :=
  ⟨t.entries.filterMap fun e => (f e.1 e.2).map (e.1, ·), by
    have sub : forall l : List (κ × α),
        List.Sublist ((l.filterMap fun e => (f e.1 e.2).map (e.1, ·)).map (·.1)) (l.map (·.1)) := by
      intro l
      induction l with
      | nil => exact List.Sublist.slnil
      | cons e rest ih =>
          rw [List.filterMap_cons]
          cases f e.1 e.2 with
          | none => exact List.Sublist.cons _ ih
          | some b => exact List.Sublist.cons_cons _ ih
    exact t.keys_nodup.sublist (sub t.entries)⟩

@[simp] theorem get?_filterMap {t : Table κ α} {f : κ -> α -> Option β} {k : κ} :
    (t.filterMap f).get? k = (t.get? k).bind (f k) := by
  have key : forall l : List (κ × α), (l.map (·.1)).Nodup ->
      lookup k (l.filterMap fun e => (f e.1 e.2).map (e.1, ·)) = (lookup k l).bind (f k) := by
    intro l
    induction l with
    | nil => intro _; rfl
    | cons e rest ih =>
        intro h
        rw [List.map_cons, List.nodup_cons] at h
        rw [List.filterMap_cons]
        by_cases hk : e.1 = k
        · subst hk
          cases hf : f e.1 e.2 with
          | none =>
              rw [Option.map_none]
              dsimp only
              rw [ih h.2, lookup_eq_none_iff.2 h.1]
              simp [lookup, hf]
          | some b => simp [lookup, hf]
        · cases hf : f e.1 e.2 with
          | none => simpa [lookup, hk] using ih h.2
          | some b => simpa [lookup, hk] using ih h.2
  exact key t.entries t.keys_nodup

def map (t : Table κ α) (f : κ -> α -> β) : Table κ β := t.filterMap fun k a => some (f k a)

@[simp] theorem get?_map {t : Table κ α} {f : κ -> α -> β} {k : κ} :
    (t.map f).get? k = (t.get? k).map (f k) := by
  rw [map, get?_filterMap]
  cases t.get? k <;> rfl

def erase (t : Table κ α) (k : κ) : Table κ α :=
  t.filterMap fun j a => if j = k then none else some a

@[simp] theorem get?_erase {t : Table κ α} {k j : κ} :
    (t.erase k).get? j = if j = k then none else t.get? j := by
  rw [erase, get?_filterMap]
  by_cases h : j = k
  · simp [h]
  · cases t.get? j <;> simp [h]

/-- Changes the value of every entry by a function that may fail, first entry first. -/
def traverse {ε : Type} (t : Table κ α) (f : κ -> α -> Except ε β) : Except ε (Table κ β) :=
  t.entries.foldlM (fun acc e => do return acc.set e.1 (← f e.1 e.2)) ∅

end Table

end LaunchGraph
