import Mathlib
import LaunchGraph.Proofs.Graph.SmallestFirst

/-!
# The sort by countdown

Another way to sort the pending nodes counts for each position how many others it still
waits for.  A heap holds the positions that wait for none, each under the age of its node.
The least of them is placed, one is taken off the count of each position that waited for it,
and a position whose count comes down to zero goes onto the heap.  The positions are all
placed in the end unless some wait for one another in a cycle.

The counts are those of the positions that are not placed yet, so the least on the heap is the
candidate that goes first among those that remain.  Hence no count ever goes below zero, and
both ways lead to the same order.
-/

namespace LaunchGraph

/-- The middle of a sort: how many positions each one waits for, the age and the position of
each that is ready, and the positions placed so far. -/
structure Countdown where
  waits : List Nat
  ready : List (Nat ×ₗ Nat)
  placed : List Nat

namespace Countdown

/-!
## The countdown
-/

def position (p : Nat ×ₗ Nat) : Nat := (ofLex p).2

def raise (waits : List Nat) (j : Nat) : List Nat := waits.modify j (· + 1)

def start (seq : Nat -> Nat) (successors : Nat -> List Nat) (n : Nat) : Countdown :=
  let waits := ((List.range n).flatMap successors).foldl raise (List.replicate n 0)
  { waits
    ready := (waits.zipIdx.filter (·.1 = 0)).map fun p => toLex (seq p.2, p.2)
    placed := [] }

def lower (seq : Nat -> Nat) (s : Countdown) (j count : Nat) : Countdown :=
  { s with
    waits := s.waits.set j count
    ready := if count = 0 then toLex (seq j, j) :: s.ready else s.ready }

/-- Takes one off the count of a position.  There is no result if it is zero already. -/
def release (seq : Nat -> Nat) (s : Countdown) (j : Nat) : Option Countdown :=
  match s.waits[j]? with
  | some (count + 1) => some (s.lower seq j count)
  | _ => none

def place (s : Countdown) (p : Nat ×ₗ Nat) : Countdown :=
  { s with ready := s.ready.erase p, placed := s.placed ++ [position p] }

def effort (s : Countdown) : Nat := s.waits.sum + s.ready.length

theorem effort_release {seq : Nat -> Nat} {s s' : Countdown} {j : Nat}
    (h : s.release seq j = some s') : s'.effort ≤ s.effort := by
  rw [release] at h
  split at h
  · next count hcount =>
      cases h
      rcases List.getElem?_eq_some_iff.mp hcount with ⟨hj, hget⟩
      have hself : s.waits.set j (count + 1) = s.waits := by
        rw [show count + 1 = s.waits[j] from hget.symm, List.set_getElem_self]
      have hsum : (s.waits.set j count).sum + 1 = s.waits.sum := by
        have hsplit := List.sum_set s.waits j count
        have hsame := List.sum_set s.waits j (count + 1)
        rw [hself, if_pos hj] at hsame
        rw [if_pos hj] at hsplit
        omega
      unfold effort lower
      dsimp only
      split
      · rw [List.length_cons]
        omega
      · omega
  · cases h

theorem effort_foldlM {seq : Nat -> Nat} {js : List Nat} {s s' : Countdown}
    (h : js.foldlM (release seq) s = some s') : s'.effort ≤ s.effort := by
  induction js generalizing s with
  | nil =>
      cases h
      exact Nat.le_refl _
  | cons j js ih =>
      rw [List.foldlM_cons] at h
      rcases Option.bind_eq_some_iff.mp h with ⟨s1, h1, h2⟩
      exact (ih h2).trans (effort_release h1)

theorem effort_place {s : Countdown} {p : Nat ×ₗ Nat} (hp : p ∈ s.ready) :
    (s.place p).effort < s.effort := by
  have hlength := List.length_erase_of_mem hp
  have hpos := List.length_pos_of_mem hp
  unfold effort place
  dsimp only
  omega

def run (seq : Nat -> Nat) (successors : Nat -> List Nat) (s : Countdown) :
    Option (List Nat) :=
  match _least : s.ready.min? with
  | none => some s.placed
  | some p =>
      match _released : (successors (position p)).foldlM (release seq) (s.place p) with
      | none => none
      | some s' => run seq successors s'
termination_by s.effort
decreasing_by
  exact (effort_foldlM _released).trans_lt (effort_place (List.min?_eq_some_iff.mp _least).left)

/-!
## What the counts say
-/

def remaining (n : Nat) (s : Countdown) : List Nat := (List.range n).filter (· ∉ s.placed)

/-- Each count is the number of remaining positions that are waited for.  The positions of
`pending` are still to be released once each by what was placed last. -/
structure Counted (seq : Nat -> Nat) (successors : Nat -> List Nat) (n : Nat)
    (pending : List Nat) (s : Countdown) : Prop where
  waits : forall j, j < n -> s.waits[j]?
    = some ((s.remaining n).countP (j ∈ successors ·) + pending.count j)
  ready_iff : forall p, p ∈ s.ready ↔
    exists j, j ∈ s.remaining n ∧ s.waits[j]? = some 0 ∧ p = toLex (seq j, j)
  nodup : s.ready.Nodup
  placed : forall j, j ∈ s.placed -> s.waits[j]? = some 0

section Counts

variable {seq : Nat -> Nat} {successors : Nat -> List Nat} {n : Nat} {s : Countdown}

theorem mem_remaining {j : Nat} : j ∈ s.remaining n ↔ j < n ∧ j ∉ s.placed := by
  simp [remaining]

theorem getElem?_foldl_raise (js waits : List Nat) (j : Nat) :
    (js.foldl raise waits)[j]? = waits[j]?.map (· + js.count j) := by
  induction js generalizing waits with
  | nil => simp
  | cons i js ih =>
      rw [List.foldl_cons, ih, raise, List.getElem?_modify, List.count_cons]
      by_cases hij : i = j
      · subst hij
        cases waits[i]? with
        | none => rfl
        | some count => simp; omega
      · simp [hij]

theorem count_flatMap_of_nodup (hnodup : forall i, (successors i).Nodup) (l : List Nat) (j : Nat) :
    (l.flatMap successors).count j = l.countP (j ∈ successors ·) := by
  induction l with
  | nil => rfl
  | cons i l ih =>
      rw [List.flatMap_cons, List.count_append, ih, List.countP_cons, (hnodup i).count]
      simp [Nat.add_comm]

theorem getElem?_waits_start (hnodup : forall i, (successors i).Nodup) (j : Nat) :
    (start seq successors n).waits[j]?
      = if j < n then some ((List.range n).countP (j ∈ successors ·)) else none := by
  rw [← count_flatMap_of_nodup hnodup]
  refine (getElem?_foldl_raise ..).trans ?_
  rw [List.getElem?_replicate]
  split
  · simp
  · rfl

theorem mem_ready_start {p : Nat ×ₗ Nat} : p ∈ (start seq successors n).ready ↔
    exists j, (start seq successors n).waits[j]? = some 0 ∧ p = toLex (seq j, j) := by
  constructor
  · intro hp
    rcases List.mem_map.mp hp with ⟨⟨count, j⟩, hin, rfl⟩
    rcases List.mem_filter.mp hin with ⟨hget, hzero⟩
    refine ⟨j, ?_, rfl⟩
    rw [← of_decide_eq_true hzero]
    exact List.mem_zipIdx_iff_getElem?.mp hget
  · rintro ⟨j, hzero, rfl⟩
    refine List.mem_map.mpr ⟨(0, j), List.mem_filter.mpr ⟨?_, by simp⟩, rfl⟩
    exact List.mem_zipIdx_iff_getElem?.mpr hzero

theorem nodup_ready_start : (start seq successors n).ready.Nodup := by
  refine List.Nodup.of_map position ?_
  rw [start, List.map_map]
  refine List.Nodup.sublist (List.filter_sublist.map _) ?_
  show (List.map Prod.snd _).Nodup
  rw [List.zipIdx_map_snd]
  exact List.nodup_range'

theorem counted_start (hnodup : forall i, (successors i).Nodup) :
    Counted seq successors n [] (start seq successors n) := by
  have hremaining : (start seq successors n).remaining n = List.range n := by
    simp [remaining, start]
  refine ⟨?_, ?_, nodup_ready_start, by simp [start]⟩
  · intro j hj
    rw [getElem?_waits_start hnodup, if_pos hj, hremaining]
    rfl
  · intro p
    rw [mem_ready_start, hremaining]
    refine exists_congr fun j => ?_
    rw [List.mem_range, getElem?_waits_start hnodup]
    split
    · next hj => simp [hj]
    · next hj => simp [hj]

theorem mem_ready_lower {j count : Nat} {p : Nat ×ₗ Nat} :
    p ∈ (s.lower seq j count).ready ↔ (count = 0 ∧ p = toLex (seq j, j)) ∨ p ∈ s.ready := by
  rw [lower]
  dsimp only
  split
  · next hzero => simp [hzero]
  · next hpos => simp [hpos]

/-- There is something to take off the count of a position that is still to be released. -/
theorem Counted.release {j : Nat} {pending : List Nat}
    (h : Counted seq successors n (j :: pending) s) (hj : j < n) :
    exists s', s.release seq j = some s' ∧ s'.placed = s.placed ∧
      Counted seq successors n pending s' := by
  have hwait := h.waits j hj
  rw [List.count_cons_self, ← Nat.add_assoc] at hwait
  generalize hcount : (s.remaining n).countP (j ∈ successors ·) + pending.count j = count at hwait
  have hwaiting : s.waits[j]? ≠ some 0 := by
    rw [hwait]
    simp
  -- What is placed waits for nothing, so it is never put onto the heap again.
  have hunplaced : j ∉ s.placed := fun hin => hwaiting (h.placed j hin)
  have hself : (s.lower seq j count).waits[j]? = some count :=
    List.getElem?_set_self (List.getElem?_eq_some_iff.mp hwait).choose
  have hother : forall i, i ≠ j -> (s.lower seq j count).waits[i]? = s.waits[i]? :=
    fun i hi => List.getElem?_set_ne (Ne.symm hi)
  refine ⟨s.lower seq j count, by rw [Countdown.release, hwait], rfl, ?_, ?_, ?_, ?_⟩
  · intro i hi
    by_cases hij : i = j
    · subst hij
      exact hself.trans (congrArg some hcount.symm)
    · rw [hother i hij, h.waits i hi, List.count_cons_of_ne (Ne.symm hij)]
      rfl
  · intro p
    rw [mem_ready_lower, h.ready_iff]
    constructor
    · rintro (⟨hzero, rfl⟩ | ⟨i, hi, hzero, rfl⟩)
      · exact ⟨j, mem_remaining.mpr ⟨hj, hunplaced⟩, hself.trans (congrArg some hzero), rfl⟩
      · have hij : i ≠ j := fun heq => hwaiting (heq ▸ hzero)
        exact ⟨i, hi, (hother i hij).trans hzero, rfl⟩
    · rintro ⟨i, hi, hzero, rfl⟩
      by_cases hij : i = j
      · subst hij
        exact Or.inl ⟨Option.some.inj (hself.symm.trans hzero), rfl⟩
      · exact Or.inr ⟨i, hi, (hother i hij).symm.trans hzero, rfl⟩
  · rw [lower]
    dsimp only
    split
    · refine List.nodup_cons.mpr ⟨?_, h.nodup⟩
      intro hin
      rcases (h.ready_iff _).mp hin with ⟨i, _, hzero, heq⟩
      have hji : j = i := congrArg position heq
      exact hwaiting (hji ▸ hzero)
    · exact h.nodup
  · intro i hi
    have hij : i ≠ j := fun heq => hunplaced (heq ▸ hi)
    exact (hother i hij).trans (h.placed i hi)

theorem Counted.releaseAll {pending : List Nat} (h : Counted seq successors n pending s)
    (hpending : forall j, j ∈ pending -> j < n) :
    exists s', pending.foldlM (Countdown.release seq) s = some s' ∧ s'.placed = s.placed ∧
      Counted seq successors n [] s' := by
  induction pending generalizing s with
  | nil => exact ⟨s, rfl, rfl, h⟩
  | cons j pending ih =>
      rcases h.release (hpending j (by simp)) with ⟨s1, hrelease, hplaced, h1⟩
      rcases ih h1 (fun i hi => hpending i (List.mem_cons_of_mem _ hi))
        with ⟨s2, hrest, hplaced', h2⟩
      refine ⟨s2, ?_, hplaced'.trans hplaced, h2⟩
      rw [List.foldlM_cons, hrelease]
      exact hrest

theorem mem_remaining_place {p : Nat ×ₗ Nat} {j : Nat} :
    j ∈ (s.place p).remaining n ↔ j ∈ s.remaining n ∧ j ≠ position p := by
  rw [mem_remaining, mem_remaining, place, List.mem_append, List.mem_singleton, not_or, and_assoc]

theorem perm_remaining_place {p : Nat ×ₗ Nat} (hp : position p ∈ s.remaining n) :
    (position p :: (s.place p).remaining n).Perm (s.remaining n) := by
  have hnodup : forall t : Countdown, (t.remaining n).Nodup := fun t => List.nodup_range.filter _
  refine (List.perm_ext_iff_of_nodup ?_ (hnodup s)).mpr ?_
  · refine List.nodup_cons.mpr ⟨?_, hnodup _⟩
    intro hin
    exact (mem_remaining_place.mp hin).right rfl
  · intro j
    rw [List.mem_cons, mem_remaining_place]
    constructor
    · rintro (rfl | ⟨hj, _⟩)
      · exact hp
      · exact hj
    · intro hj
      exact (em (j = position p)).imp id fun hne => ⟨hj, hne⟩

theorem Counted.place (hnodup : forall i, (successors i).Nodup) {p : Nat ×ₗ Nat}
    (h : Counted seq successors n [] s) (hp : p ∈ s.ready) :
    Counted seq successors n (successors (position p)) (s.place p) := by
  rcases (h.ready_iff p).mp hp with ⟨i, hi, hzero, heq⟩
  have hposition : position p = i := by
    rw [heq]
    rfl
  -- The position itself no longer counts, but its successors have not been told.
  have hperm := perm_remaining_place (hposition ▸ hi)
  refine ⟨?_, ?_, h.nodup.erase _, ?_⟩
  · intro j hj
    refine (h.waits j hj).trans (congrArg some ?_)
    rw [← hperm.countP_eq, List.countP_cons, List.count_nil, (hnodup _).count]
    simp
  · intro q
    rw [Countdown.place, h.nodup.mem_erase_iff, h.ready_iff]
    constructor
    · rintro ⟨hne, j, hj, hjzero, rfl⟩
      refine ⟨j, mem_remaining_place.mpr ⟨hj, ?_⟩, hjzero, rfl⟩
      rintro rfl
      exact hne (by rw [hposition, heq])
    · rintro ⟨j, hj, hjzero, rfl⟩
      rcases mem_remaining_place.mp hj with ⟨hj, hne⟩
      exact ⟨fun heq' => hne (congrArg position heq'), j, hj, hjzero, rfl⟩
  · intro j hj
    rcases List.mem_append.mp hj with hj | hj
    · exact h.placed j hj
    · rw [List.mem_singleton.mp hj, hposition]
      exact hzero

end Counts

/-!
## Countdown of candidates
-/

section Candidates

variable {α : Type} {seq : Nat -> Nat} {successors : Nat -> List Nat} {items : List α}
  {cs : List (Candidate α)} {s : Countdown}

/-- The candidates are the items, each at its position, and each comes after those whose
successor it is. -/
structure Describes (seq : Nat -> Nat) (successors : Nat -> List Nat) (items : List α)
    (cs : List (Candidate α)) : Prop where
  positions : cs.map (·.position) = List.range items.length
  item : forall c, c ∈ cs -> items[c.position]? = some c.item
  seq_eq : forall c, c ∈ cs -> c.seq = seq c.position
  after_iff : forall a b, a ∈ cs -> b ∈ cs ->
    (a.position ∈ b.after ↔ b.position ∈ successors a.position)
  nodup : forall i, (successors i).Nodup
  lt_length : forall i j, j ∈ successors i -> j < items.length

def left (cs : List (Candidate α)) (s : Countdown) : List (Candidate α) :=
  cs.filter (·.position ∉ s.placed)

theorem mem_left {c : Candidate α} : c ∈ left cs s ↔ c ∈ cs ∧ c.position ∉ s.placed := by
  simp [left]

theorem Describes.mem_remaining (hd : Describes seq successors items cs) {j : Nat} :
    j ∈ s.remaining items.length ↔ exists c, c ∈ left cs s ∧ c.position = j := by
  rw [Countdown.mem_remaining, ← List.mem_range, ← hd.positions, List.mem_map]
  constructor
  · rintro ⟨⟨c, hc, rfl⟩, hnot⟩
    exact ⟨c, mem_left.mpr ⟨hc, hnot⟩, rfl⟩
  · rintro ⟨c, hc, rfl⟩
    exact ⟨⟨c, (mem_left.mp hc).left, rfl⟩, (mem_left.mp hc).right⟩

theorem Describes.sorted_left (hd : Describes seq successors items cs) :
    (left cs s).Pairwise (fun a b => a.position < b.position) := by
  have hrange := List.pairwise_lt_range (n := items.length)
  rw [← hd.positions, List.pairwise_map] at hrange
  exact hrange.sublist List.filter_sublist

theorem Counted.mem_ready_iff (hd : Describes seq successors items cs)
    (h : Counted seq successors items.length [] s) {p : Nat ×ₗ Nat} :
    p ∈ s.ready ↔ exists c, c ∈ left cs s ∧ Candidate.Free (left cs s) c ∧
      p = toLex (c.seq, c.position) := by
  have hfree : forall c, c ∈ left cs s ->
      (s.waits[c.position]? = some 0 ↔ Candidate.Free (left cs s) c) := by
    intro c hc
    have hremaining := hd.mem_remaining.mpr ⟨c, hc, rfl⟩
    rw [h.waits _ (Countdown.mem_remaining.mp hremaining).left, List.count_nil, Nat.add_zero,
      Option.some_inj, List.countP_eq_zero]
    constructor
    · intro hzero a ha hafter
      refine hzero a.position (hd.mem_remaining.mpr ⟨a, ha, rfl⟩) (decide_eq_true ?_)
      exact (hd.after_iff a c (mem_left.mp ha).left (mem_left.mp hc).left).mp hafter
    · intro hfree i hi hsuccessor
      rcases hd.mem_remaining.mp hi with ⟨a, ha, rfl⟩
      refine hfree a ha ((hd.after_iff a c (mem_left.mp ha).left (mem_left.mp hc).left).mpr ?_)
      exact of_decide_eq_true hsuccessor
  rw [h.ready_iff]
  constructor
  · rintro ⟨j, hj, hzero, rfl⟩
    rcases hd.mem_remaining.mp hj with ⟨c, hc, rfl⟩
    exact ⟨c, hc, (hfree c hc).mp hzero, by rw [hd.seq_eq c (mem_left.mp hc).left]⟩
  · rintro ⟨c, hc, hcfree, rfl⟩
    refine ⟨c.position, hd.mem_remaining.mpr ⟨c, hc, rfl⟩, (hfree c hc).mpr hcfree, ?_⟩
    rw [hd.seq_eq c (mem_left.mp hc).left]

/-- The least position on the heap is that of the candidate that goes next. -/
theorem Counted.min?_ready (hd : Describes seq successors items cs)
    (h : Counted seq successors items.length [] s) :
    s.ready.min? = (Candidate.next? (left cs s)).map fun c => toLex (c.seq, c.position) := by
  cases hnext : Candidate.next? (left cs s) with
  | none =>
      refine List.min?_eq_none_iff.mpr (List.eq_nil_iff_forall_not_mem.mpr ?_)
      intro p hp
      rcases (h.mem_ready_iff hd).mp hp with ⟨c, hc, hfree, _⟩
      rcases Candidate.next?_ok hc hfree with ⟨c', hc', _⟩
      rw [hnext] at hc'
      cases hc'
  | some c =>
      rcases Candidate.next?_first (hd.sorted_left.imp Nat.le_of_lt) hnext with ⟨hc, hfirst⟩
      refine List.min?_eq_some_iff.mpr ⟨(h.mem_ready_iff hd).mpr ⟨c, hc, hfirst.free, rfl⟩, ?_⟩
      intro p hp
      rcases (h.mem_ready_iff hd).mp hp with ⟨d, hdleft, hfree, rfl⟩
      exact Prod.Lex.toLex_le_toLex.mpr (hfirst.ahead d hdleft hfree)

theorem run_of_none (hleast : s.ready.min? = none) : run seq successors s = some s.placed := by
  rw [run]
  split
  · rfl
  · next hsome =>
      rw [hleast] at hsome
      cases hsome

theorem run_of_some {p : Nat ×ₗ Nat} {s' : Countdown} (hleast : s.ready.min? = some p)
    (hrelease : (successors (position p)).foldlM (release seq) (s.place p) = some s') :
    run seq successors s = run seq successors s' := by
  rw [run]
  split
  · next hnone =>
      rw [hleast] at hnone
      cases hnone
  · next hsome =>
      cases hleast.symm.trans hsome
      split
      · next hnone =>
          rw [hrelease] at hnone
          cases hnone
      · next hsome' =>
          cases hrelease.symm.trans hsome'
          rfl

/-- No count goes below zero, and the positions that are placed are those of the candidates that
are taken.  If some are not placed, there are not enough candidates to take. -/
theorem Counted.run_eq (hd : Describes seq successors items cs)
    (h : Counted seq successors items.length [] s) :
    exists order, run seq successors s = some (s.placed ++ order) ∧
      Candidate.arrange (left cs s).length (left cs s) =
        if order.length = (left cs s).length then some (order.filterMap (items[·]?)) else none := by
  induction hn : (left cs s).length generalizing s with
  | zero =>
      have hnone : s.ready.min? = none := by
        rw [h.min?_ready hd, List.length_eq_zero_iff.mp hn]
        rfl
      refine ⟨[], ?_, rfl⟩
      rw [run_of_none hnone, List.append_nil]
  | succ n ih =>
      have hleast := h.min?_ready hd
      cases hnext : Candidate.next? (left cs s) with
      | none =>
          rw [hnext] at hleast
          refine ⟨[], by rw [run_of_none hleast, List.append_nil], ?_⟩
          rw [Candidate.arrange, hnext]
          rfl
      | some c =>
          rw [hnext] at hleast
          have hc := (Candidate.next?_first (hd.sorted_left.imp Nat.le_of_lt) hnext).left
          have hnodup : ((left cs s).map (·.position)).Nodup :=
            List.pairwise_map.mpr (hd.sorted_left.imp Nat.ne_of_lt)
          have hready := (List.min?_eq_some_iff.mp hleast).left
          rcases (h.place hd.nodup hready).releaseAll (fun j hj => hd.lt_length _ j hj)
            with ⟨s', hrelease, hplaced, h'⟩
          have hplaced' : s'.placed = s.placed ++ [c.position] := hplaced
          have hleft : (left cs s).filter (·.position != c.position) = left cs s' := by
            rw [left, left, List.filter_filter, hplaced']
            refine List.filter_congr fun a _ => Bool.eq_iff_iff.mpr ?_
            simp [and_comm]
          have hlength := Candidate.length_filter_of_mem hnodup hc hn
          rw [hleft] at hlength
          rcases ih h' hlength with ⟨order, hrun, harrange⟩
          refine ⟨c.position :: order, ?_, ?_⟩
          · rw [run_of_some hleast hrelease, hrun, hplaced']
            simp
          · have hitem : items[c.position]? = some c.item :=
              hd.item c (mem_left.mp hc).left
            rw [Candidate.arrange, hnext]
            show (Candidate.arrange n ((left cs s).filter (·.position != c.position)) >>=
              fun rest => some (c.item :: rest)) = _
            rw [hleft, harrange, List.length_cons, List.filterMap_cons_some hitem]
            by_cases hall : order.length = n
            · rw [if_pos hall, if_pos (congrArg (· + 1) hall)]
              rfl
            · rw [if_neg hall, if_neg fun heq => hall (Nat.succ.inj heq)]
              rfl

end Candidates

end Countdown

namespace Graph

variable {ρ : Type} {g : Graph ρ}

/-!
## Countdown of pending nodes
-/

def seqAt (g : Graph ρ) (i : Nat) : Nat := (g.pending[i]?.map (·.seq)).getD 0

def successors (g : Graph ρ) (i : Nat) : List Nat :=
  match g.pending[i]? with
  | some v => (OrderedSet.ofList (v.outputs.neighbors.filterMap (g.pendingKeys.idxOf? ·))).toList
  | none => []

theorem nodup_successors (g : Graph ρ) (i : Nat) : (g.successors i).Nodup := by
  rw [successors]
  split
  · exact OrderedSet.nodup _
  · exact List.nodup_nil

theorem mem_successors {i j : Nat} : j ∈ g.successors i ↔ exists v, g.pending[i]? = some v ∧
    exists k, k ∈ v.outputs.neighbors ∧ g.pendingKeys.idxOf? k = some j := by
  rw [successors]
  split
  · next v hv =>
      rw [← OrderedSet.mem_def, OrderedSet.mem_ofList, List.mem_filterMap, hv]
      simp
  · next hnone =>
      rw [hnone]
      simp

theorem idxOf?_pendingKeys (hkeys : g.keys.Nodup) {c : Candidate (Vertex ρ)}
    (hc : c ∈ g.candidates) {k : NodeKey} :
    g.pendingKeys.idxOf? k = some c.position ↔ k = c.item.key := by
  have hat : g.pendingKeys[c.position]? = some c.item.key := by
    rw [pendingKeys, List.getElem?_map, (mem_candidates hc).left]
    rfl
  rcases List.getElem?_eq_some_iff.mp hat with ⟨hlt, hget⟩
  rw [List.idxOf?_eq_some_iff]
  constructor
  · rintro ⟨_, hk, _⟩
    exact hk.symm.trans hget
  · rintro rfl
    refine ⟨hlt, hget, ?_⟩
    intro j hj heq
    exact Nat.ne_of_lt hj
      ((nodup_pendingKeys hkeys).getElem_inj_iff.mp (heq.trans hget.symm))

theorem describes (hkeys : g.keys.Nodup) :
    Countdown.Describes g.seqAt g.successors g.pending g.candidates := by
  refine ⟨g.map_position_candidates, fun c hc => (mem_candidates hc).left, ?_, ?_,
    g.nodup_successors, ?_⟩
  · intro c hc
    rcases mem_candidates hc with ⟨hat, hseq, _⟩
    rw [seqAt, hat, hseq]
    rfl
  · intro a b ha hb
    have hat := (mem_candidates ha).left
    rw [position_mem_after_iff hkeys ha hb, exists_leaves_iff hkeys (item_mem_pending ha),
      mem_successors]
    constructor
    · intro hin
      exact ⟨a.item, hat, b.item.key, hin, (idxOf?_pendingKeys hkeys hb).mpr rfl⟩
    · rintro ⟨v, hv, k, hk, hindex⟩
      cases hat.symm.trans hv
      rw [← (idxOf?_pendingKeys hkeys hb).mp hindex]
      exact hk
  · intro i j hj
    rcases mem_successors.mp hj with ⟨_, _, k, _, hk⟩
    rcases List.idxOf?_eq_some_iff.mp hk with ⟨hlt, _⟩
    simpa [pendingKeys] using hlt

/-- The countdown of the pending nodes goes through, and the sort puts them in the order in which
it places them.  It fails exactly if some are not placed. -/
theorem sortPending_eq_countdown (hkeys : g.keys.Nodup) :
    exists order, Countdown.run g.seqAt g.successors
        (Countdown.start g.seqAt g.successors g.pending.length) = some order ∧
      g.sortPending =
        if order.length = g.pending.length then
          .ok { g with pending := order.filterMap (g.pending[·]?) }.renumberPending
        else
          .error .pendingCycle := by
  have hd := describes hkeys
  rcases (Countdown.counted_start g.nodup_successors).run_eq hd with ⟨order, hrun, harrange⟩
  have hleft : Countdown.left g.candidates
      (Countdown.start g.seqAt g.successors g.pending.length) = g.candidates := by
    simp [Countdown.left, Countdown.start]
  rw [hleft, length_candidates] at harrange
  refine ⟨order, hrun, ?_⟩
  rw [sortPending, harrange]
  by_cases hall : order.length = g.pending.length
  · rw [if_pos hall, if_pos hall]
  · rw [if_neg hall, if_neg hall]

end Graph

end LaunchGraph
