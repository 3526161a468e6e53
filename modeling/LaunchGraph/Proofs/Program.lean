import LaunchGraph.Proofs.Meaning

/-!
# Programs as records

For any bank and any meaning of its records there is a bank that fuses and strips
whatever it is given, faithfully: its records are programs, which spell out what is to
be done with the records of the other bank.
-/

namespace LaunchGraph

/-- A record that says what it runs: the record of another bank, two programs one after
the other, or a program without its stores to some states. -/
inductive Program (ρ : Type) where
  | launch (record : ρ)
  | seq (first next : Program ρ)
  | discard (before : Program ρ) (dead : StateSet)

namespace Program

variable {ρ V : Type}

def task (bank : Bank ρ) : Program ρ -> Task
  | launch record => (bank.describe record).task
  | seq first next =>
      { first.task bank with
        inputs := (first.task bank).inputs ∪ (next.task bank).inputs
        outputs := (first.task bank).outputs ∪ (next.task bank).outputs
        sideEffects := (first.task bank).sideEffects || (next.task bank).sideEffects }
  | discard before dead =>
      { before.task bank with outputs := (before.task bank).outputs \ dead }

def records : Program ρ -> List ρ
  | launch record => [record]
  | seq first next => first.records ++ next.records
  | discard before _ => before.records

def bank (bank : Bank ρ) : Bank (Program ρ) where
  describe p := ⟨p.task bank, none⟩
  fuse first next := some (.seq first next)
  eliminateStores p dead := some (.discard p dead)
  analyze p := some (p.task bank)

theorem records_fuse {base : Bank ρ} {a b c : Program ρ} (h : (bank base).fuse a b = some c) :
    c.records = a.records ++ b.records := by
  cases h
  rfl

variable {base : Bank ρ}

def run (m : Meaning base V) : Program ρ -> Store V -> Store V
  | launch record, σ => m.run record σ
  | seq first next, σ => next.run m (first.run m σ)
  | discard before dead, σ => fun s => if s ∈ dead then σ s else before.run m σ s

theorem run_of_not_mem (m : Meaning base V) (p : Program ρ) (σ : Store V) {s : State}
    (hs : s ∉ (p.task base).outputs) : p.run m σ s = σ s := by
  induction p generalizing σ with
  | launch record => exact m.writes_outputs record σ s hs
  | seq first next ih1 ih2 =>
      rw [task, OrderedSet.mem_union, not_or] at hs
      rw [run, ih2 _ hs.right, ih1 _ hs.left]
  | discard before dead ih =>
      rw [task, OrderedSet.mem_sdiff, not_and, not_not] at hs
      show (if s ∈ dead then σ s else before.run m σ s) = σ s
      by_cases hdead : s ∈ dead
      · exact if_pos hdead
      · rw [if_neg hdead]
        exact ih σ fun hin => hdead (hs hin)

theorem run_of_agree (m : Meaning base V) (p : Program ρ) {σ τ : Store V}
    (h : forall s, s ∈ (p.task base).inputs -> σ s = τ s) {s : State}
    (hs : s ∈ (p.task base).outputs) : p.run m σ s = p.run m τ s := by
  induction p generalizing σ τ s with
  | launch record => exact m.reads_inputs record σ τ h s hs
  | seq first next ih1 ih2 =>
      rw [task] at h hs
      have hfirst : forall t, σ t = τ t ∨ t ∈ (first.task base).outputs ->
          first.run m σ t = first.run m τ t := by
        intro t ht
        by_cases hout : t ∈ (first.task base).outputs
        · exact ih1 (fun u hu => h u (OrderedSet.mem_union.mpr (Or.inl hu))) hout
        · rw [run_of_not_mem m first σ hout, run_of_not_mem m first τ hout]
          exact ht.resolve_right hout
      rw [run, run]
      by_cases hnext : s ∈ (next.task base).outputs
      · refine ih2 (fun t ht => hfirst t (Or.inl (h t ?_))) hnext
        exact OrderedSet.mem_union.mpr (Or.inr ht)
      · rw [run_of_not_mem m next _ hnext, run_of_not_mem m next _ hnext]
        exact hfirst s (Or.inr ((OrderedSet.mem_union.mp hs).resolve_right hnext))
  | discard before dead ih =>
      rw [task, OrderedSet.mem_sdiff] at hs
      show (if s ∈ dead then σ s else before.run m σ s)
        = (if s ∈ dead then τ s else before.run m τ s)
      rw [if_neg hs.right, if_neg hs.right]
      exact ih h hs.left

def meaning (m : Meaning base V) : Meaning (bank base) V where
  run p := p.run m
  reads_inputs p _ _ h _ hs := run_of_agree m p h hs
  writes_outputs p σ _ hs := run_of_not_mem m p σ hs

theorem meaning_faithful (m : Meaning base V) : (meaning m).Faithful where
  fuse_run a b c h σ := by
    cases h
    rfl
  fuse_inputs a b c h s := by
    cases h
    exact OrderedSet.mem_union
  fuse_outputs a b c h s := by
    cases h
    exact OrderedSet.mem_union
  fuse_sideEffects a b c h := by
    cases h
    rfl
  strip_run a dead c h σ s := by
    cases h
    rfl
  strip_inputs a dead c h := by
    cases h
    rfl
  strip_outputs a dead c h s := by
    cases h
    exact OrderedSet.mem_sdiff
  strip_sideEffects a dead c h := by
    cases h
    rfl

end Program

/-!
## Programs over tasks
-/

def Bank.ofTasks : Bank Task where
  describe t := ⟨t, none⟩

def Bank.tally : Meaning Bank.ofTasks Nat where
  run t σ s := if s ∈ t.outputs then (t.inputs.toList.map σ).foldr (· + ·) 1 else σ s
  reads_inputs t σ τ h s hs := by
    have hs' : s ∈ t.outputs := hs
    have hmap : t.inputs.toList.map σ = t.inputs.toList.map τ :=
      List.map_congr_left fun u hu => h u (OrderedSet.mem_def.mpr hu)
    show (if s ∈ t.outputs then _ else _) = (if s ∈ t.outputs then _ else _)
    rw [if_pos hs', if_pos hs', hmap]
  writes_outputs t σ s hs := if_neg hs

namespace Sample

def cell (n : UInt32) : State := ⟨.snode ⟨n⟩, .value⟩

def fusionKey : FusionKey := ⟨none, .serial, none, 0, false⟩

def fill : Program Task := .launch
  { name := "fill", taskType := .serial, outputs := .ofList [cell 0], fusion := some fusionKey,
    sideEffects := true }

def copy : Program Task := .launch
  { name := "copy", taskType := .serial, inputs := .ofList [cell 0],
    outputs := .ofList [cell 1], fusion := some fusionKey }

def bank : Bank (Program Task) := Program.bank Bank.ofTasks

end Sample

end LaunchGraph
