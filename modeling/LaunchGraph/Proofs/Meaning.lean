import LaunchGraph.Bank
import LaunchGraph.Proofs.Precedence
import Mathlib.Data.List.Nodup
import Mathlib.Data.List.Perm.Basic

/-!
# What records mean

Running a record changes what the states hold.  What it does depends on the inputs of
its task only, and it changes the outputs of its task only.  Beside that a launch may
have effects that no state shows; for these it matters what the inputs held when the
launch ran.

Records in a batch need not be the ones that were launched.  A recipe says how a bank
made a record out of launches, and thereby which launches run when the record does.
Records without a hazard between them may run in either order.
-/

namespace LaunchGraph

abbrev Store (V : Type) := State -> V

structure Meaning {ρ : Type} (bank : Bank ρ) (V : Type) where
  run : ρ -> Store V -> Store V
  /-- What the outputs hold afterwards depends on the inputs only. -/
  reads_inputs : forall r σ τ, (forall s, s ∈ (bank.describe r).task.inputs -> σ s = τ s) ->
    forall s, s ∈ (bank.describe r).task.outputs -> run r σ s = run r τ s
  /-- Any other state keeps what it holds. -/
  writes_outputs : forall r σ s, s ∉ (bank.describe r).task.outputs -> run r σ s = σ s

namespace Meaning

variable {ρ V : Type} {bank : Bank ρ}

/-- The bank fuses and strips records the way it says. -/
structure Faithful (m : Meaning bank V) : Prop where
  fuse_run : forall a b c, bank.fuse a b = some c -> forall σ, m.run c σ = m.run b (m.run a σ)
  fuse_inputs : forall a b c, bank.fuse a b = some c -> forall s,
    s ∈ (bank.describe c).task.inputs ↔
      s ∈ (bank.describe a).task.inputs ∨ s ∈ (bank.describe b).task.inputs
  fuse_outputs : forall a b c, bank.fuse a b = some c -> forall s,
    s ∈ (bank.describe c).task.outputs ↔
      s ∈ (bank.describe a).task.outputs ∨ s ∈ (bank.describe b).task.outputs
  fuse_sideEffects : forall a b c, bank.fuse a b = some c ->
    (bank.describe c).task.sideEffects
      = ((bank.describe a).task.sideEffects || (bank.describe b).task.sideEffects)
  strip_run : forall a dead c, bank.eliminateStores a dead = some c -> forall σ s,
    m.run c σ s = if s ∈ dead then σ s else m.run a σ s
  strip_inputs : forall a dead c, bank.eliminateStores a dead = some c ->
    (bank.describe c).task.inputs = (bank.describe a).task.inputs
  strip_outputs : forall a dead c, bank.eliminateStores a dead = some c -> forall s,
    s ∈ (bank.describe c).task.outputs ↔ s ∈ (bank.describe a).task.outputs ∧ s ∉ dead
  strip_sideEffects : forall a dead c, bank.eliminateStores a dead = some c ->
    (bank.describe c).task.sideEffects = (bank.describe a).task.sideEffects

/-- Stores that agree on the inputs of a record, and on a state unless the record
writes it, agree on the state after the record has run. -/
theorem run_congr (m : Meaning bank V) {r : ρ} {σ τ : Store V} {s : State}
    (hinputs : forall t, t ∈ (bank.describe r).task.inputs -> σ t = τ t)
    (hs : s ∉ (bank.describe r).task.outputs -> σ s = τ s) : m.run r σ s = m.run r τ s := by
  by_cases hout : s ∈ (bank.describe r).task.outputs
  · exact m.reads_inputs r σ τ hinputs s hout
  · rw [m.writes_outputs r σ s hout, m.writes_outputs r τ s hout, hs hout]

def seen (_m : Meaning bank V) (r : ρ) (σ : Store V) : State -> Option V :=
  fun s => if s ∈ (bank.describe r).task.inputs then some (σ s) else none

theorem seen_congr (m : Meaning bank V) {r : ρ} {σ τ : Store V}
    (h : forall t, t ∈ (bank.describe r).task.inputs -> σ t = τ t) : m.seen r σ = m.seen r τ := by
  funext s
  rw [seen, seen]
  by_cases hs : s ∈ (bank.describe r).task.inputs
  · rw [if_pos hs, if_pos hs, h s hs]
  · rw [if_neg hs, if_neg hs]

end Meaning

/-!
## Recipes
-/

/-- How a record comes about, starting from launches. -/
inductive Recipe (ρ : Type) where
  | launch (place : Nat) (record : ρ)
  | fuse (first next : Recipe ρ) (record : ρ)
  | strip (before : Recipe ρ) (dead : StateSet) (record : ρ)

structure Effect (V : Type) where
  place : Nat
  seen : State -> Option V

namespace Recipe

variable {ρ V : Type}

def record : Recipe ρ -> ρ
  | launch _ r => r
  | fuse _ _ r => r
  | strip _ _ r => r

/-- The launches are those of a list, and the bank made all the rest. -/
inductive Made (bank : Bank ρ) (launches : List ρ) : Recipe ρ -> Prop where
  | launch {place : Nat} {r : ρ} (launched : launches[place]? = some r) :
      Made bank launches (.launch place r)
  | fuse {first next : Recipe ρ} {r : ρ} (first_made : Made bank launches first)
      (next_made : Made bank launches next)
      (fused : bank.fuse first.record next.record = some r) :
      Made bank launches (.fuse first next r)
  | strip {before : Recipe ρ} {dead : StateSet} {r : ρ} (before_made : Made bank launches before)
      (stripped : bank.eliminateStores before.record dead = some r) :
      Made bank launches (.strip before dead r)

theorem Made.append {bank : Bank ρ} {launches : List ρ} {p : Recipe ρ}
    (h : p.Made bank launches) (more : List ρ) : p.Made bank (launches ++ more) := by
  induction h with
  | launch launched =>
      refine .launch ?_
      rcases List.getElem?_eq_some_iff.mp launched with ⟨hlt, _⟩
      rw [List.getElem?_append_left hlt]
      exact launched
  | fuse _ _ fused ih1 ih2 => exact .fuse ih1 ih2 fused
  | strip _ stripped ih => exact .strip ih stripped

variable {bank : Bank ρ}

def effects (m : Meaning bank V) : Recipe ρ -> Store V -> List (Effect V)
  | launch place r, σ =>
      if (bank.describe r).task.sideEffects then [⟨place, m.seen r σ⟩] else []
  | fuse first next _, σ => first.effects m σ ++ next.effects m (m.run first.record σ)
  | strip before _ _, σ => before.effects m σ

variable {m : Meaning bank V} {launches : List ρ}

theorem Made.effects_congr (hm : m.Faithful) {p : Recipe ρ} (h : p.Made bank launches)
    {σ τ : Store V} (hστ : forall s, s ∈ (bank.describe p.record).task.inputs -> σ s = τ s) :
    p.effects m σ = p.effects m τ := by
  induction h generalizing σ τ with
  | @launch place r launched =>
      have hseen : m.seen r σ = m.seen r τ := m.seen_congr hστ
      rw [effects, effects, hseen]
  | @fuse first next r _ _ fused ih1 ih2 =>
      have hfirst : forall s, s ∈ (bank.describe first.record).task.inputs -> σ s = τ s :=
        fun s hs => hστ s ((hm.fuse_inputs _ _ _ fused s).mpr (Or.inl hs))
      have hnext : forall s, s ∈ (bank.describe next.record).task.inputs ->
          m.run first.record σ s = m.run first.record τ s :=
        fun s hs => m.run_congr hfirst
          fun _ => hστ s ((hm.fuse_inputs _ _ _ fused s).mpr (Or.inr hs))
      rw [effects, effects, ih1 hfirst, ih2 hnext]
  | strip _ stripped ih =>
      rw [effects, effects]
      refine ih fun s hs => hστ s ?_
      rw [record, hm.strip_inputs _ _ _ stripped]
      exact hs

theorem Made.effects_nil (hm : m.Faithful) {p : Recipe ρ} (h : p.Made bank launches)
    (hquiet : (bank.describe p.record).task.sideEffects = false) (σ : Store V) :
    p.effects m σ = [] := by
  induction h generalizing σ with
  | launch launched =>
      rw [record] at hquiet
      rw [effects, hquiet]
      rfl
  | fuse _ _ fused ih1 ih2 =>
      rw [record, hm.fuse_sideEffects _ _ _ fused, Bool.or_eq_false_iff] at hquiet
      rw [effects, ih1 hquiet.left, ih2 hquiet.right]
      rfl
  | strip _ stripped ih =>
      rw [record, hm.strip_sideEffects _ _ _ stripped] at hquiet
      rw [effects, ih hquiet]

end Recipe

/-!
## Runs
-/

namespace Meaning

variable {ρ V : Type} {bank : Bank ρ}

def runs (m : Meaning bank V) (records : List ρ) (σ : Store V) : Store V :=
  records.foldl (fun σ r => m.run r σ) σ

def effects (m : Meaning bank V) : List (Recipe ρ) -> Store V -> List (Effect V)
  | [], _ => []
  | p :: rest, σ => p.effects m σ ++ m.effects rest (m.run p.record σ)

theorem runs_append (m : Meaning bank V) (xs ys : List ρ) (σ : Store V) :
    m.runs (xs ++ ys) σ = m.runs ys (m.runs xs σ) :=
  List.foldl_append

theorem effects_append (m : Meaning bank V) (ps qs : List (Recipe ρ)) (σ : Store V) :
    m.effects (ps ++ qs) σ = m.effects ps σ ++ m.effects qs (m.runs (ps.map (·.record)) σ) := by
  induction ps generalizing σ with
  | nil => rfl
  | cons p ps ih =>
      rw [List.cons_append, effects, effects, ih, List.append_assoc]
      rfl

/-- From a store, both lists leave the same store, and every launch with side effects
that runs in one of them runs in the other as well and sees the same. -/
structure Same (m : Meaning bank V) (σ : Store V) (ps qs : List (Recipe ρ)) : Prop where
  store : m.runs (ps.map (·.record)) σ = m.runs (qs.map (·.record)) σ
  effects : (m.effects ps σ).Perm (m.effects qs σ)

namespace Same

variable {m : Meaning bank V} {σ : Store V} {ps qs rs us : List (Recipe ρ)}

theorem refl (m : Meaning bank V) (σ : Store V) (ps : List (Recipe ρ)) : m.Same σ ps ps :=
  ⟨rfl, List.Perm.refl _⟩

theorem trans (h1 : m.Same σ ps qs) (h2 : m.Same σ qs rs) : m.Same σ ps rs :=
  ⟨h1.store.trans h2.store, h1.effects.trans h2.effects⟩

theorem append (h1 : m.Same σ ps qs) (h2 : forall τ, m.Same τ rs us) :
    m.Same σ (ps ++ rs) (qs ++ us) := by
  constructor
  · rw [List.map_append, List.map_append, runs_append, runs_append, h1.store, (h2 _).store]
  · rw [effects_append, effects_append, h1.store]
    exact h1.effects.append (h2 _).effects

theorem append_right (h : m.Same σ ps qs) (rs : List (Recipe ρ)) :
    m.Same σ (ps ++ rs) (qs ++ rs) :=
  h.append fun τ => refl m τ rs

end Same

/-!
## Changing the order
-/

def Independent (bank : Bank ρ) (a b : ρ) : Prop :=
  forall s, s ∉ (bank.describe a).task.hazards (bank.describe b).task

namespace Independent

variable {a b : ρ} (h : Independent bank a b)

include h

theorem symm : Independent bank b a := by
  intro s hs
  refine h s (Task.mem_hazards.mpr ?_)
  rcases Task.mem_hazards.mp hs with ⟨hb, ha⟩ | ⟨hb, ha⟩ | ⟨hb, ha⟩
  · exact Or.inr (Or.inr ⟨ha, hb⟩)
  · exact Or.inr (Or.inl ⟨ha, hb⟩)
  · exact Or.inl ⟨ha, hb⟩

theorem input_unwritten {s : State} (hs : s ∈ (bank.describe b).task.inputs) :
    s ∉ (bank.describe a).task.outputs :=
  fun ha => h s (Task.mem_hazards.mpr (Or.inl ⟨ha, hs⟩))

theorem output_unwritten {s : State} (hs : s ∈ (bank.describe b).task.outputs) :
    s ∉ (bank.describe a).task.outputs :=
  fun ha => h s (Task.mem_hazards.mpr (Or.inr (Or.inl ⟨ha, hs⟩)))

theorem run_eq (m : Meaning bank V) (σ : Store V) {s : State}
    (hs : s ∉ (bank.describe a).task.outputs) : m.run b (m.run a σ) s = m.run b σ s :=
  m.run_congr (fun _ ht => m.writes_outputs a σ _ (h.input_unwritten ht))
    fun _ => m.writes_outputs a σ s hs

theorem run_comm (m : Meaning bank V) (σ : Store V) :
    m.run b (m.run a σ) = m.run a (m.run b σ) := by
  funext s
  by_cases ha : s ∈ (bank.describe a).task.outputs
  · have hb : s ∉ (bank.describe b).task.outputs := h.symm.output_unwritten ha
    rw [h.symm.run_eq m σ hb, m.writes_outputs b _ s hb]
  · rw [h.run_eq m σ ha, m.writes_outputs a _ s ha]

end Independent

namespace Same

variable {m : Meaning bank V} {launches : List ρ}

theorem swap (hm : m.Faithful) {p q : Recipe ρ} (hp : p.Made bank launches)
    (hq : q.Made bank launches) (h : Independent bank p.record q.record) (σ : Store V) :
    m.Same σ [p, q] [q, p] := by
  constructor
  · exact h.run_comm m σ
  · have hqσ : q.effects m (m.run p.record σ) = q.effects m σ :=
      hq.effects_congr hm fun _ hs => m.writes_outputs _ σ _ (h.input_unwritten hs)
    have hpσ : p.effects m (m.run q.record σ) = p.effects m σ :=
      hp.effects_congr hm fun _ hs => m.writes_outputs _ σ _ (h.symm.input_unwritten hs)
    rw [Meaning.effects, Meaning.effects, Meaning.effects, Meaning.effects, Meaning.effects,
      Meaning.effects, hqσ, hpσ, List.append_nil, List.append_nil]
    exact List.perm_append_comm

theorem move_front (hm : m.Faithful) {p : Recipe ρ} {ps : List (Recipe ρ)}
    (hp : p.Made bank launches) (hps : forall q, q ∈ ps -> q.Made bank launches)
    (h : forall q, q ∈ ps -> Independent bank p.record q.record) (σ : Store V) :
    m.Same σ (ps ++ [p]) (p :: ps) := by
  induction ps generalizing σ with
  | nil => exact refl m σ [p]
  | cons q ps ih =>
      have hq := List.mem_cons_self (a := q) (l := ps)
      have hrest := fun τ => ih (fun q hq => hps q (List.mem_cons_of_mem _ hq))
        (fun q hq => h q (List.mem_cons_of_mem _ hq)) τ
      have hfirst : m.Same σ ([q] ++ (ps ++ [p])) ([q] ++ (p :: ps)) :=
        (refl m σ [q]).append hrest
      have hswap := swap hm (hps q hq) hp (h q hq).symm σ
      exact hfirst.trans (hswap.append_right ps)

end Same

/-- Records may change their order as long as those with a hazard between them keep
theirs.  The induction takes the first record of the old order to the front: whatever
stands before it in the new order comes after it in the old one, and so is independent
of it. -/
theorem same_of_order {m : Meaning bank V} (hm : m.Faithful) {launches : List ρ} {α : Type}
    {recipe : α -> Recipe ρ} {xs ys : List α} (hperm : ys.Perm xs) (hnodup : xs.Nodup)
    (hmade : forall x, x ∈ xs -> (recipe x).Made bank launches)
    (horder : forall x y, ComesBefore xs x y ->
      ¬Independent bank (recipe x).record (recipe y).record -> ComesBefore ys x y)
    (σ : Store V) : m.Same σ (ys.map recipe) (xs.map recipe) := by
  induction xs generalizing ys σ with
  | nil =>
      rw [List.perm_nil.mp hperm]
      exact Same.refl m σ []
  | cons x xs ih =>
      have hnodup' := List.nodup_cons.mp hnodup
      rcases List.append_of_mem (hperm.symm.subset (List.mem_cons_self ..)) with ⟨as, bs, rfl⟩
      have hperm' : (as ++ bs).Perm xs :=
        List.Perm.cons_inv (List.perm_middle.symm.trans hperm)
      have hys : (as ++ x :: bs).Nodup := hperm.nodup_iff.mpr hnodup
      have hafter : forall y, y ∈ as -> y ∈ xs :=
        fun y hy => hperm'.subset (List.mem_append_left _ hy)
      have hfree : forall y, y ∈ as -> Independent bank (recipe x).record (recipe y).record := by
        intro y hy
        by_contra hdependent
        have hxy := horder x y (ComesBefore.cons_iff.mpr (Or.inl ⟨rfl, hafter y hy⟩)) hdependent
        refine hxy.asymm hys (ComesBefore.append_iff.mpr (Or.inr (Or.inl ⟨hy, ?_⟩)))
        exact List.mem_cons_self ..
      have horder' : forall y z, ComesBefore xs y z ->
          ¬Independent bank (recipe y).record (recipe z).record -> ComesBefore (as ++ bs) y z := by
        intro y z hyz hdependent
        have hkept := horder y z (ComesBefore.cons_iff.mpr (Or.inr hyz)) hdependent
        have hy : y ≠ x := fun heq => hnodup'.left (heq ▸ hyz.left_mem)
        have hz : z ≠ x := fun heq => hnodup'.left (heq ▸ hyz.right_mem)
        exact hkept.remove_middle hy hz
      have hmade' : forall y, y ∈ xs -> (recipe y).Made bank launches :=
        fun y hy => hmade y (List.mem_cons_of_mem _ hy)
      have hfront : m.Same σ (as.map recipe ++ [recipe x]) (recipe x :: as.map recipe) := by
        refine Same.move_front hm (hmade x (List.mem_cons_self ..)) ?_ ?_ σ
        · intro q hq
          rcases List.mem_map.mp hq with ⟨y, hy, rfl⟩
          exact hmade' y (hafter y hy)
        · intro q hq
          rcases List.mem_map.mp hq with ⟨y, hy, rfl⟩
          exact hfree y hy
      have hmoved : m.Same σ ((as ++ x :: bs).map recipe) (recipe x :: (as ++ bs).map recipe) := by
        have hall := hfront.append_right (bs.map recipe)
        rw [List.append_assoc, List.singleton_append, List.cons_append] at hall
        rw [List.map_append, List.map_append, List.map_cons]
        exact hall
      have hrest := fun τ => ih hperm' hnodup'.right hmade' horder' τ
      exact hmoved.trans ((Same.refl m σ [recipe x]).append hrest)

end Meaning

end LaunchGraph
