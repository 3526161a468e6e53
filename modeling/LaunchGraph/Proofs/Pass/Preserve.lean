import LaunchGraph.Proofs.Graph.Grow
import LaunchGraph.Proofs.Meaning
import LaunchGraph.Proofs.Pass.DeadStores
import LaunchGraph.Proofs.Pass.Fusion

/-!
# Fusion and dead store elimination keep the meaning

Both passes turn the pending records into others that, from any store, leave the same
store and run the same launches with side effects on the same inputs.

Fusion puts the records in an order that keeps conflicts, in which each group stands
together.  Dead store elimination takes away only writes that another node overwrites
before any node reads the state.
-/

namespace LaunchGraph

variable {ρ V : Type} {bank : Bank ρ} {m : Meaning bank V} {launches : List ρ}

def Recipe.product (bank : Bank ρ) (p : Recipe ρ) : Option ρ × Task := Graph.launchOf bank p.record

/-- Other recipes with these products do the same from any store. -/
def Remade (m : Meaning bank V) (launches : List ρ) (todo : List (Recipe ρ))
    (products : List (Option ρ × Task)) : Prop :=
  exists todo', products = todo'.map (Recipe.product bank) ∧
    (forall p, p ∈ todo' -> p.Made bank launches) ∧ forall σ, m.Same σ todo' todo

theorem Remade.refl (m : Meaning bank V) {todo : List (Recipe ρ)}
    (hmade : forall p, p ∈ todo -> p.Made bank launches) :
    Remade m launches todo (todo.map (Recipe.product bank)) :=
  ⟨todo, rfl, hmade, fun σ => .refl m σ todo⟩

/-!
## Fusion
-/

theorem FusedFrom.remade (hm : m.Faithful) {parts : List (Option ρ × Task)}
    {p : Option ρ × Task} (h : FusedFrom bank parts p) {todo : List (Recipe ρ)}
    (hparts : parts = todo.map (Recipe.product bank))
    (hmade : forall q, q ∈ todo -> q.Made bank launches) :
    exists q, p = Recipe.product bank q ∧ q.Made bank launches ∧
      forall σ, m.Same σ [q] todo := by
  induction h generalizing todo with
  | single p =>
      rcases List.map_eq_singleton_iff.mp hparts.symm with ⟨q, rfl, rfl⟩
      exact ⟨q, rfl, hmade q (List.mem_singleton.mpr rfl), fun σ => .refl m σ [q]⟩
  | @fuse parts first next fused t u _ _ _ made ih =>
      rcases List.append_eq_map_iff.mp hparts with ⟨before, last, rfl, hbefore, hlast⟩
      rcases List.map_eq_singleton_iff.mp hlast with ⟨q, rfl, hq⟩
      rcases ih hbefore.symm (fun q hq => hmade q (List.mem_append_left _ hq))
        with ⟨q1, hq1, hmade1, hsame1⟩
      have hfirst : q1.record = first := (Option.some.inj (Prod.mk.inj hq1).left).symm
      have hnext : q.record = next := Option.some.inj (Prod.mk.inj hq).left
      rw [← hfirst, ← hnext] at made
      have hmadeq : q.Made bank launches := hmade q (by simp)
      refine ⟨.fuse q1 q fused, rfl, .fuse hmade1 hmadeq made, ?_⟩
      intro σ
      have hboth : m.Same σ [.fuse q1 q fused] [q1, q] := by
        constructor
        · exact hm.fuse_run _ _ _ made σ
        · show (q1.effects m σ ++ q.effects m (m.run q1.record σ) ++ []).Perm
            (q1.effects m σ ++ (q.effects m (m.run q1.record σ) ++ []))
          rw [List.append_assoc]
      exact hboth.trans ((hsame1 σ).append_right [q])

theorem fusedGroups_remade (hm : m.Faithful) {recipe : Vertex ρ -> Recipe ρ}
    {groups : List (List (Vertex ρ))} {products : List (Option ρ × Task)}
    (h : List.Forall₂ (fun group p => FusedFrom bank (group.map (·.launch)) p) groups products)
    (hrecipe : forall v, v ∈ groups.flatten ->
      v.launch = Recipe.product bank (recipe v) ∧ (recipe v).Made bank launches) :
    Remade m launches (groups.flatten.map recipe) products := by
  induction h with
  | nil => exact Remade.refl m fun p hp => absurd hp List.not_mem_nil
  | @cons group p groups products hfused _ ih =>
      have hgroup : forall v, v ∈ group -> v ∈ (group :: groups).flatten :=
        fun v hv => List.mem_append_left _ hv
      rcases ih (fun v hv => hrecipe v (List.mem_append_right _ hv))
        with ⟨todo, rfl, hmade, hsame⟩
      have hparts : group.map (·.launch) = (group.map recipe).map (Recipe.product bank) := by
        rw [List.map_map]
        exact List.map_congr_left fun v hv => (hrecipe v (hgroup v hv)).left
      have hparts_made : forall q, q ∈ group.map recipe -> q.Made bank launches := by
        intro q hq
        rcases List.mem_map.mp hq with ⟨v, hv, rfl⟩
        exact (hrecipe v (hgroup v hv)).right
      rcases hfused.remade hm hparts hparts_made with ⟨q, rfl, hmadeq, hsameq⟩
      refine ⟨q :: todo, rfl, ?_, ?_⟩
      · intro p hp
        rcases List.mem_cons.mp hp with rfl | hp
        · exact hmadeq
        · exact hmade p hp
      · intro σ
        rw [List.flatten_cons, List.map_append]
        exact (hsameq σ).append hsame

theorem exists_map_eq {α β : Type} {xs : List α} {ys : List β} (b : β) (hxs : xs.Nodup)
    (hlength : xs.length = ys.length) : exists f : α -> β, xs.map f = ys := by
  classical
  induction xs generalizing ys with
  | nil => exact ⟨fun _ => b, (List.length_eq_zero_iff.mp hlength.symm).symm⟩
  | cons x xs ih =>
      cases ys with
      | nil => cases hlength
      | cons y ys =>
          rw [List.nodup_cons] at hxs
          rcases ih hxs.right (Nat.succ.inj hlength) with ⟨f, hf⟩
          refine ⟨Function.update f x y, ?_⟩
          rw [List.map_cons, Function.update_self]
          refine congrArg (y :: ·) (Eq.trans (List.map_congr_left fun z hz => ?_) hf)
          have hne : z ≠ x := by
            rintro rfl
            exact hxs.left hz
          exact Function.update_of_ne hne y f

namespace Graph

theorem independent_of_no_conflict {u v : Vertex ρ} {p q : Recipe ρ}
    (hu : u.launch = Recipe.product bank p) (hv : v.launch = Recipe.product bank q)
    (hno : forall t, ¬Conflict u.entry v.entry t) :
    Meaning.Independent bank p.record q.record := by
  have htaskp : u.task = (bank.describe p.record).task := (Prod.mk.inj hu).right
  have htaskq : v.task = (bank.describe q.record).task := (Prod.mk.inj hv).right
  intro t ht
  rw [← htaskp, ← htaskq] at ht
  exact hno t (mem_hazards_iff_conflict.mp ht)

theorem Regrouped.after_nil {g g' : Graph ρ} {groups : List (List (Vertex ρ))}
    (h : Regrouped bank g g' groups) (hnil : groups.flatten = []) :
    g'.pending.map (·.launch) = [] := by
  have hfused := h.fused
  cases groups with
  | nil => exact List.forall₂_nil_left_iff.mp hfused
  | cons group groups =>
      have hgroup : group = [] := (List.append_eq_nil_iff.mp hnil).left
      subst hgroup
      rcases List.forall₂_cons_left_iff.mp hfused with ⟨p, rest, hfirst, _⟩
      exact absurd rfl hfirst.ne_nil

/-- Fusion keeps the meaning of the pending nodes. -/
theorem Regrouped.remade {g g' : Graph ρ} {groups : List (List (Vertex ρ))}
    (h : Regrouped bank g g' groups) (hm : m.Faithful) {origin : State -> NodeKey}
    (hg : g.Built origin) {todo : List (Recipe ρ)}
    (hlaunches : g.pending.map (·.launch) = todo.map (Recipe.product bank))
    (hmade : forall p, p ∈ todo -> p.Made bank launches) :
    Remade m launches todo (g'.pending.map (·.launch)) := by
  have hnodup : g.pending.Nodup := hg.sound.keyed.nodup_pending.of_map _
  have hlength : g.pending.length = todo.length := length_eq_of_map_eq hlaunches
  cases todo with
  | nil =>
      have hnil : groups.flatten = [] :=
        List.perm_nil.mp (List.length_eq_zero_iff.mp hlength ▸ h.perm)
      rw [h.after_nil hnil]
      exact Remade.refl m hmade
  | cons p todo =>
      rcases exists_map_eq p hnodup hlength with ⟨recipe, hrecipe⟩
      rw [← hrecipe, List.map_map] at hlaunches
      have hlaunch : forall v, v ∈ g.pending -> v.launch = Recipe.product bank (recipe v) :=
        fun v hv => List.map_inj_left.mp hlaunches v hv
      have hrecipe_made : forall v, v ∈ g.pending -> (recipe v).Made bank launches := by
        intro v hv
        refine hmade _ ?_
        rw [← hrecipe]
        exact List.mem_map_of_mem hv
      have hgroups : forall v, v ∈ groups.flatten ->
          v.launch = Recipe.product bank (recipe v) ∧ (recipe v).Made bank launches :=
        fun v hv => ⟨hlaunch v (h.perm.subset hv), hrecipe_made v (h.perm.subset hv)⟩
      rcases fusedGroups_remade hm h.fused hgroups with ⟨todo', htodo', hmade', hsame⟩
      refine ⟨todo', htodo', hmade', ?_⟩
      intro σ
      rw [← hrecipe]
      refine (hsame σ).trans (Meaning.same_of_order hm h.perm hnodup hrecipe_made ?_ σ)
      intro u v huv hdependent
      by_cases hconflict : exists t, Conflict u.entry v.entry t
      · rcases hconflict with ⟨t, ht⟩
        exact h.of_path hg.sound huv.left_mem huv.right_mem
          (hg.path_of_conflict (huv.map Vertex.entry) ht)
      · refine absurd (independent_of_no_conflict (hlaunch u huv.left_mem)
          (hlaunch v huv.right_mem) ?_) hdependent
        exact fun t ht => hconflict ⟨t, ht⟩

end Graph

/-!
## Dead stores
-/

/-- The next of some nodes that touches a state writes it without reading it. -/
def Overwritten (s : State) : List (Vertex ρ) -> Prop
  | [] => False
  | v :: rest => v.task.reads s = false ∧ (v.task.writes s = true ∨ Overwritten s rest)

namespace Graph

theorem DeadAt.not_owner {g : Graph ρ} {v : Vertex ρ} {s : State} (h : g.DeadAt v.key s)
    (hg : g.Sound) (hv : v ∈ g.pending) : g.ownerOrInitial s ≠ v.key := by
  rw [ownerOrInitial]
  cases ho : g.owners.get? s with
  | none =>
      intro heq
      have hpending : v.key ∈ g.pendingKeys := List.mem_map_of_mem hv
      rw [← heq] at hpending
      exact hg.keyed.initial_not_pending hpending
  | some k =>
      intro heq
      refine h.left ?_
      rw [ho]
      exact congrArg some heq

theorem DeadAt.not_reads {g : Graph ρ} {origin : State -> NodeKey} (hg : g.Built origin)
    {v w : Vertex ρ} {s : State} (h : g.DeadAt v.key s) {before after : List (Vertex ρ)}
    (hsplit : g.pending = before ++ w :: after)
    (hnearest : NearestWriter origin s (before.map Vertex.entry) v.key) :
    w.task.reads s = false := by
  have hw : w ∈ g.pending := by
    rw [hsplit]
    simp
  rw [← Bool.not_eq_true]
  intro hreads
  have henters : g.Enters v.key w.key s := by
    refine (hg.enters_iff _ _ s).mpr ⟨_, w.entry, after.map Vertex.entry, ?_, rfl,
      Or.inl ⟨Or.inl hreads, hnearest⟩⟩
    rw [entries, hsplit]
    simp
  refine h.right w.key ((hg.sound.wired.mirrored _ _ s).mpr henters) ?_
  exact (readsAt_iff hg.sound.keyed (mem_vertices_of_pending hw)).mpr hreads

/-- What a dead store writes is overwritten before it is read.  The induction is on the
nodes `rest` that are still to come; none of those since the store has written the state. -/
theorem DeadAt.overwritten_of_nearest {g : Graph ρ} {origin : State -> NodeKey} (hg : g.Built origin)
    {v : Vertex ρ} {s : State} (h : g.DeadAt v.key s) (hv : v ∈ g.pending)
    {before rest : List (Vertex ρ)} (hsplit : g.pending = before ++ rest)
    (hnearest : NearestWriter origin s (before.map Vertex.entry) v.key) : Overwritten s rest := by
  induction rest generalizing before with
  | nil =>
      have hentries : g.entries = before.map Vertex.entry := by
        rw [entries, hsplit, List.append_nil]
      rw [← hentries] at hnearest
      exact absurd ((hg.owner_nearest s).unique hnearest) (h.not_owner hg.sound hv)
  | cons w rest ih =>
      refine ⟨h.not_reads hg hsplit hnearest, ?_⟩
      cases hwrites : w.task.writes s with
      | true => exact Or.inl rfl
      | false =>
          refine Or.inr (ih (hsplit.trans (List.append_cons ..)) ?_)
          rw [List.map_append]
          refine hnearest.append_of_not_writes ?_
          intro x hx
          rw [List.map_singleton, List.mem_singleton] at hx
          rw [hx]
          exact hwrites

theorem DeadAt.overwritten {g : Graph ρ} {origin : State -> NodeKey} (hg : g.Built origin)
    {v : Vertex ρ} {s : State} (h : g.DeadAt v.key s) (hwrites : v.task.writes s = true)
    {before rest : List (Vertex ρ)} (hsplit : g.pending = before ++ v :: rest) :
    Overwritten s rest := by
  have hv : v ∈ g.pending := by
    rw [hsplit]
    simp
  refine h.overwritten_of_nearest hg hv (hsplit.trans (List.append_cons ..)) ?_
  rw [List.map_append, List.map_singleton, nearestWriter_append_singleton]
  exact Or.inl ⟨hwrites, rfl⟩

/-- From stores that agree on every state that is not overwritten first, the lists do the
same. -/
def Covers (m : Meaning bank V) (l : List (Vertex ρ)) (todo' todo : List (Recipe ρ)) : Prop :=
  forall σ τ, (forall s, ¬Overwritten s l -> σ s = τ s) ->
    m.runs (todo'.map (·.record)) τ = m.runs (todo.map (·.record)) σ ∧
      m.effects todo' τ = m.effects todo σ

section Covers

variable {v : Vertex ρ} {l : List (Vertex ρ)} {p : Recipe ρ} {todo todo' : List (Recipe ρ)}
  {σ τ : Store V}

theorem not_overwritten_of_reads {s : State} (h : v.task.reads s = true) :
    ¬Overwritten s (v :: l) := by
  rintro ⟨hunread, _⟩
  rw [h] at hunread
  cases hunread

theorem inputs_agree (hp : v.task = (bank.describe p.record).task)
    (h : forall s, ¬Overwritten s (v :: l) -> σ s = τ s) :
    forall s, s ∈ (bank.describe p.record).task.inputs -> σ s = τ s := by
  intro s hs
  rw [← hp] at hs
  exact h s (not_overwritten_of_reads (decide_eq_true hs))

theorem agree_of_not_written (hp : v.task = (bank.describe p.record).task)
    (h : forall s, ¬Overwritten s (v :: l) -> σ s = τ s) {s : State} (hs : ¬Overwritten s l)
    (hout : s ∉ (bank.describe p.record).task.outputs) : σ s = τ s := by
  refine h s ?_
  rintro ⟨_, hwrites | hover⟩
  · rw [← hp] at hout
    exact hout (of_decide_eq_true hwrites)
  · exact hs hover

theorem Covers.keep (hm : m.Faithful) (h : Covers m l todo' todo)
    (hp : v.task = (bank.describe p.record).task) (hmade : p.Made bank launches) :
    Covers m (v :: l) (p :: todo') (p :: todo) := by
  intro σ τ hagree
  have hinputs := inputs_agree hp hagree
  have hnext : forall s, ¬Overwritten s l -> m.run p.record σ s = m.run p.record τ s :=
    fun s hs => m.run_congr hinputs (agree_of_not_written hp hagree hs)
  rcases h _ _ hnext with ⟨hstore, heffects⟩
  refine ⟨hstore, ?_⟩
  rw [Meaning.effects, Meaning.effects, heffects, hmade.effects_congr hm hinputs]

/-- A node without side effects goes if whatever it writes is overwritten first. -/
theorem Covers.delete (hm : m.Faithful) (h : Covers m l todo' todo)
    (hp : v.task = (bank.describe p.record).task) (hmade : p.Made bank launches)
    (hquiet : v.task.sideEffects = false)
    (hdead : forall s, v.task.writes s = true -> Overwritten s l) :
    Covers m (v :: l) todo' (p :: todo) := by
  intro σ τ hagree
  have hnext : forall s, ¬Overwritten s l -> m.run p.record σ s = τ s := by
    intro s hs
    have hout : s ∉ (bank.describe p.record).task.outputs := by
      intro hout
      rw [← hp] at hout
      exact hs (hdead s (decide_eq_true hout))
    rw [m.writes_outputs _ _ _ hout]
    exact agree_of_not_written hp hagree hs hout
  rcases h _ _ hnext with ⟨hstore, heffects⟩
  rw [hp] at hquiet
  refine ⟨hstore, ?_⟩
  rw [Meaning.effects, heffects, hmade.effects_nil hm hquiet, List.nil_append]

/-- A node without side effects may do without stores that are overwritten first. -/
theorem Covers.strip (hm : m.Faithful) (h : Covers m l todo' todo)
    (hp : v.task = (bank.describe p.record).task) (hmade : p.Made bank launches)
    (hquiet : v.task.sideEffects = false) {dead : StateSet} {r : ρ}
    (hstripped : bank.eliminateStores p.record dead = some r)
    (hdead : forall s, s ∈ dead -> Overwritten s l) :
    Covers m (v :: l) (.strip p dead r :: todo') (p :: todo) := by
  intro σ τ hagree
  have hinputs := inputs_agree hp hagree
  have hnext : forall s, ¬Overwritten s l -> m.run p.record σ s = m.run r τ s := by
    intro s hs
    rw [hm.strip_run _ _ _ hstripped, if_neg fun hin => hs (hdead s hin)]
    exact m.run_congr hinputs (agree_of_not_written hp hagree hs)
  rcases h _ _ hnext with ⟨hstore, heffects⟩
  rw [hp] at hquiet
  refine ⟨hstore, ?_⟩
  rw [Meaning.effects, Meaning.effects, Recipe.effects, hmade.effects_nil hm hquiet,
    hmade.effects_nil hm hquiet]
  exact heffects

end Covers

theorem Swept.covers (hm : m.Faithful) {g : Graph ρ} {origin : State -> NodeKey}
    (hg : g.Built origin) {l : List (Vertex ρ)} {products : List (Option ρ × Task)}
    (h : Swept bank g l products) {before : List (Vertex ρ)} (hsplit : g.pending = before ++ l)
    {todo : List (Recipe ρ)} (hlaunches : l.map (·.launch) = todo.map (Recipe.product bank))
    (hmade : forall p, p ∈ todo -> p.Made bank launches) :
    exists todo', products = todo'.map (Recipe.product bank) ∧
      (forall p, p ∈ todo' -> p.Made bank launches) ∧ Covers m l todo' todo := by
  induction h generalizing before todo with
  | nil =>
      cases todo with
      | nil =>
          refine ⟨[], rfl, hmade, ?_⟩
          intro σ τ hagree
          have heq : σ = τ := funext fun s => hagree s id
          subst heq
          exact ⟨rfl, rfl⟩
      | cons p todo => cases hlaunches
  | @keep v rest products _ ih =>
      rcases List.map_eq_cons_iff.mp hlaunches.symm with ⟨p, todo, rfl, hp, hrest⟩
      rcases ih (hsplit.trans (List.append_cons ..)) hrest.symm
        (fun q hq => hmade q (List.mem_cons_of_mem _ hq)) with ⟨todo', rfl, hmade', hcovers⟩
      have hmadep := hmade p (List.mem_cons_self ..)
      refine ⟨p :: todo', ?_, ?_, hcovers.keep hm (Prod.mk.inj hp.symm).right hmadep⟩
      · rw [List.map_cons, hp]
      · exact List.forall_mem_cons.mpr ⟨hmadep, hmade'⟩
  | @delete v rest products judged _ ih =>
      rcases List.map_eq_cons_iff.mp hlaunches.symm with ⟨p, todo, rfl, hp, hrest⟩
      rcases ih (hsplit.trans (List.append_cons ..)) hrest.symm
        (fun q hq => hmade q (List.mem_cons_of_mem _ hq)) with ⟨todo', rfl, hmade', hcovers⟩
      cases judged with
      | delete quiet dead =>
          have hdead : forall s, v.task.writes s = true -> Overwritten s rest :=
            fun s hs => (dead s hs).overwritten hg hs hsplit
          exact ⟨todo', rfl, hmade', hcovers.delete hm (Prod.mk.inj hp.symm).right
            (hmade p (List.mem_cons_self ..)) quiet hdead⟩
  | @strip v record' rest products judged _ ih =>
      rcases List.map_eq_cons_iff.mp hlaunches.symm with ⟨p, todo, rfl, hp, hrest⟩
      rcases ih (hsplit.trans (List.append_cons ..)) hrest.symm
        (fun q hq => hmade q (List.mem_cons_of_mem _ hq)) with ⟨todo', rfl, hmade', hcovers⟩
      cases judged with
      | @strip record _ dead own quiet eliminated dead_at _ =>
          have hrecord : p.record = record :=
            Option.some.inj ((Prod.mk.inj hp).left.trans own)
          rw [← hrecord] at eliminated
          have hdead : forall s, s ∈ dead -> Overwritten s rest :=
            fun s hs => ((dead_at s).mp hs).right.overwritten hg ((dead_at s).mp hs).left hsplit
          have hmadep := hmade p (List.mem_cons_self ..)
          exact ⟨.strip p dead record' :: todo', rfl,
            List.forall_mem_cons.mpr ⟨.strip hmadep eliminated, hmade'⟩,
            hcovers.strip hm (Prod.mk.inj hp.symm).right hmadep quiet eliminated hdead⟩

/-- Dead store elimination keeps the meaning of the pending nodes. -/
theorem Swept.remade (hm : m.Faithful) {g g' : Graph ρ} {origin : State -> NodeKey}
    (hg : g.Built origin) (h : Swept bank g g.pending (g'.pending.map (·.launch)))
    {todo : List (Recipe ρ)}
    (hlaunches : g.pending.map (·.launch) = todo.map (Recipe.product bank))
    (hmade : forall p, p ∈ todo -> p.Made bank launches) :
    Remade m launches todo (g'.pending.map (·.launch)) := by
  rcases h.covers hm hg (List.nil_append _).symm hlaunches hmade
    with ⟨todo', hproducts, hmade', hcovers⟩
  refine ⟨todo', hproducts, hmade', ?_⟩
  intro σ
  rcases hcovers σ σ (fun _ _ => rfl) with ⟨hstore, heffects⟩
  exact ⟨hstore, heffects ▸ List.Perm.refl _⟩

end Graph

end LaunchGraph
