import LaunchGraph.Pass.Demotion
import LaunchGraph.Proofs.Pass.Relaunch

/-!
# Activation demotion goes through

Demotion leaves the graph as it is, or relaunches some nodes with records that the
bank made by removing activations, and rebuilds.
-/

namespace LaunchGraph

def Demotes {ρ : Type} (bank : Bank ρ) (p q : Option ρ × Task) : Prop :=
  exists record model demoted mask, p.1 = some record ∧ bank.demote record model = some demoted ∧
    q = (some demoted, (bank.describe demoted).task) ∧ p.2.writes mask = true ∧
    q.2.writes mask = false

namespace Graph

variable {ρ : Type}

def Demoted (bank : Bank ρ) (g g' : Graph ρ) : Prop :=
  List.Forall₂ (Relation.ReflTransGen (Demotes bank)) (g.pending.map (·.launch))
    (g'.pending.map (·.launch))

theorem Demoted.refl (bank : Bank ρ) (g : Graph ρ) : Demoted bank g g :=
  List.forall₂_same.mpr fun _ _ => .refl

theorem Demoted.trans {bank : Bank ρ} {g g1 g2 : Graph ρ} (h1 : Demoted bank g g1)
    (h2 : Demoted bank g1 g2) : Demoted bank g g2 := by
  apply forall₂_trans _ h1 h2
  intro _ _ _ hp hq
  exact hp.trans hq

theorem Demoted.renews {bank : Bank ρ} {g g' : Graph ρ} (h : Demoted bank g g') :
    g.Renews bank g' := by
  intro v hv
  rcases exists_of_forall₂_right h v.launch (List.mem_map_of_mem hv) with ⟨p, hp, hsteps⟩
  rcases hsteps.cases_tail with heq | ⟨q, _, record, model, demoted, _, _, _, hlast, _⟩
  · rcases List.mem_map.mp hp with ⟨w, hw, rfl⟩
    exact Or.inl ⟨w, hw, heq.symm⟩
  · rcases Prod.mk.inj hlast with ⟨hrecord, htask⟩
    exact Or.inr ⟨demoted, hrecord, htask⟩

/-- Of the sources of `v` on a mask, `w` is the only one that writes the mask, and it launches the
same task type. -/
structure Dominates (g : Graph ρ) (w v : Vertex ρ) (mask : State) : Prop where
  mem : w ∈ g.vertices
  enters : g.Enters w.key v.key mask
  writes : w.writes mask = true
  launched : w.isInitial = false
  same : w.handle = v.handle

theorem dominator?_ok {g : Graph ρ} (hg : g.Sound) {v : Vertex ρ} (hv : v ∈ g.vertices)
    (mask : State) :
    exists o, g.dominator? v mask = .ok o ∧ forall w, o = some w -> g.Dominates w v mask := by
  rw [dominator?, hg.find_inputs hv, ok_bind]
  split
  · next w hsources =>
      have hw : w ∈ ((v.inputs.get mask).map g.vertexOf).filter (·.writes mask) := by
        rw [hsources]
        exact List.mem_singleton.mpr rfl
      rcases List.mem_filter.mp hw with ⟨hsource, hwrites⟩
      rcases List.mem_map.mp hsource with ⟨k, hk, rfl⟩
      have henters : g.Enters k v.key mask := by
        rw [Enters, inputsOf_of_find? (find?_of_mem hg.keyed.nodup hv)]
        exact hk
      have hmem := hg.wired.source_mem henters
      refine ⟨_, rfl, ?_⟩
      intro w' heq
      split at heq
      · next hguard =>
          cases heq
          rw [Bool.and_eq_true, Bool.not_eq_true'] at hguard
          refine ⟨vertexOf_mem hmem, ?_, hwrites, hguard.left, beq_iff_eq.mp hguard.right⟩
          rw [key_vertexOf hmem]
          exact henters
      · cases heq
  · exact ⟨none, rfl, fun _ h => by cases h⟩

/-- What demotion may answer about a node: a record that the bank made of the node's record on the
strength of a launch that dominates it, and that no longer writes the mask in question. -/
structure Demotable (bank : Bank ρ) (g : Graph ρ) (v : Vertex ρ) (answer : ρ × Description) :
    Prop where
  described : answer.2 = bank.describe answer.1
  dominated : exists w mask record model, g.Dominates w v mask ∧ mask.kind = .mask ∧
    v.task.writes mask = true ∧ v.record = some record ∧ w.record = some model ∧
    bank.demote record model = some answer.1 ∧ answer.2.task.writes mask = false

theorem Demotable.demotes {bank : Bank ρ} {g : Graph ρ} {v : Vertex ρ} {answer : ρ × Description}
    (h : Demotable bank g v answer) : Demotes bank v.launch (some answer.1, answer.2.task) := by
  rcases h.dominated with ⟨w, mask, record, model, _, _, hmask, hrecord, _, hdemote, hgone⟩
  refine ⟨record, model, answer.1, mask, hrecord, hdemote, ?_, hmask, hgone⟩
  rw [h.described]

theorem demotionOf?_ok {g : Graph ρ} (bank : Bank ρ) (hg : g.Sound) {v : Vertex ρ}
    (hv : v ∈ g.vertices) {record : ρ} (hrecord : v.record = some record) {mask : State}
    (hkind : mask.kind = .mask) (hmask : v.task.writes mask = true) :
    exists o, g.demotionOf? bank v record mask = .ok o ∧
      forall answer, o = some answer -> Demotable bank g v answer := by
  rcases dominator?_ok hg hv mask with ⟨w, hw, hdominates⟩
  rw [demotionOf?, hw, ok_bind]
  cases w with
  | none => exact ⟨none, rfl, fun _ h => by cases h⟩
  | some w =>
      cases hdemoted : w.record.bind (bank.demote record) with
      | none =>
          refine ⟨none, ?_, fun _ h => by cases h⟩
          dsimp only
          rw [hdemoted]
          rfl
      | some demoted =>
          rcases Option.bind_eq_some_iff.mp hdemoted with ⟨model, hwrecord, hmodel⟩
          dsimp only
          rw [hdemoted]
          dsimp only
          split
          · exact ⟨none, rfl, fun _ h => by cases h⟩
          · next hgone =>
              refine ⟨_, rfl, ?_⟩
              intro answer h
              cases h
              exact ⟨rfl, w, mask, record, model, hdominates w rfl, hkind, hmask, hrecord, hwrecord,
                hmodel, Bool.eq_false_iff.mpr hgone⟩

theorem firstAnswer_ok {α : Type} {P : α -> Prop} {ask : State -> Outcome (Option α)}
    {states : List State}
    (hask : forall s, s ∈ states -> exists o, ask s = .ok o ∧ forall a, o = some a -> P a) :
    exists o, firstAnswer ask states = .ok o ∧ forall a, o = some a -> P a := by
  induction states with
  | nil => exact ⟨none, rfl, fun a h => by cases h⟩
  | cons s rest ih =>
      rcases hask s (List.mem_cons_self ..) with ⟨o, ho, hP⟩
      rw [firstAnswer, ho, ok_bind]
      cases o with
      | none => exact ih fun t ht => hask t (List.mem_cons_of_mem _ ht)
      | some a => exact ⟨some a, rfl, hP⟩

theorem mem_writtenMasks {t : Task} {s : State} :
    s ∈ writtenMasks t ↔ t.writes s = true ∧ s.kind = .mask := by
  rw [writtenMasks, List.mem_filter, Task.writes, decide_eq_true_iff, beq_iff_eq]
  exact Iff.rfl

theorem findDemotion?_ok {g : Graph ρ} (bank : Bank ρ) (hg : g.Sound) {v : Vertex ρ}
    (hv : v ∈ g.vertices) :
    exists o, g.findDemotion? bank v = .ok o ∧
      forall answer, o = some answer -> Demotable bank g v answer := by
  rw [findDemotion?]
  cases hrecord : v.record with
  | none => exact ⟨none, rfl, fun _ h => by cases h⟩
  | some record =>
      dsimp only
      split
      · refine firstAnswer_ok fun s hs => ?_
        rcases mem_writtenMasks.mp hs with ⟨hmask, hkind⟩
        exact demotionOf?_ok bank hg hv hrecord hkind hmask
      · exact ⟨none, rfl, fun _ h => by cases h⟩

/-!
## One node after another
-/

structure DemotedAt (bank : Bank ρ) (k : NodeKey) (g g' : Graph ρ) : Prop where
  pending : k ∈ g.pendingKeys
  relaunched : g.Relaunched g'
  demotable : exists answer, Demotable bank g (g.vertexOf k) answer ∧
    (g'.vertexOf k).launch = (some answer.1, answer.2.task)
  other : forall j, j ≠ k -> g'.find? j = g.find? j

theorem DemotedAt.demotes {bank : Bank ρ} {k : NodeKey} {g g' : Graph ρ}
    (h : DemotedAt bank k g g') : Demotes bank (g.vertexOf k).launch (g'.vertexOf k).launch := by
  rcases h.demotable with ⟨answer, hdemotable, hlaunch⟩
  rw [hlaunch]
  exact hdemotable.demotes

def DemotedSome (bank : Bank ρ) : Graph ρ -> Graph ρ -> Prop :=
  Relation.TransGen fun g g' => exists k, DemotedAt bank k g g'

theorem DemotedAt.demoted {bank : Bank ρ} {k : NodeKey} {g g' : Graph ρ}
    (h : DemotedAt bank k g g') (hg : g.Keyed) : Demoted bank g g' := by
  refine h.relaunched.forall₂_launch hg ?_
  intro v w hv hw
  by_cases heq : v.key = k
  · have hdemotes := h.demotes
    rw [← heq, hg.vertexOf_key (mem_vertices_of_pending hv), vertexOf_of_find? hw] at hdemotes
    exact .single hdemotes
  · rw [h.other _ heq, hg.find?_pending hv] at hw
    cases hw
    exact .refl

theorem DemotedSome.relaunched {bank : Bank ρ} {g g' : Graph ρ} (h : DemotedSome bank g g') :
    g.Relaunched g' := by
  induction h with
  | single hstep =>
      rcases hstep with ⟨k, hstep⟩
      exact hstep.relaunched
  | tail _ hstep ih =>
      rcases hstep with ⟨k, hstep⟩
      exact ih.trans hstep.relaunched

theorem DemotedSome.demoted {bank : Bank ρ} {g g' : Graph ρ} (h : DemotedSome bank g g')
    (hg : g.Sound) : Demoted bank g g' := by
  induction h with
  | single hstep =>
      rcases hstep with ⟨k, hstep⟩
      exact hstep.demoted hg.keyed
  | @tail g1 _ hbefore hstep ih =>
      rcases hstep with ⟨k, hstep⟩
      have hsound : g1.Sound := (DemotedSome.relaunched hbefore).sound hg
      exact ih.trans (hstep.demoted hsound.keyed)

theorem demoteNode_ok {g : Graph ρ} (bank : Bank ρ) (hg : g.Sound) {k : NodeKey}
    (hk : k ∈ g.pendingKeys) :
    exists g' changed, g.demoteNode bank k = .ok (g', changed) ∧
      ((changed = false ∧ g' = g) ∨ (changed = true ∧ DemotedAt bank k g g')) := by
  have hmem := pendingKeys_subset hk
  rcases findDemotion?_ok bank hg (vertexOf_mem hmem) with ⟨o, ho, hdemotable⟩
  rw [demoteNode, find_vertexOf hmem, ok_bind, ho, ok_bind]
  cases o with
  | none => exact ⟨g, false, rfl, Or.inl ⟨rfl, rfl⟩⟩
  | some answer =>
      rcases answer with ⟨demoted, d⟩
      have hfound := hdemotable _ rfl
      have hd : d = bank.describe demoted := hfound.described
      subst hd
      rcases relaunch_ok hg.keyed hk demoted (bank.describe demoted)
        with ⟨g', hrun, hrelaunched, hself, hother⟩
      refine ⟨g', true, ?_, Or.inr ⟨rfl, hk, hrelaunched, ⟨_, hfound, ?_⟩, hother⟩⟩
      · show ((g.adopt (bank.describe demoted)).1.modify k
          (·.relaunched demoted (g.adopt (bank.describe demoted)).2) >>= fun g =>
            .ok (g, true)) = _
        rw [hrun]
        rfl
      · rw [vertexOf_of_find? (hself _ (find?_vertexOf hmem))]
        exact congrArg (Prod.mk (some demoted)) (g.task_adopt _)

def demoteNext (bank : Bank ρ) (r : Graph ρ × Bool) (k : NodeKey) : Outcome (Graph ρ × Bool) :=
  r.1.demoteNode bank k >>= fun q => .ok (q.1, r.2 || q.2)

def rebuildDemoted (r : Graph ρ × Bool) : Outcome (Graph ρ × Bool) :=
  if r.2 then r.1.rebuild false >>= fun g => .ok (g, true) else .ok (r.1, false)

theorem demoteActivations_eq (bank : Bank ρ) (g : Graph ρ) : g.demoteActivations bank
    = g.pendingKeys.foldlM (demoteNext bank) (g, false) >>= rebuildDemoted :=
  rfl

def Walks (bank : Bank ρ) (g : Graph ρ) (r : Graph ρ × Bool) : Prop :=
  (r.2 = false ∧ r.1 = g) ∨ (r.2 = true ∧ DemotedSome bank g r.1)

theorem Walks.relaunched {bank : Bank ρ} {g : Graph ρ} {r : Graph ρ × Bool}
    (h : Walks bank g r) : g.Relaunched r.1 := by
  rcases h with ⟨_, heq⟩ | ⟨_, hdemoted⟩
  · rw [heq]
    exact .refl g
  · exact hdemoted.relaunched

theorem Walks.next {bank : Bank ρ} {g : Graph ρ} {r : Graph ρ × Bool} (h : Walks bank g r)
    (hg : g.Sound) {k : NodeKey} (hk : k ∈ g.pendingKeys) :
    exists g' demoted, r.1.demoteNode bank k = .ok (g', demoted) ∧
      Walks bank g (g', r.2 || demoted) ∧ (demoted = false -> g' = r.1) ∧
      (demoted = true -> DemotedAt bank k r.1 g') := by
  rw [← h.relaunched.pendingKeys] at hk
  rcases demoteNode_ok bank (h.relaunched.sound hg) hk with ⟨g', demoted, hrun, hcases⟩
  rcases hcases with ⟨rfl, rfl⟩ | ⟨rfl, hat⟩
  · refine ⟨r.1, false, hrun, ?_, fun _ => rfl, nofun⟩
    rw [Bool.or_false]
    exact h
  · refine ⟨g', true, hrun, Or.inr ⟨Bool.or_true _, ?_⟩, nofun, fun _ => hat⟩
    rcases h with ⟨_, heq⟩ | ⟨_, hdemoted⟩
    · rw [heq] at hat
      exact .single ⟨k, hat⟩
    · exact .tail hdemoted ⟨k, hat⟩

theorem Walks.run {bank : Bank ρ} {g : Graph ρ} {r : Graph ρ × Bool} (h : Walks bank g r)
    (hg : g.Sound) {keys : List NodeKey} (hkeys : forall k, k ∈ keys -> k ∈ g.pendingKeys) :
    exists r', keys.foldlM (demoteNext bank) r = .ok r' ∧ Walks bank g r' := by
  refine foldlM_ok_of_keeps (Walks bank g) ?_ h
  intro k hk r hr
  rcases hr.next hg (hkeys k hk) with ⟨g', demoted, hrun, hwalks, _⟩
  refine ⟨(g', r.2 || demoted), ?_, hwalks⟩
  rw [demoteNext, hrun]
  rfl

/-- The way from `g` to `g'` when nodes were demoted: one after another up to `g1`, and then the
rebuild from `base`. -/
structure Disarmed (bank : Bank ρ) (g g' g1 base : Graph ρ) : Prop where
  demoted : DemotedSome bank g g1
  extracted : g1.Extracted base
  built : g'.Built base.ownerOrInitial
  bareExecuted : g'.executed.map Vertex.bare = g1.executed.map Vertex.bare
  launches : g'.pending.map (·.launch) = g1.pending.map (·.launch)

theorem demoteActivations_cases {g : Graph ρ} (bank : Bank ρ) (hg : g.Sound) (hf : g.Forward) :
    exists g' changed, g.demoteActivations bank = .ok (g', changed) ∧
      ((changed = false ∧ g' = g) ∨
        (changed = true ∧ exists g1 base, Disarmed bank g g' g1 base)) := by
  rw [demoteActivations_eq]
  have hstart : Walks bank g (g, false) := Or.inl ⟨rfl, rfl⟩
  rcases hstart.run hg fun _ hk => hk with ⟨⟨g1, changed⟩, hrun, ⟨rfl, rfl⟩ | ⟨rfl, h1⟩⟩
  · refine ⟨g1, false, ?_, Or.inl ⟨rfl, rfl⟩⟩
    rw [hrun]
    rfl
  · rcases rebuild_built (h1.relaunched.sound hg) (h1.relaunched.forward hf)
      with ⟨g2, base, hrebuild, hextracted, hbuilt, hbare, hlaunches, _⟩
    refine ⟨g2, true, ?_,
      Or.inr ⟨rfl, g1, base, h1, hextracted, hbuilt, hbare, hlaunches⟩⟩
    rw [hrun, ok_bind, rebuildDemoted, if_pos rfl, hrebuild]
    rfl

theorem demoteActivations_ok {g : Graph ρ} (bank : Bank ρ) (hg : g.Sound) (hf : g.Forward) :
    exists g' changed, g.demoteActivations bank = .ok (g', changed) ∧ g.Rebuilt g' ∧
      Demoted bank g g' := by
  rcases demoteActivations_cases bank hg hf
    with ⟨g', changed, hrun, ⟨_, rfl⟩ | ⟨_, g1, base, h⟩⟩
  · exact ⟨g', changed, hrun, Or.inl rfl, Demoted.refl bank g'⟩
  · refine ⟨g', changed, hrun, Or.inr ⟨_, h.built⟩, ?_⟩
    rw [Demoted, h.launches]
    exact h.demoted.demoted hg

end Graph
end LaunchGraph
