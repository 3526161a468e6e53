import LaunchGraph.Proofs.ListCurrency
import LaunchGraph.Proofs.Provenance

/-!
# What demotion relies on

A node is demoted on the strength of an earlier launch of the same task type that was the last to
write one of its masks.  The record that the bank makes leaves out all masks, and nothing is asked
about the others, nor about what the node reads.  So another node between the two may have written
another mask, or what the node activates by.  The module says what there is to rely on, node by
node, at the moment when a node is demoted: nodes before it may have been demoted in the same walk.
-/

namespace LaunchGraph

variable {ρ : Type}

/-- A bank that demotes a record leaves it nothing to write that it did not write, and no mask or
allocator. -/
def Bank.RemovesActivations (bank : Bank ρ) : Prop :=
  forall record model demoted, bank.demote record model = some demoted ->
    forall s, (bank.describe demoted).task.writes s = true ->
      (bank.describe record).task.writes s = true ∧ s.kind ≠ .mask ∧ s.kind ≠ .allocator

namespace Graph

/-!
## Preceding writers
-/

section Preceding

variable {g : Graph ρ} {t : State} {before between after : List (Vertex ρ)} {a b : Vertex ρ}

theorem PrecedingWriter.unique (hg : g.Keyed) {k u w : NodeKey} (hu : g.PrecedingWriter k t u)
    (hw : g.PrecedingWriter k t w) : w = u := by
  rcases hu with ⟨c, x, d, v, e, hsplit, rfl, rfl, hx, hquiet⟩
  rcases hw with ⟨c', x', d', v', e', hsplit', rfl, hkey, hx', hquiet'⟩
  have hv : g.vertices = (c ++ x :: d) ++ v :: e := by
    rw [hsplit, List.append_assoc, List.cons_append]
  have hv' : g.vertices = (c' ++ x' :: d') ++ v' :: e' := by
    rw [hsplit', List.append_assoc, List.cons_append]
  have hfront : c ++ x :: d = c' ++ x' :: d' := prefix_eq_of_nodup hg.nodup hv hv' hkey.symm
  have hnodup : (c ++ x :: d).Nodup := by
    have hall : g.vertices.Nodup := hg.nodup.of_map _
    rw [hv] at hall
    exact hall.of_append_left
  have hmem : x ∈ c' ++ x' :: d' := by
    rw [← hfront]
    simp
  by_contra hne
  have hxx' : x ≠ x' := fun heq => hne (congrArg Vertex.key heq.symm)
  -- Whichever of the two comes first, the other one writes the state after it.
  rcases ComesBefore.total hmem (by simp) hxx' with hfirst | hlast
  · rw [← hfront] at hfirst
    rw [hquiet x' (hfirst.mem_after_of_split hnodup)] at hx'
    cases hx'
  · rw [hfront] at hnodup
    rw [hquiet' x (hlast.mem_after_of_split hnodup)] at hx
    cases hx

theorem PrecedingWriter.of_keys (hg : g.Keyed) {k u : NodeKey}
    {before between after : List NodeKey} (hkeys : g.keys = before ++ u :: (between ++ k :: after))
    (hu : (g.vertexOf u).writes t = true)
    (hquiet : forall j, j ∈ between -> (g.vertexOf j).writes t = false) :
    g.PrecedingWriter k t u := by
  rcases List.map_eq_append_iff.mp hkeys with ⟨c, l, hsplit, _, hl⟩
  rcases List.map_eq_cons_iff.mp hl with ⟨w, l', rfl, rfl, hl'⟩
  rcases List.map_eq_append_iff.mp hl' with ⟨d, m, rfl, rfl, hm⟩
  rcases List.map_eq_cons_iff.mp hm with ⟨v, e, rfl, rfl, _⟩
  refine ⟨c, w, d, v, e, hsplit, rfl, rfl, ?_, ?_⟩
  · rw [← hg.vertexOf_key (v := w) (by rw [hsplit]; simp)]
    exact hu
  · intro x hx
    rw [← hg.vertexOf_key (v := x) (by rw [hsplit]; simp [hx])]
    exact hquiet x.key (List.mem_map_of_mem hx)

theorem key_ne_of_append (hg : g.Keyed) {l m : List (Vertex ρ)} (hsplit : g.vertices = l ++ m)
    {x y : Vertex ρ} (hx : x ∈ l) (hy : y ∈ m) : x.key ≠ y.key := by
  have hnodup : (g.vertices.map fun v : Vertex ρ => v.key).Nodup := hg.nodup
  rw [hsplit, List.map_append, List.nodup_append] at hnodup
  exact hnodup.right.right _ (List.mem_map_of_mem hx) _ (List.mem_map_of_mem hy)

theorem exists_precedingWriter_after (hg : g.Keyed) {c d : List (Vertex ρ)} {x : Vertex ρ}
    (hsplit : g.vertices = (c ++ x :: d) ++ (between ++ b :: after)) (hx : x.writes t = true)
    (hd : forall z, z ∈ d -> z.writes t = false) :
    exists w, w ∈ x :: between ∧ g.PrecedingWriter b.key t w.key ∧
      (w.key = x.key ↔ forall z, z ∈ between -> z.writes t = false) := by
  rcases exists_last (fun v : Vertex ρ => v.writes t) between with hquiet | ⟨l, w, m, rfl, hw, hm⟩
  · refine ⟨x, List.mem_cons_self .., ⟨c, x, d ++ between, b, after, ?_, rfl, rfl, hx, ?_⟩,
      iff_of_true rfl hquiet⟩
    · rw [hsplit]
      simp
    · intro z hz
      exact (List.mem_append.mp hz).elim (hd z) (hquiet z)
  · have hne : x.key ≠ w.key := key_ne_of_append hg hsplit (by simp) (by simp)
    refine ⟨w, by simp, ⟨c ++ x :: d ++ l, w, m, b, after, ?_, rfl, rfl, hw, hm⟩,
      iff_of_false hne.symm ?_⟩
    · rw [hsplit]
      simp
    · intro hquiet
      rw [hquiet w (by simp)] at hw
      cases hw

theorem exists_last_before (hg : g.Sound) (hsplit : g.vertices = before ++ a :: after)
    (ha : a.isInitial = false) (t : State) : exists c x d, before = c ++ x :: d ∧
      x.writes t = true ∧ forall z, z ∈ d -> z.writes t = false := by
  refine (exists_last (fun v : Vertex ρ => v.writes t) before).resolve_left fun hnone => ?_
  have hwrites := hg.numbered.initial_writes t
  cases before with
  | nil =>
      have hfirst : g.initial = a := (List.cons.inj hsplit).left
      rw [← hfirst, hg.numbered.initial] at ha
      cases ha
  | cons x before =>
      have hfirst : g.initial = x := (List.cons.inj hsplit).left
      rw [hfirst, hnone x (List.mem_cons_self ..)] at hwrites
      cases hwrites

variable (hsplit : g.vertices = before ++ a :: (between ++ b :: after))

include hsplit

theorem exists_precedingWriter_from (hg : g.Keyed) (ha : a.writes t = true) :
    exists w, w ∈ a :: between ∧ g.PrecedingWriter b.key t w.key ∧
      (w.key = a.key ↔ forall z, z ∈ between -> z.writes t = false) := by
  have hfront : g.vertices = (before ++ a :: []) ++ (between ++ b :: after) := by
    rw [hsplit, List.append_assoc]
    rfl
  have hnone : forall z : Vertex ρ, z ∈ [] -> z.writes t = false := fun z hz => by cases hz
  exact exists_precedingWriter_after hg hfront ha hnone

/-- Two nodes come after the same writer exactly if nothing from the one up to the other writes
the state. -/
theorem exists_precedingWriters (hg : g.Sound) (ha : a.isInitial = false) (t : State) :
    exists u w, g.PrecedingWriter a.key t u ∧ g.PrecedingWriter b.key t w ∧
      (w = u ↔ forall z, z ∈ a :: between -> z.writes t = false) := by
  rcases exists_last_before hg hsplit ha t with ⟨c, x, d, rfl, hx, hd⟩
  have hlast : g.vertices = (c ++ x :: d) ++ ((a :: between) ++ b :: after) := hsplit
  have hfirst : g.vertices = c ++ x :: (d ++ a :: (between ++ b :: after)) := by
    rw [hsplit, List.append_assoc, List.cons_append]
  rcases exists_precedingWriter_after hg.keyed hlast hx hd with ⟨w, _, hpreceding, hsame⟩
  exact ⟨x.key, w.key, ⟨c, x, d, a, between ++ b :: after, hfirst, rfl, rfl, hx, hd⟩, hpreceding,
    hsame⟩

end Preceding

/-!
## Walking over the pending nodes
-/

section Walk

variable {bank : Bank ρ} {g g' : Graph ρ} {k : NodeKey}

theorem Relaunched.direct (h : g.Relaunched g') (hd : g.Direct)
    (hwrites : forall j s, g'.WritesAt j s -> g.WritesAt j s) : g'.Direct := by
  have hinitial : g'.initial = g.initial := (List.cons.inj h.executed).left
  constructor
  · intro u v z s he huz hzv hz hw
    rw [h.keys] at huz hzv
    rw [h.pendingKeys] at hz
    exact hd.edge u v z s ((h.enters_iff u v s).mp he) huz hzv hz (hwrites z s hw)
  · intro z s huz hz hw
    rw [h.keys, ownerOrInitial, h.owners, hinitial] at huz
    rw [h.pendingKeys] at hz
    exact hd.owner z s huz hz (hwrites z s hw)
  · intro j z s hj hjz hw
    rw [h.readers] at hj
    rw [h.keys] at hjz
    exact hd.reader j z s hj hjz (hwrites z s hw)

theorem DemotedAt.writes (h : DemotedAt bank k g g') (hbank : bank.RemovesActivations)
    (hg : g.Sound) (hdescribed : g.Described bank) {s : State}
    (hs : (g'.vertexOf k).task.writes s = true) :
    (g.vertexOf k).task.writes s = true ∧ s.kind ≠ .mask ∧ s.kind ≠ .allocator := by
  rcases h.demotable with ⟨answer, hdemotable, hlaunch⟩
  rcases hdemotable.dominated with ⟨w, mask, record, model, _, _, _, hrecord, _, hdemote, _⟩
  have htask : (g'.vertexOf k).task = answer.2.task := congrArg Prod.snd hlaunch
  rw [htask, hdemotable.described] at hs
  rw [hdescribed _ (hg.keyed.vertexOf_pending h.pending) record hrecord]
  exact hbank record model answer.1 hdemote s hs

theorem DemotedAt.writesAt (h : DemotedAt bank k g g') (hbank : bank.RemovesActivations)
    (hg : g.Sound) (hdescribed : g.Described bank) {j : NodeKey} {s : State}
    (hs : g'.WritesAt j s) : g.WritesAt j s := by
  by_cases hj : j = k
  · have hsound := h.relaunched.sound hg
    have hk : k ∈ g'.pendingKeys := by
      rw [h.relaunched.pendingKeys]
      exact h.pending
    rw [hj, ← vertexOf_writes (pendingKeys_subset hk),
      hsound.numbered.pending_writes (hsound.keyed.vertexOf_pending hk)] at hs
    rw [hj, ← vertexOf_writes (pendingKeys_subset h.pending),
      hg.numbered.pending_writes (hg.keyed.vertexOf_pending h.pending)]
    exact (h.writes hbank hg hdescribed hs).left
  · rw [WritesAt, h.other j hj] at hs
    exact hs

theorem Walks.described {r : Graph ρ × Bool} (h : Walks bank g r) (hg : g.Sound)
    (hdescribed : g.Described bank) : r.1.Described bank := by
  rcases h with ⟨_, heq⟩ | ⟨_, hdemoted⟩
  · rw [heq]
    exact hdescribed
  · exact (hdemoted.demoted hg).renews.described hdescribed

theorem DemotedAt.direct (h : DemotedAt bank k g g') (hbank : bank.RemovesActivations)
    (hg : g.Sound) (hdescribed : g.Described bank) (hd : g.Direct) : g'.Direct :=
  h.relaunched.direct hd fun _ _ => h.writesAt hbank hg hdescribed

theorem DemotedSome.direct (h : DemotedSome bank g g') (hbank : bank.RemovesActivations)
    (hg : g.Sound) (hdescribed : g.Described bank) (hd : g.Direct) : g'.Direct := by
  induction h with
  | single hstep =>
      rcases hstep with ⟨j, hat⟩
      exact hat.direct hbank hg hdescribed hd
  | @tail g1 _ hbefore hstep ih =>
      rcases hstep with ⟨j, hat⟩
      have hdemoted : DemotedSome bank g g1 := hbefore
      exact hat.direct hbank (hdemoted.relaunched.sound hg)
        ((hdemoted.demoted hg).renews.described hdescribed) ih

theorem Walks.direct {r : Graph ρ × Bool} (h : Walks bank g r)
    (hbank : bank.RemovesActivations) (hg : g.Sound) (hdescribed : g.Described bank)
    (hd : g.Direct) : r.1.Direct := by
  rcases h with ⟨_, heq⟩ | ⟨_, hdemoted⟩
  · rw [heq]
    exact hd
  · exact hdemoted.direct hbank hg hdescribed hd

end Walk

/-!
## One node of the walk
-/

/-- Demotion of the graph `g` comes to the node under `k` with the graph `g1`, and goes on with
`g2`. -/
structure Examines (bank : Bank ρ) (g : Graph ρ) (k : NodeKey) (g1 g2 : Graph ρ)
    (demoted : Bool) : Prop where
  walk : exists done rest changed, g.pendingKeys = done ++ k :: rest ∧
    done.foldlM (demoteNext bank) (g, false) = .ok (g1, changed) ∧
    g.demoteActivations bank
      = rest.foldlM (demoteNext bank) (g2, changed || demoted) >>= rebuildDemoted
  ran : g1.demoteNode bank k = .ok (g2, demoted)

/-- What the demotion of `b` rests on: on a mask, an edge leads to it from a launch of the same
task type, with the nodes `between` in between. -/
structure Warranted (bank : Bank ρ) (g g' : Graph ρ) (a b : Vertex ρ) (between : List (Vertex ρ))
    (mask : State) : Prop where
  split : exists before after, g.vertices = before ++ a :: (between ++ b :: after)
  launched : a.isInitial = false
  same : a.handle = b.handle
  kind : mask.kind = .mask
  enters : g.Enters a.key b.key mask
  first : a.writes mask = true
  second : b.task.writes mask = true
  demoted : exists record model demoted, b.record = some record ∧ a.record = some model ∧
    bank.demote record model = some demoted ∧
    (g'.vertexOf b.key).launch = launchOf bank demoted ∧
    (bank.describe demoted).task.writes mask = false

section Examined

variable {bank : Bank ρ} {g g' : Graph ρ} {k : NodeKey}

theorem DemotedAt.warranted (h : DemotedAt bank k g g') (hg : g.Sound) (hf : g.Forward) :
    exists a b between mask, b.key = k ∧ Warranted bank g g' a b between mask := by
  have hk := pendingKeys_subset h.pending
  rcases h.demotable with ⟨answer, hdemotable, hlaunch⟩
  rcases hdemotable.dominated
    with ⟨a, mask, record, model, hdominates, hkind, hmask, hrecord, hmodel, hdemote, hgone⟩
  have hbefore := hg.keyed.vertices_before hdominates.mem (vertexOf_mem hk)
    (hf _ _ _ hdominates.enters)
  rcases hbefore.exists_split with ⟨before, between, after, hsplit⟩
  rw [hdemotable.described] at hlaunch hgone
  have hlaunched : (g'.vertexOf (g.vertexOf k).key).launch = launchOf bank answer.1 := by
    rw [key_vertexOf hk]
    exact hlaunch
  exact ⟨a, g.vertexOf k, between, mask, key_vertexOf hk, ⟨before, after, hsplit⟩,
    hdominates.launched, hdominates.same, hkind, hdominates.enters, hdominates.writes, hmask,
    record, model, answer.1, hrecord, hmodel, hdemote, hlaunched, hgone⟩

theorem Examines.of_split {g1 g2 : Graph ρ} {done rest : List NodeKey} {changed demoted : Bool}
    (hsplit : g.pendingKeys = done ++ k :: rest)
    (hdone : done.foldlM (demoteNext bank) (g, false) = .ok (g1, changed))
    (hran : g1.demoteNode bank k = .ok (g2, demoted)) : Examines bank g k g1 g2 demoted := by
  refine ⟨⟨done, rest, changed, hsplit, hdone, ?_⟩, hran⟩
  rw [demoteActivations_eq, hsplit, List.foldlM_append, hdone, ok_bind, List.foldlM_cons,
    demoteNext, hran]
  rfl

theorem exists_examines (bank : Bank ρ) (hg : g.Sound) (hk : k ∈ g.pendingKeys) :
    exists g1 changed g2 demoted, Examines bank g k g1 g2 demoted ∧
      Walks bank g (g1, changed) ∧ (demoted = false -> g2 = g1) ∧
      (demoted = true -> DemotedAt bank k g1 g2) := by
  rcases List.append_of_mem hk with ⟨done, rest, hsplit⟩
  have hdone : forall j, j ∈ done -> j ∈ g.pendingKeys := by
    intro j hj
    rw [hsplit]
    exact List.mem_append_left _ hj
  have hstart : Walks bank g (g, false) := Or.inl ⟨rfl, rfl⟩
  rcases hstart.run hg hdone with ⟨⟨g1, changed⟩, hrun, hwalks⟩
  rcases hwalks.next hg hk with ⟨g2, demoted, hnode, _, hkept, hat⟩
  exact ⟨g1, changed, g2, demoted, .of_split hsplit hrun hnode, hwalks, hkept, hat⟩

theorem Warranted.mem {a b : Vertex ρ} {between : List (Vertex ρ)} {mask : State}
    (h : Warranted bank g g' a b between mask) : b ∈ g.vertices := by
  rcases h.split with ⟨before, after, hsplit⟩
  rw [hsplit]
  simp

theorem Warranted.precedingWriter {a b : Vertex ρ} {between : List (Vertex ρ)} {mask : State}
    (h : Warranted bank g g' a b between mask) (hfresh : g.Fresh) (hg : g.Sound)
    (hd : g.Direct) : g.PrecedingWriter b.key mask a.key := by
  rcases h.split with ⟨before, after, hsplit⟩
  refine ⟨before, a, between, b, after, hsplit, rfl, rfl, h.first, fun z hz => ?_⟩
  have haz : ComesBefore g.vertices a z := by
    rw [hsplit, ComesBefore.append_iff, ComesBefore.cons_iff]
    exact Or.inr (Or.inr (Or.inl ⟨rfl, List.mem_append_left _ hz⟩))
  have hzb : ComesBefore g.vertices z b := by
    rw [hsplit, ← List.cons_append, ← List.append_assoc, ComesBefore.append_iff]
    refine Or.inr (Or.inl ⟨?_, List.mem_cons_self ..⟩)
    exact List.mem_append_right _ (List.mem_cons_of_mem _ hz)
  have hlaunched : a.key ≠ g.initial.key := by
    intro heq
    have hinitial : a = g.initial := hg.keyed.eq_of_key haz.left_mem (List.mem_cons_self ..) heq
    have hnot := h.launched
    rw [hinitial, hg.numbered.initial] at hnot
    cases hnot
  exact hfresh.edge_quiet hg hd h.enters hlaunched haz.right_mem
    (haz.map fun v : Vertex ρ => v.key) (hzb.map fun v : Vertex ρ => v.key)

theorem Examines.unique {g1 g2 g1' g2' : Graph ρ} {demoted demoted' : Bool}
    (h : Examines bank g k g1 g2 demoted) (h' : Examines bank g k g1' g2' demoted')
    (hg : g.Keyed) : g1' = g1 ∧ g2' = g2 ∧ demoted' = demoted := by
  rcases h.walk with ⟨done, rest, changed, hsplit, hrun, _⟩
  rcases h'.walk with ⟨done', rest', changed', hsplit', hrun', _⟩
  have hnodup : (g.pendingKeys.map fun j => j).Nodup := by
    rw [List.map_id']
    exact hg.nodup_pending
  rw [prefix_eq_of_nodup hnodup hsplit hsplit' rfl, hrun'] at hrun
  rcases Prod.mk.inj (Except.ok.inj hrun) with ⟨rfl, _⟩
  have hran := h.ran
  rw [h'.ran] at hran
  rcases Prod.mk.inj (Except.ok.inj hran) with ⟨rfl, rfl⟩
  exact ⟨rfl, rfl, rfl⟩

end Examined

end Graph

namespace Session

variable {bank : Bank ρ} {s : Session ρ}

/-- A node is demoted because of one mask, which an earlier launch of the same task type was the
last to write.  Each other mask that it loses was last written by that launch exactly if no node in
between writes it. -/
theorem demotion_mask_writers (hbank : bank.RemovesActivations) (h : Reachable bank Allowed s)
    {k : NodeKey} (hk : k ∈ s.graph.pendingKeys) :
    exists g1 g2 demoted, s.graph.Examines bank k g1 g2 demoted ∧ (demoted = false -> g2 = g1) ∧
      (demoted = true -> exists a b between mask, b.key = k ∧
        Graph.Warranted bank g1 g2 a b between mask ∧
        g1.PrecedingWriter k mask a.key ∧
        forall t, t.kind = .mask -> b.task.writes t = true ->
          (g2.vertexOf k).task.writes t = false ∧
          exists w, w ∈ a :: between ∧ g1.PrecedingWriter k t w.key ∧
            (w.key = a.key ↔ forall z, z ∈ between -> z.writes t = false)) := by
  have hs := h.consistent fun _ _ may => may.deletable
  rcases Graph.exists_examines bank hs.sound hk
    with ⟨g1, changed, g2, demoted, hexamines, hwalks, hkept, hat⟩
  refine ⟨g1, g2, demoted, hexamines, hkept, fun htrue => ?_⟩
  have hdemoted := hat htrue
  have hsound : g1.Sound := hwalks.relaunched.sound hs.sound
  have hdescribed : g1.Described bank := hwalks.described hs.sound h.described.left
  have hdirect : g1.Direct := hwalks.direct hbank hs.sound h.described.left h.direct
  have hfresh : g1.Fresh := hwalks.relaunched.drawsOn.fresh h.fresh
  rcases hdemoted.warranted hsound (hwalks.relaunched.forward hs.forward)
    with ⟨a, b, between, mask, rfl, hwarranted⟩
  refine ⟨a, b, between, mask, rfl, hwarranted,
    hwarranted.precedingWriter hfresh hsound hdirect, ?_⟩
  intro t hkind ht
  constructor
  · rw [← Bool.not_eq_true]
    intro hleft
    exact (hdemoted.writes hbank hsound hdescribed hleft).right.left hkind
  · rcases hwarranted.split with ⟨before, after, hsplit⟩
    have hwrites : a.writes t = true := by
      rw [Node.writes, Node.task, hwarranted.same]
      exact Bool.or_eq_true_iff.mpr (Or.inr ht)
    exact Graph.exists_precedingWriter_from hsplit hsound.keyed hwrites

end Session

def Bank.disarming : Bank Task where
  describe t := ⟨t, some t.name⟩
  demote t _ := some { t with
    name := t.name ++ "_demoted"
    outputs := t.outputs.filter fun s => s.kind != .mask && s.kind != .allocator }

theorem Bank.disarming_removes : Bank.disarming.RemovesActivations := by
  intro record model demoted hdemote s hs
  cases hdemote
  have hmem : s ∈ record.outputs.filter fun s => s.kind != .mask && s.kind != .allocator :=
    of_decide_eq_true hs
  rw [OrderedSet.mem_filter, Bool.and_eq_true, bne_iff_ne, bne_iff_ne] at hmem
  exact ⟨decide_eq_true hmem.left, hmem.right⟩

namespace Sample

def launched (tasks : List Task) : Session Task :=
  match Session.new.perform Bank.disarming (.insertTasks false tasks) with
  | .ok s => s
  | .error _ => .new

def activateBoth : Task :=
  { name := "activate_both", taskType := .rangeFor, outputs := .ofList [mask 1, mask 2] }

def activateSecond : Task :=
  { name := "activate_second", taskType := .serial, outputs := .ofList [mask 2] }

def reactivated : Session Task := launched [activateBoth, activateSecond, activateBoth]

theorem reactivated_reachable : Session.Reachable Bank.disarming Session.Allowed reactivated :=
  .step (a := .insertTasks false [activateBoth, activateSecond, activateBoth]) .start trivial rfl

def disarmed (s : Session Task) : Graph Task :=
  match s.graph.demoteNode Bank.disarming ⟨3⟩ with
  | .ok (g, _) => g
  | .error _ => .new

theorem reactivated_examined : reactivated.graph.Examines Bank.disarming ⟨3⟩ reactivated.graph
    (disarmed reactivated) true := by
  have hsplit : reactivated.graph.pendingKeys = [⟨1⟩, ⟨2⟩] ++ ⟨3⟩ :: [] := rfl
  exact .of_split hsplit rfl rfl

end Sample

namespace Session

/-- The last node was demoted because of the mask of the first field, and lost both. -/
theorem demotion_mask_writers_reactivated :
    exists a b between mask, b.key = ⟨3⟩ ∧
      Graph.Warranted Bank.disarming Sample.reactivated.graph
        (Sample.disarmed Sample.reactivated) a b between mask ∧
      Sample.reactivated.graph.PrecedingWriter ⟨3⟩ mask a.key ∧
      ((Sample.disarmed Sample.reactivated).vertexOf ⟨3⟩).task.writes (Sample.mask 2) = false ∧
      exists w, w ∈ a :: between ∧
        Sample.reactivated.graph.PrecedingWriter ⟨3⟩ (Sample.mask 2) w.key := by
  have hkeyed : Sample.reactivated.graph.Keyed :=
    (Sample.reactivated_reachable.consistent fun _ _ may => may.deletable).sound.keyed
  have hk : ⟨3⟩ ∈ Sample.reactivated.graph.pendingKeys := by decide +kernel
  rcases demotion_mask_writers Bank.disarming_removes Sample.reactivated_reachable hk
    with ⟨g1, g2, demoted, hexamines, _, hdemoted⟩
  rcases Sample.reactivated_examined.unique hexamines hkeyed with ⟨rfl, rfl, rfl⟩
  rcases hdemoted rfl with ⟨a, b, between, mask, hkey, hwarranted, hlast, hmasks⟩
  have hb : b = Sample.reactivated.graph.vertexOf ⟨3⟩ :=
    hkeyed.eq_of_key hwarranted.mem (Graph.vertexOf_mem (Graph.pendingKeys_subset hk)) hkey
  have hwrites : b.task.writes (Sample.mask 2) = true := by
    rw [hb]
    decide +kernel
  rcases hmasks (Sample.mask 2) rfl hwrites with ⟨hgone, w, hw, hpreceding, _⟩
  exact ⟨a, b, between, mask, hkey, hwarranted, hlast, hgone, w, hw, hpreceding⟩

/-- The last writer of the other mask is a node that launches another task type. -/
theorem demotion_other_mask :
    Reachable Bank.disarming Allowed Sample.reactivated ∧ Bank.disarming.RemovesActivations ∧
      Sample.reactivated.graph.Examines Bank.disarming ⟨3⟩ Sample.reactivated.graph
        (Sample.disarmed Sample.reactivated) true ∧
      (Sample.reactivated.graph.vertexOf ⟨3⟩).task.writes (Sample.mask 2) = true ∧
      ((Sample.disarmed Sample.reactivated).vertexOf ⟨3⟩).task.writes (Sample.mask 2) = false ∧
      forall a, a ∈ Sample.reactivated.graph.vertices ->
        Sample.reactivated.graph.PrecedingWriter ⟨3⟩ (Sample.mask 2) a.key ->
        a.handle ≠ (Sample.reactivated.graph.vertexOf ⟨3⟩).handle := by
  have hkeyed : Sample.reactivated.graph.Keyed :=
    (Sample.reactivated_reachable.consistent fun _ _ may => may.deletable).sound.keyed
  have hmem : ⟨2⟩ ∈ Sample.reactivated.graph.keys := by decide +kernel
  refine ⟨Sample.reactivated_reachable, Bank.disarming_removes, Sample.reactivated_examined, ?_, ?_,
    ?_⟩
  · decide +kernel
  · decide +kernel
  · intro a ha hpreceding
    have hkeys : Sample.reactivated.graph.keys = [⟨0⟩, ⟨1⟩] ++ ⟨2⟩ :: ([] ++ ⟨3⟩ :: []) := rfl
    have hsecond : Sample.reactivated.graph.PrecedingWriter ⟨3⟩ (Sample.mask 2) ⟨2⟩ :=
      .of_keys hkeyed hkeys (by decide +kernel) nofun
    have hkey : a.key = (Sample.reactivated.graph.vertexOf ⟨2⟩).key := by
      rw [Graph.key_vertexOf hmem]
      exact hsecond.unique hkeyed hpreceding
    rw [hkeyed.eq_of_key ha (Graph.vertexOf_mem hmem) hkey]
    decide +kernel

variable {bank : Bank ρ} {s : Session ρ}

/-- Nothing is asked about what a node reads before it is demoted.  A state comes to it from where
it came to the earlier launch exactly if neither that launch nor a node in between writes it. -/
theorem demotion_input_writers (h : Reachable bank Allowed s) {k : NodeKey}
    (hk : k ∈ s.graph.pendingKeys) :
    exists g1 g2 demoted, s.graph.Examines bank k g1 g2 demoted ∧ (demoted = false -> g2 = g1) ∧
      (demoted = true -> exists a b between mask, b.key = k ∧
        Graph.Warranted bank g1 g2 a b between mask ∧
        forall t, exists u w, g1.PrecedingWriter a.key t u ∧ g1.PrecedingWriter k t w ∧
          (w = u ↔ forall z, z ∈ a :: between -> z.writes t = false)) := by
  have hs := h.consistent fun _ _ may => may.deletable
  rcases Graph.exists_examines bank hs.sound hk
    with ⟨g1, changed, g2, demoted, hexamines, hwalks, hkept, hat⟩
  refine ⟨g1, g2, demoted, hexamines, hkept, fun htrue => ?_⟩
  have hsound : g1.Sound := hwalks.relaunched.sound hs.sound
  rcases (hat htrue).warranted hsound (hwalks.relaunched.forward hs.forward)
    with ⟨a, b, between, mask, rfl, hwarranted⟩
  rcases hwarranted.split with ⟨before, after, hsplit⟩
  exact ⟨a, b, between, mask, rfl, hwarranted, fun t =>
    Graph.exists_precedingWriters hsplit hsound hwarranted.launched t⟩

end Session

namespace Sample

def activateBy : Task :=
  { name := "activate_by", taskType := .rangeFor, inputs := .ofList [cell 0],
    outputs := .ofList [mask 1] }

def setCell : Task := { name := "set", taskType := .serial, outputs := .ofList [cell 0] }

def redirected : Session Task := launched [activateBy, setCell, activateBy]

theorem redirected_reachable : Session.Reachable Bank.disarming Session.Allowed redirected :=
  .step (a := .insertTasks false [activateBy, setCell, activateBy]) .start trivial rfl

theorem redirected_examined : redirected.graph.Examines Bank.disarming ⟨3⟩ redirected.graph
    (disarmed redirected) true := by
  have hsplit : redirected.graph.pendingKeys = [⟨1⟩, ⟨2⟩] ++ ⟨3⟩ :: [] := rfl
  exact .of_split hsplit rfl rfl

end Sample

namespace Session

/-- The last node was demoted although the field that it reads was written in between. -/
theorem demotion_input_writers_redirected :
    exists a b between mask, b.key = ⟨3⟩ ∧
      Graph.Warranted Bank.disarming Sample.redirected.graph (Sample.disarmed Sample.redirected)
        a b between mask ∧
      exists u w, Sample.redirected.graph.PrecedingWriter a.key (Sample.cell 0) u ∧
        Sample.redirected.graph.PrecedingWriter ⟨3⟩ (Sample.cell 0) w ∧
        (w = u ↔ forall z, z ∈ a :: between -> z.writes (Sample.cell 0) = false) := by
  have hkeyed : Sample.redirected.graph.Keyed :=
    (Sample.redirected_reachable.consistent fun _ _ may => may.deletable).sound.keyed
  have hk : ⟨3⟩ ∈ Sample.redirected.graph.pendingKeys := by decide +kernel
  rcases demotion_input_writers Sample.redirected_reachable hk
    with ⟨g1, g2, demoted, hexamines, _, hdemoted⟩
  rcases Sample.redirected_examined.unique hexamines hkeyed with ⟨rfl, rfl, rfl⟩
  rcases hdemoted rfl with ⟨a, b, between, mask, hkey, hwarranted, hwriters⟩
  exact ⟨a, b, between, mask, hkey, hwarranted, hwriters (Sample.cell 0)⟩

/-- No earlier launch of the task type read the field as the last node reads it. -/
theorem demotion_other_input :
    Reachable Bank.disarming Allowed Sample.redirected ∧
      Sample.redirected.graph.Examines Bank.disarming ⟨3⟩ Sample.redirected.graph
        (Sample.disarmed Sample.redirected) true ∧
      (Sample.redirected.graph.vertexOf ⟨3⟩).task.reads (Sample.cell 0) = true ∧
      (Sample.redirected.graph.vertexOf ⟨3⟩).task.writes (Sample.cell 0) = false ∧
      forall a u, a ∈ Sample.redirected.graph.vertices -> a.key ≠ ⟨3⟩ ->
        a.handle = (Sample.redirected.graph.vertexOf ⟨3⟩).handle ->
        Sample.redirected.graph.PrecedingWriter a.key (Sample.cell 0) u ->
        ¬Sample.redirected.graph.PrecedingWriter ⟨3⟩ (Sample.cell 0) u := by
  have hkeyed : Sample.redirected.graph.Keyed :=
    (Sample.redirected_reachable.consistent fun _ _ may => may.deletable).sound.keyed
  have hfirst : Sample.redirected.graph.keys = [] ++ ⟨0⟩ :: ([] ++ ⟨1⟩ :: [⟨2⟩, ⟨3⟩]) := rfl
  have hlast : Sample.redirected.graph.keys = [⟨0⟩, ⟨1⟩] ++ ⟨2⟩ :: ([] ++ ⟨3⟩ :: []) := rfl
  have hinitial : Sample.redirected.graph.PrecedingWriter ⟨1⟩ (Sample.cell 0) ⟨0⟩ :=
    .of_keys hkeyed hfirst (by decide +kernel) nofun
  have hset : Sample.redirected.graph.PrecedingWriter ⟨3⟩ (Sample.cell 0) ⟨2⟩ :=
    .of_keys hkeyed hlast (by decide +kernel) nofun
  have honly : forall k, k ∈ Sample.redirected.graph.keys -> k ≠ ⟨3⟩ ->
      (Sample.redirected.graph.vertexOf k).handle
        = (Sample.redirected.graph.vertexOf ⟨3⟩).handle -> k = ⟨1⟩ := by
    decide +kernel
  refine ⟨Sample.redirected_reachable, Sample.redirected_examined, ?_, ?_, ?_⟩
  · decide +kernel
  · decide +kernel
  · intro a u ha hne hsame hu hu'
    have hkey : a.key = ⟨1⟩ := by
      refine honly a.key (Graph.key_mem_keys ha) hne ?_
      rw [hkeyed.vertexOf_key ha]
      exact hsame
    rw [hkey] at hu
    cases (hinitial.unique hkeyed hu).symm.trans (hset.unique hkeyed hu')

end Session
end LaunchGraph
