import LaunchGraph.Proofs.Deletion
import LaunchGraph.Proofs.Graph.Retire
import LaunchGraph.Proofs.Pass.Relisting

/-!
# Executed nodes that states come from

An executed node feeds a state if an edge on the state leaves it, or if it is where new nodes
would take the state from.  Whatever is put in, deleted or rewritten, no executed node comes to
feed a state that did not feed it before, except for the initial node.  So a state that comes
from an executed node comes from the last of them that writes it, unless the graph has lost track
of the state, and then it comes from the initial node.
-/

namespace LaunchGraph

variable {ρ : Type}

namespace Graph

/-!
## Feeding a state
-/

/-- The node is a source of a pending node on the state, or would be the source of a new one. -/
def Feeds (g : Graph ρ) (u : NodeKey) (s : State) : Prop :=
  (exists v, g.Enters u v s) ∨ g.ownerOrInitial s = u

/-- The graph `g'` has the executed nodes of `g`, and they feed nothing else than in `g`, apart
from the initial node. -/
structure DrawsOn (g g' : Graph ρ) : Prop where
  executed : g'.executed.map Vertex.core = g.executed.map Vertex.core
  feeds : forall u s, g'.Feeds u s -> u ∉ g'.pendingKeys ->
    u = g.initial.key ∨ (g.Feeds u s ∧ u ∉ g.pendingKeys)

theorem initial_key_of_core {g g' : Graph ρ}
    (h : g'.executed.map Vertex.core = g.executed.map Vertex.core) :
    g'.initial.key = g.initial.key := by
  have hkey := congrArg Vertex.key (List.cons.inj h).left
  exact hkey

theorem DrawsOn.refl (g : Graph ρ) : g.DrawsOn g := ⟨rfl, fun _ _ h hu => Or.inr ⟨h, hu⟩⟩

theorem DrawsOn.trans {g g1 g' : Graph ρ} (h1 : g.DrawsOn g1) (h2 : g1.DrawsOn g') :
    g.DrawsOn g' := by
  refine ⟨h2.executed.trans h1.executed, ?_⟩
  intro u s hfeeds hu
  rcases h2.feeds u s hfeeds hu with heq | ⟨hfeeds1, hu1⟩
  · exact Or.inl (heq.trans (initial_key_of_core h1.executed))
  · exact h1.feeds u s hfeeds1 hu1

theorem WriterChain.feeds {g : Graph ρ} {s : State} {skip : List NodeKey} {k w : NodeKey}
    (h : WriterChain g s skip k w) : w = g.initial.key ∨ g.Feeds w s := by
  induction h with
  | root none => exact Or.inl rfl
  | stop source out => exact Or.inr (Or.inl ⟨_, source.enters⟩)
  | pass source skipped rest ih => exact ih

theorem OwnersLeft.feeds {g g' : Graph ρ} {doomed : List NodeKey}
    (h : g.OwnersLeft doomed g'.owners) (hinitial : g'.initial.key = g.initial.key) (s : State) :
    g'.ownerOrInitial s = g.initial.key ∨ g.Feeds (g'.ownerOrInitial s) s := by
  cases ho : g.owners.get? s with
  | none =>
      refine Or.inl ?_
      rw [ownerOrInitial, h.none s ho, hinitial]
      rfl
  | some k =>
      by_cases hk : k ∈ doomed
      · rcases h.fallen s k ho hk with ⟨w, hw, hchain⟩
        rw [ownerOrInitial, hw]
        exact hchain.feeds
      · refine Or.inr (Or.inr ?_)
        rw [ownerOrInitial, ho, ownerOrInitial, h.kept s k ho hk]
        rfl

/-!
## Nodes that come and go
-/

section Changes

variable {g g' : Graph ρ}

theorem Inserted.drawsOn {n : Node ρ} (h : g.Inserted n g') (hg : g.Sound) : g.DrawsOn g' := by
  refine ⟨map_core_congr h.bareExecuted, ?_⟩
  intro u s hfeeds hu
  rw [h.pendingKeys, List.mem_append, List.mem_singleton, not_or] at hu
  refine Or.inr ⟨?_, hu.left⟩
  rcases hfeeds with ⟨v, henters⟩ | howner
  · rcases (h.enters_iff u v s).mp henters with hold | ⟨_, ⟨_, rfl⟩ | ⟨_, hreader⟩⟩
    · exact Or.inl ⟨v, hold⟩
    · exact Or.inr rfl
    · exact absurd (hg.owned.readers_pending s u hreader) hu.left
  · rw [h.ownerOrInitial] at howner
    split at howner
    · exact absurd howner.symm hu.right
    · exact Or.inr howner

theorem Grown.drawsOn {bank : Bank ρ} {records : List ρ} (h : Grown bank g records g')
    (hg : g.Sound) : g.DrawsOn g' := by
  induction h with
  | start => exact .refl g
  | recount _ launches currentLists nextSerial ih => exact ⟨ih.executed, ih.feeds⟩
  | insert before _ _ inserted ih => exact ih.trans (inserted.drawsOn (before.sound hg))

theorem Deleted.drawsOn {doomed : List NodeKey} (h : g.Deleted doomed g') (hg : g.Sound)
    (hdoomed : forall k, k ∈ doomed -> k ∈ g.pendingKeys) : g.DrawsOn g' := by
  have hinitial : g.initial.key ∉ doomed :=
    fun hin => hg.keyed.initial_not_pending (hdoomed _ hin)
  refine ⟨h.executed, ?_⟩
  intro u s hfeeds hu
  have hstays : u ∉ doomed -> u ∉ g.pendingKeys :=
    fun hout hin => hu (h.mem_pendingKeys.mpr ⟨hin, hout⟩)
  rcases hfeeds with ⟨v, henters⟩ | rfl
  · rcases (h.enters_iff u v s).mp henters with ⟨hout, _, hvia⟩
    exact Or.inr ⟨Or.inl hvia.enters_first, hstays hout⟩
  · rcases h.owners.feeds h.initial_key s with heq | hfeeds
    · exact Or.inl heq
    · refine Or.inr ⟨hfeeds, hstays ?_⟩
      cases ho : g'.owners.get? s with
      | none =>
          rw [ownerOrInitial, ho, h.initial_key]
          exact hinitial
      | some k =>
          rw [ownerOrInitial, ho]
          exact (h.owners.cases hg hinitial ho).left

theorem Relaunched.drawsOn (h : g.Relaunched g') : g.DrawsOn g' := by
  have hinitial : g'.initial = g.initial := (List.cons.inj h.executed).left
  refine ⟨by rw [h.executed], ?_⟩
  intro u s hfeeds hu
  rw [h.pendingKeys] at hu
  rw [Feeds, ownerOrInitial, h.owners, hinitial] at hfeeds
  simp only [h.enters_iff] at hfeeds
  exact Or.inr ⟨hfeeds, hu⟩

theorem Sorted.drawsOn {order : List (Vertex ρ)} (h : g.Sorted order g') (hg : g.Keyed) :
    g.DrawsOn g' := by
  refine ⟨by rw [h.executed], ?_⟩
  intro u s hfeeds hu
  rw [h.mem_pendingKeys] at hu
  rw [Feeds, h.ownerOrInitial] at hfeeds
  simp only [(h.sameNodes hg).enters_iff] at hfeeds
  exact Or.inr ⟨hfeeds, hu⟩

theorem Extracted.drawsOn {base : Graph ρ} (h : g.Extracted base) (hg : g.Sound) :
    g.DrawsOn base := by
  have hinitial := initial_key_of_bareExecuted h.bareExecuted
  refine ⟨map_core_congr h.bareExecuted, ?_⟩
  intro u s hfeeds _
  rcases hfeeds with ⟨v, henters⟩ | rfl
  · exact absurd henters (h.settled.no_edges u v s)
  · rcases h.owners.feeds hinitial s with heq | hfeeds
    · exact Or.inl heq
    · cases ho : base.owners.get? s with
      | none =>
          rw [ownerOrInitial, ho, hinitial]
          exact Or.inl rfl
      | some k =>
          have howner : base.ownerOrInitial s = k := by
            rw [ownerOrInitial, ho]
            rfl
          rw [howner] at hfeeds ⊢
          exact Or.inr ⟨hfeeds, (h.owners.cases hg hg.keyed.initial_not_pending ho).left⟩

/-- Nodes that are put into a settled graph take states from where it says. -/
theorem Built.drawsOn {base : Graph ρ} (h : g'.Built base.ownerOrInitial) (hbase : base.Settled)
    (hexecuted : g'.executed.map Vertex.core = base.executed.map Vertex.core) :
    base.DrawsOn g' := by
  refine ⟨hexecuted, ?_⟩
  intro u s hfeeds hu
  have hnot : u ∉ base.pendingKeys := by
    rw [pendingKeys, hbase.pending_nil]
    exact List.not_mem_nil
  refine Or.inr ⟨Or.inr ?_, hnot⟩
  rcases hfeeds with ⟨v, henters⟩ | rfl
  · exact (h.rooted.source u v s henters hu).symm
  · exact (h.rooted.owner s hu).symm

theorem Extracted.drawsOn_built {base : Graph ρ} (h : g.Extracted base) (hg : g.Sound)
    (hbuilt : g'.Built base.ownerOrInitial)
    (hexecuted : g'.executed.map Vertex.bare = g.executed.map Vertex.bare) : g.DrawsOn g' :=
  (h.drawsOn hg).trans
    (hbuilt.drawsOn h.settled (map_core_congr (hexecuted.trans h.bareExecuted.symm)))

end Changes

/-!
## Passes
-/

section Passes

variable {bank : Bank ρ} {g g' : Graph ρ}

theorem Handed.drawsOn {g1 : Graph ρ} {found : List Redundancy} (h1 : g.Handed found g1)
    (h : g.Selected found) (hg : g.Keyed) : g.DrawsOn g1 := by
  have houtside : forall k, heir found k ∉ g1.pendingKeys ->
      k ∉ g.pendingKeys ∧ heir found k = k := by
    intro k hk
    rw [pendingKeys_congr h1.skeleton, h.heir_pending] at hk
    exact ⟨hk, heir_of_not_gone fun hin => hk (h.pending hin)⟩
  refine ⟨map_core_congr (bareExecuted_congr h1.skeleton), ?_⟩
  intro u s hfeeds hu
  refine Or.inr ?_
  rcases hfeeds with ⟨v, henters⟩ | rfl
  · rcases (h1.enters_iff u v s).mp henters with ⟨x, hx, rfl⟩
    rcases houtside x hu with ⟨hout, hself⟩
    rw [hself]
    exact ⟨Or.inl ⟨v, hx⟩, hout⟩
  · rw [h1.ownerOrInitial h hg] at hu ⊢
    rcases houtside _ hu with ⟨hout, hself⟩
    rw [hself]
    exact ⟨Or.inr rfl, hout⟩

theorem Relisting.drawsOn {g1 g2 base : Graph ρ} {found : List Redundancy}
    {doomed : List NodeKey} (h : g.Relisting g' found g1 doomed g2 base) (hg : g.Keyed) :
    g.DrawsOn g' := by
  have hdoomed : forall k, k ∈ doomed -> k ∈ g1.pendingKeys := by
    intro k hk
    rw [pendingKeys_congr h.handed.skeleton]
    exact h.doomed_pending hk
  exact ((h.handed.drawsOn h.selected hg).trans
    (h.deleted.drawsOn h.handed.sound hdoomed)).trans
    (h.extracted.drawsOn_built h.deleted.sound h.built h.extended.bareExecuted)

theorem Pruned.drawsOn {scan : StoreScan ρ} {doomed : List NodeKey} {g1 base : Graph ρ}
    (h : Pruned bank g g' scan doomed g1 base) (hg : g.Sound) : g.DrawsOn g' :=
  (h.walked.relaunched.drawsOn.trans
    (h.deleted.drawsOn (h.walked.relaunched.sound hg) fun _ hk => h.doomed_at.pending hk)).trans
    (h.extracted.drawsOn_built h.deleted.sound h.built h.bareExecuted)

theorem Disarmed.drawsOn {g1 base : Graph ρ} (h : Disarmed bank g g' g1 base) (hg : g.Sound) :
    g.DrawsOn g' :=
  h.demoted.relaunched.drawsOn.trans
    (h.extracted.drawsOn_built (h.demoted.relaunched.sound hg) h.built h.bareExecuted)

/-- An executed node keeps its name, and no fused node has it. -/
theorem Fusing.drawsOn {names : NodeKey -> NodeKey} {fused : List (Vertex ρ)}
    {doomed : List NodeKey} {g1 g2 : Graph ρ} (h : Fusing bank g names fused g1)
    (hdeleted : g1.Deleted doomed g2)
    (hdoomed : forall k, k ∈ doomed ↔ k ∈ g.pendingKeys ∧ names k ≠ k)
    (henters : forall u v s, g2.Enters u v s ↔ g1.Enters u v s) (hg : g.Keyed) :
    g.DrawsOn g2 := by
  have hexecuted : g2.executed.map Vertex.core = g.executed.map Vertex.core :=
    hdeleted.executed.trans (map_core_congr h.executed)
  refine ⟨hexecuted, ?_⟩
  intro u s hfeeds hu
  refine Or.inr ?_
  rcases hfeeds with ⟨v, henters2⟩ | rfl
  · rcases (h.enters_iff u v s).mp ((henters u v s).mp henters2) with ⟨_, x, y, he, rfl, _⟩
    rcases h.eq_of_name_executed hdeleted hdoomed hu with ⟨hname, hx⟩
    rw [hname]
    exact ⟨Or.inl ⟨y, he⟩, hx⟩
  · have howners := h.owners_left hdeleted hdoomed s
    cases ho : g.owners.get? s with
    | none =>
        have hsame : g2.ownerOrInitial s = g.ownerOrInitial s := by
          rw [ownerOrInitial, howners, initial_key_of_core hexecuted, ownerOrInitial, ho]
          rfl
        rw [hsame]
        refine ⟨Or.inr rfl, ?_⟩
        rw [ownerOrInitial, ho]
        exact hg.initial_not_pending
    | some k =>
        have hsame : g2.ownerOrInitial s = names k := by
          rw [ownerOrInitial, howners, ho]
          rfl
        rw [hsame] at hu ⊢
        rcases h.eq_of_name_executed hdeleted hdoomed hu with ⟨hname, hk⟩
        rw [hname]
        refine ⟨Or.inr ?_, hk⟩
        rw [ownerOrInitial, ho]
        rfl

theorem Staged.drawsOn {names : NodeKey -> NodeKey} {fused order : List (Vertex ρ)}
    {doomed : List NodeKey} {g1 g2 g3 base : Graph ρ}
    (h : Staged bank g names fused doomed order g1 g2 g3 base g') (hg : g.Keyed) :
    g.DrawsOn g' :=
  ((h.fusing.drawsOn h.deleted h.mem_doomed h.enters_iff hg).trans
    (h.sorted.drawsOn h.deleted.sound.keyed)).trans
    (h.extracted.drawsOn_built (h.sorted.sound h.deleted.sound) h.built h.bareExecuted)

theorem run_drawsOn (bank : Bank ρ) (hg : g.Consistent) (pass : Pass) :
    exists g' changed, pass.run bank g = .ok (g', changed) ∧ g.DrawsOn g' := by
  cases pass with
  | listgen =>
      rcases optimizeListgen_cases hg
        with ⟨g', changed, hrun, ⟨_, rfl⟩ | ⟨_, found, g1, doomed, g2, base, _, h⟩⟩
      · exact ⟨g', changed, hrun, .refl g'⟩
      · exact ⟨g', changed, hrun, h.drawsOn hg.sound.keyed⟩
  | deadStores =>
      rcases eliminateDeadStores_cases bank hg.sound hg.forward
        with ⟨g', changed, hrun, ⟨_, rfl, _⟩ | ⟨_, scan, doomed, g1, base, h⟩⟩
      · exact ⟨g', changed, hrun, .refl g'⟩
      · exact ⟨g', changed, hrun, h.drawsOn hg.sound⟩
  | demotion =>
      rcases demoteActivations_cases bank hg.sound hg.forward
        with ⟨g', changed, hrun, ⟨_, rfl⟩ | ⟨_, g1, base, h⟩⟩
      · exact ⟨g', changed, hrun, .refl g'⟩
      · exact ⟨g', changed, hrun, h.drawsOn hg.sound⟩
  | fusion =>
      rcases fuse_staged bank hg.sound hg.forward with ⟨g', changed, hrun,
        ⟨_, rfl⟩ | ⟨_, names, fused, doomed, order, g1, g2, g3, base, h⟩⟩
      · exact ⟨g', changed, hrun, .refl g'⟩
      · exact ⟨g', changed, hrun, h.drawsOn hg.sound.keyed⟩

end Passes

/-!
## The last executed writer
-/

def Newest (g : Graph ρ) (s : State) (u : NodeKey) : Prop :=
  forall x, x ∈ g.executed -> ComesBefore (g.executed.map (·.key)) u x.key -> x.writes s = false

/-- An executed node that feeds a state is the last executed one that writes it, or is the initial
node. -/
def Fresh (g : Graph ρ) : Prop := forall u s, g.Feeds u s -> u ∉ g.pendingKeys ->
  u = g.initial.key ∨ g.Newest s u

theorem Newest.of_core {g g' : Graph ρ}
    (h : g'.executed.map Vertex.core = g.executed.map Vertex.core) {s : State} {u : NodeKey}
    (hu : g.Newest s u) : g'.Newest s u := by
  have hkeys := congrArg (List.map Vertex.key) h
  rw [List.map_map, List.map_map] at hkeys
  intro x hx hbefore
  have hcore : x.core ∈ g.executed.map Vertex.core := by
    rw [← h]
    exact List.mem_map_of_mem hx
  rcases List.mem_map.mp hcore with ⟨y, hy, hxy⟩
  have hkey : y.key = x.key := by
    have hkey := congrArg Vertex.key hxy
    exact hkey
  have hwrites : y.writes s = x.writes s := by
    have hwrites := congrArg (fun v : Vertex ρ => v.writes s) hxy
    exact hwrites
  rw [← hwrites]
  apply hu y hy
  rw [hkey]
  have hsame : g'.executed.map (·.key) = g.executed.map (·.key) := hkeys
  rw [← hsame]
  exact hbefore

theorem DrawsOn.fresh {g g' : Graph ρ} (h : g.DrawsOn g') (hg : g.Fresh) : g'.Fresh := by
  intro u s hfeeds hu
  rw [initial_key_of_core h.executed]
  rcases h.feeds u s hfeeds hu with heq | ⟨hfeeds', hu'⟩
  · exact Or.inl heq
  · exact (hg u s hfeeds' hu').imp_right (Newest.of_core h.executed)

theorem fresh_of_history_nil {g : Graph ρ} (h : g.history = []) : g.Fresh := by
  intro u s _ _
  refine Or.inr fun x _ hbefore => ?_
  rw [executed, h, List.map_singleton] at hbefore
  rcases ComesBefore.cons_iff.mp hbefore with ⟨_, hnil⟩ | hnil
  · cases hnil
  · cases hnil

section Quiet

variable {g : Graph ρ} (h : g.Fresh) (hg : g.Sound) {u : NodeKey} {s : State} {x : Vertex ρ}

include h hg

theorem Fresh.executed_quiet (hfeeds : g.Feeds u s) (hu : u ≠ g.initial.key)
    (hx : x ∈ g.vertices) (hbefore : ComesBefore g.keys u x.key) (hnot : x.key ∉ g.pendingKeys) :
    x.writes s = false := by
  have hexecuted : x ∈ g.executed := by
    refine (List.mem_append.mp hx).resolve_right fun hin => hnot ?_
    exact List.mem_map_of_mem hin
  have hout : u ∉ g.pendingKeys := fun hin => hnot (hg.keyed.pending_after hin hbefore)
  refine ((h u s hfeeds hout).resolve_left hu) x hexecuted ?_
  rw [keys_eq_append, ComesBefore.append_iff] at hbefore
  rcases hbefore with hin | ⟨_, hin⟩ | hin
  · exact hin
  · exact absurd hin hnot
  · exact absurd hin.right_mem hnot

theorem Fresh.owner_quiet (hd : g.Direct) (hu : g.ownerOrInitial s ≠ g.initial.key)
    (hx : x ∈ g.vertices) (hbefore : ComesBefore g.keys (g.ownerOrInitial s) x.key) :
    x.writes s = false := by
  by_cases hpending : x.key ∈ g.pendingKeys
  · rw [← Bool.not_eq_true, ← writesAt_iff hg.keyed hx]
    exact hd.owner x.key s hbefore hpending
  · exact h.executed_quiet hg (Or.inr rfl) hu hx hbefore hpending

theorem Fresh.edge_quiet (hd : g.Direct) {v : NodeKey} (he : g.Enters u v s)
    (hu : u ≠ g.initial.key) (hx : x ∈ g.vertices) (hux : ComesBefore g.keys u x.key)
    (hxv : ComesBefore g.keys x.key v) : x.writes s = false := by
  by_cases hpending : x.key ∈ g.pendingKeys
  · rw [← Bool.not_eq_true, ← writesAt_iff hg.keyed hx]
    exact hd.edge u v x.key s he hux hxv hpending
  · exact h.executed_quiet hg (Or.inl ⟨v, he⟩) hu hx hux hpending

end Quiet

theorem Retires.fresh {g g' : Graph ρ} (h : g.Retires g') (hf : g.Fresh) (hd : g.Direct)
    (hg : g.Sound) : g'.Fresh := by
  have hsettled := h.settled
  intro u s hfeeds _
  have howner : g'.ownerOrInitial s = u := by
    rcases hfeeds with ⟨v, henters⟩ | howner
    · exact absurd henters (hsettled.no_edges u v s)
    · exact howner
  rw [h.ownerOrInitial] at howner
  rw [h.initial_key]
  by_cases hinitial : u = g.initial.key
  · exact Or.inl hinitial
  refine Or.inr fun x' hx' hbefore => ?_
  rw [← hsettled.vertices_eq] at hx' hbefore
  have hmark : x'.mark ∈ g.vertices.map Vertex.mark :=
    h.marks_sublist.subset (List.mem_map_of_mem hx')
  rcases List.mem_map.mp hmark with ⟨x, hx, heq⟩
  rcases Prod.mk.inj heq with ⟨hkey, htitle⟩
  have hlater : ComesBefore g.keys u x.key := by
    rw [hkey]
    exact hbefore.of_sublist h.keys_sublist
  rw [← howner] at hinitial hlater
  have hquiet := hf.owner_quiet hg hd hinitial hx hlater
  have htask : x'.task = x.task := congrArg (fun t => t.1.task) htitle.symm
  have hnot : x'.isInitial = false :=
    hsettled.sound.numbered.later x' (hsettled.sound.keyed.later_of_before hx' hbefore)
  rw [Node.writes, hnot, Bool.false_or, htask]
  rw [Node.writes, Bool.or_eq_false_iff] at hquiet
  exact hquiet.right

end Graph

namespace Session

/-!
## All sessions
-/

section Freshness

variable {bank : Bank ρ} {s s' : Session ρ} {a : Action ρ}

theorem Added.drawsOn {g g' : Graph ρ} (h : Added bank g g') (hg : g.Consistent) :
    g.DrawsOn g' := by
  cases h with
  | grow grown => exact grown.drawsOn hg.sound
  | recount launches currentLists nextSerial window =>
      exact ⟨rfl, fun _ _ h hu => Or.inr ⟨h, hu⟩⟩
  | insert _ inserted => exact inserted.drawsOn hg.sound
  | @rebuild sort _ ran =>
      rcases Graph.rebuild_ok hg sort with ⟨g1, base, hrun, hextracted, hbuilt, hbare, _⟩
      rw [hrun] at ran
      cases ran
      exact hextracted.drawsOn_built hg.sound hbuilt hbare

/-- Whatever the caller does, states that come from executed nodes come from the last that write
them, or from the initial node. -/
theorem Reachable.fresh (h : Reachable bank Allowed s) : s.graph.Fresh := by
  induction h with
  | start => exact Graph.fresh_of_history_nil rfl
  | @step s s' a before allowed performed ih =>
      have hs := before.consistent fun _ _ h => h.deletable
      have hadds : Action.Adds a -> s'.graph.Fresh := by
        intro ha
        rcases added hs ha with ⟨s1, hrun, hadded⟩
        rw [hrun] at performed
        cases performed
        exact (hadded.drawsOn hs).fresh ih
      cases a with
      | runPass pass =>
          rcases Graph.run_drawsOn bank hs pass with ⟨g', changed, hrun, hdraws⟩
          rw [perform_runPass_eq hrun] at performed
          cases performed
          exact hdraws.fresh ih
      | deleteNodes positions =>
          rcases Graph.deleteNodes_ok hs.sound hs.forward allowed
            with ⟨doomed, g', hrun, hkeysAt, hdeleted⟩
          rw [perform, hrun] at performed
          cases performed
          exact (hdeleted.drawsOn hs.sound fun k hk => hkeysAt.pending hk).fresh ih
      | extractPending =>
          rcases Graph.extractPending_ok hs.sound hs.forward with ⟨base, hrun, hextracted⟩
          rw [perform, hrun] at performed
          cases performed
          exact (hextracted.drawsOn hs.sound).fresh ih
      | markExecuted =>
          cases performed
          exact hs.markExecuted_retires.fresh ih before.direct hs.sound
      | extractToExecute =>
          rcases hs.extractToExecute_retires with ⟨g', hrun, hretires⟩
          rw [perform, Graph.sortPending_eq hs.sound hs.forward hs.aged, ok_bind, hrun]
            at performed
          cases performed
          exact hretires.fresh ih before.direct hs.sound
      | clear =>
          cases performed
          exact Graph.fresh_of_history_nil rfl
      | insertTasks filter records => exact hadds trivial
      | newNode record => exact hadds trivial
      | insertNode n => exact hadds trivial
      | setWindow size => exact hadds trivial
      | rebuild sort => exact hadds trivial
      | sortPending => exact hadds trivial

end Freshness

end Session
end LaunchGraph
