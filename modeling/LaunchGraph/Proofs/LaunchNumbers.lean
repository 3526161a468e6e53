import LaunchGraph.Proofs.Graph.Calls
import LaunchGraph.Proofs.Session

/-!
# Launch numbers tell nodes apart

Whatever a caller does who puts in no node twice, no two nodes of a graph are of one task name
and one launch number.  Passes give a node a fresh number if it launches several records
together, and otherwise keep its name and its number.
-/

namespace LaunchGraph

variable {ρ : Type}

/-!
## Groups
-/

def FusionGroup.Described (bank : Bank ρ) (group : FusionGroup ρ) : Prop :=
  group.followers ≠ [] -> group.description = bank.describe group.record

theorem GrowingGroup.offer_described {bank : Bank ρ} {gg : GrowingGroup ρ}
    (h : gg.group.Described bank) (v : Vertex ρ) (j : Nat) :
    (gg.offer bank v j).group.Described bank := by
  rw [offer]
  split
  · exact h
  · split
    · split
      · next record d hfused =>
          rcases fused?_eq_some hfused with ⟨_, _, _, hd⟩
          exact fun _ => hd
      · exact h
    · exact h

theorem GrowingGroup.foldl_offer_described {bank : Bank ρ} {gg : GrowingGroup ρ}
    (h : gg.group.Described bank) (later : List (Placed ρ)) :
    (later.foldl (fun gg q => gg.offer bank q.1 q.2) gg).group.Described bank := by
  induction later generalizing gg with
  | nil => exact h
  | cons q later ih => exact ih (offer_described h q.1 q.2)

theorem description_of_mem_gather (bank : Bank ρ) {p : FusionProgress} {window : List (Placed ρ)}
    {group : FusionGroup ρ} (h : group ∈ p.gather bank window) :
    group.description = bank.describe group.record := by
  rcases grown_of_mem_gather bank h with ⟨p', q, start, later, hstart, rfl, hjoined⟩
  rcases FusionProgress.start?_eq_some hstart with ⟨_, _, _, rfl⟩
  exact GrowingGroup.foldl_offer_described (fun halone => absurd rfl halone) later hjoined

namespace Graph

variable {bank : Bank ρ} {outside : List (Node ρ)} {g : Graph ρ}

/-!
## Launches
-/

theorem insertTask_enrolls (h : g.Enrolls bank outside) (filter : Bool) (record : ρ) :
    Yields (g.insertTask bank filter record) fun r => r.1.Enrolls bank outside := by
  rw [insertTask]
  dsimp only
  rcases trackLists_cases bank filter g (bank.describe record).task
    with ⟨hnone, _⟩ | ⟨currentLists, hsome⟩
  · rw [hnone]
    exact .ok h
  · rw [hsome]
    have htracked : (g.withCounts g.launches currentLists g.nextSerial g.window).Enrolls bank
        outside := h.of_subperm rfl rfl (.refl _)
    have hnode := newNodeOf_enrolls htracked record (d := bank.describe record) rfl
    exact .bind (insertNode_enrolls hnode) fun _ h1 => .ok h1

theorem insertTasks_enrolls (h : g.Enrolls bank outside) (filter : Bool) (records : List ρ) :
    Yields (g.insertTasks bank filter records) fun r => r.1.Enrolls bank outside := by
  refine .foldlM (Q := fun r : Graph ρ × Nat => r.1.Enrolls bank outside) h ?_ records
  exact fun r record h1 => .bind (insertTask_enrolls h1 filter record) fun _ h2 => .ok h2

/-!
## Records in the place of records
-/

theorem Relaunched.enrolls {g' : Graph ρ} (h : g.Relaunched g') (hg : g.Keyed)
    (henrolls : g.Enrolls bank outside)
    (hnamed : forall v w, v ∈ g.pending -> g'.find? v.key = some w ->
      w.task.name = v.task.name ∧ forall record, w.record = some record ->
        (bank.describe record).task.name = v.task.name) : g'.Enrolls bank outside := by
  refine henrolls.of_forall₂ (List.cons.inj h.executed).left (List.cons.inj h.executed).right
    h.launches ?_
  rw [h.pending_eq hg, List.forall₂_map_left_iff, List.forall₂_same]
  intro v hv
  have hmem : v.key ∈ g'.keys := by
    rw [h.keys]
    exact key_mem_keys (mem_vertices_of_pending hv)
  rcases hnamed v _ hv (find?_vertexOf hmem) with ⟨hname, hrecord⟩
  have hblank := h.find? v.key
  rw [find?_vertexOf hmem, hg.find?_pending hv, Option.map_some, Option.map_some] at hblank
  have hid := congrArg (fun w : Vertex ρ => w.launchId) (Option.some.inj hblank)
  exact ⟨congrArg₂ Prod.mk hname hid, hrecord⟩

theorem Enrolls.named_self (h : g.Enrolls bank outside) {v w : Vertex ρ} (hv : v ∈ g.pending)
    (hw : some v = some w) : w.task.name = v.task.name ∧ forall record, w.record = some record ->
      (bank.describe record).task.name = v.task.name := by
  cases hw
  refine ⟨rfl, h.enrolled.named v.toNode ?_⟩
  exact List.mem_append_left _ (List.mem_map_of_mem (List.mem_append_right _ hv))

theorem eliminateDeadStores_enrolls (hbank : bank.KeepsNames) (hg : g.Sound) (hf : g.Forward)
    (h : g.Enrolls bank outside) :
    Yields (g.eliminateDeadStores bank) fun r => r.1.Enrolls bank outside := by
  rcases walk_ok bank hg hf with ⟨scan, hrun, hwalked⟩
  have hscan : scan.graph.Enrolls bank outside := by
    refine hwalked.relaunched.enrolls hg.keyed h fun v w hv hw => ?_
    cases hwalked.scanned v hv (List.mem_map_of_mem hv) with
    | keep found => exact h.named_self hv (found.symm.trans hw)
    | delete found => exact h.named_self hv (found.symm.trans hw)
    | @strip record handle judged task found =>
        cases judged with
        | @strip old _ dead own quiet eliminated =>
            have hname := hbank.eliminateStores _ _ _ eliminated
            have hold := (h.named_self hv rfl).right old own
            rw [hw] at found
            cases found
            refine ⟨(congrArg Task.name task).trans (hname.trans hold), ?_⟩
            intro record' hrecord
            cases hrecord
            exact hname.trans hold
  rw [eliminateDeadStores, hrun, ok_bind]
  split
  · exact .ok hscan
  · exact .bind (deleteNodes_enrolls hscan _) fun g2 h2 =>
      .bind (rebuild_enrolls h2 false) fun g3 h3 => .ok h3

theorem DemotedAt.enrolls {g' : Graph ρ} {k : NodeKey} (hdemoted : DemotedAt bank k g g')
    (hbank : bank.KeepsNames) (hg : g.Keyed) (h : g.Enrolls bank outside) :
    g'.Enrolls bank outside := by
  refine hdemoted.relaunched.enrolls hg h fun v w hv hw => ?_
  by_cases hk : v.key = k
  · subst hk
    rcases hdemoted.demotable with ⟨⟨demoted, d⟩, hdemotable, hlaunch⟩
    rw [hg.vertexOf_key (mem_vertices_of_pending hv)] at hdemotable
    rw [vertexOf_of_find? hw] at hlaunch
    rcases Prod.mk.inj hlaunch with ⟨hrecord, htask⟩
    have hd : d = bank.describe demoted := hdemotable.described
    rcases hdemotable.dominated with ⟨_, _, old, model, _, _, _, hold, _, hdemote, _⟩
    have hname : (bank.describe demoted).task.name = v.task.name :=
      (hbank.demote _ _ _ hdemote).trans ((h.named_self hv rfl).right old hold)
    refine ⟨?_, ?_⟩
    · rw [← hname, ← hd]
      exact congrArg Task.name htask
    · intro record hnow
      cases hrecord.symm.trans hnow
      exact hname
  · rw [hdemoted.other _ hk, hg.find?_pending hv] at hw
    exact h.named_self hv hw

theorem DemotedSome.enrolls {g' : Graph ρ} (hdemoted : DemotedSome bank g g')
    (hbank : bank.KeepsNames) (hg : g.Sound) (h : g.Enrolls bank outside) :
    g'.Enrolls bank outside := by
  induction hdemoted with
  | single hstep =>
      rcases hstep with ⟨k, hstep⟩
      exact hstep.enrolls hbank hg.keyed h
  | tail hbefore hstep ih =>
      rcases hstep with ⟨k, hstep⟩
      exact hstep.enrolls hbank (DemotedSome.relaunched hbefore |>.sound hg).keyed ih

theorem demoteActivations_enrolls (hbank : bank.KeepsNames) (hg : g.Sound)
    (h : g.Enrolls bank outside) :
    Yields (g.demoteActivations bank) fun r => r.1.Enrolls bank outside := by
  rw [demoteActivations_eq]
  have hstart : Walks bank g (g, false) := Or.inl ⟨rfl, rfl⟩
  rcases hstart.run hg fun _ hk => hk with ⟨r, hrun, hwalks⟩
  rw [hrun, ok_bind, rebuildDemoted]
  have hwalked : r.1.Enrolls bank outside := by
    rcases hwalks with ⟨_, heq⟩ | ⟨_, hdemoted⟩
    · rw [heq]
      exact h
    · exact hdemoted.enrolls hbank hg h
  split
  · exact .bind (rebuild_enrolls hwalked false) fun g2 h2 => .ok h2
  · exact .ok hwalked

/-!
## Lists and fusion
-/

theorem optimizeListgen_enrolls (h : g.Enrolls bank outside) :
    Yields g.optimizeListgen fun r => r.1.Enrolls bank outside := by
  refine .bind (sortPending_enrolls h) fun g1 h1 => .bind_any fun found => ?_
  dsimp only
  split
  · exact .ok h1
  · refine .bind (P := g1.Reconnected) ?_ fun g2 h2 => ?_
    · exact .foldlM (.refl g1) (fun _ r h2 => redirect_reconnects h2 _ _ true) _
    · exact .bind (deleteNodes_enrolls (h1.of_reconnected h2) _) fun g3 h3 =>
        .bind (rebuild_enrolls h3 false) fun g4 h4 => .ok h4

theorem appendFused_enrolls (h : g.Enrolls bank outside)
    {group : FusionGroup ρ} (hgroup : group.description = bank.describe group.record) :
    (g.appendFused group).1.Enrolls bank outside := by
  have hnode := newNodeOf_enrolls h group.record (d := group.description) (by rw [hgroup])
  refine hnode.of_subperm rfl rfl (List.Perm.subperm ?_)
  show ((_ ++ (_ ++ [_])).map (fun v : Vertex ρ => v.ticket) ++ _).Perm _
  simp only [List.map_append, List.map_cons, List.map_nil, List.append_assoc,
    List.singleton_append]
  exact .refl _

theorem materialize_enrolls (h : g.Enrolls bank outside)
    (positions : OrderedSet Nat) {group : FusionGroup ρ}
    (hgroup : group.description = bank.describe group.record) :
    Yields (g.materialize positions group) fun r => r.1.Enrolls bank outside := by
  have happended := appendFused_enrolls h hgroup
  refine .mono (P := fun r => (g.appendFused group).1.Reconnected r.1) ?_ fun r h1 =>
    happended.of_reconnected h1
  refine .foldlM (Q := fun r : Graph ρ × OrderedSet Nat => (g.appendFused group).1.Reconnected r.1)
    (.refl _) (fun r v h1 => ?_) _
  exact .bind_any fun member => .bind (redirect_reconnects h1 _ _ false) fun g2 h2 => .ok h2

theorem fuseRange_enrolls (h : g.Enrolls bank outside) (first last : Nat) :
    Yields (g.fuseRange bank first last) fun r => r.1.Enrolls bank outside := by
  refine .bind (P := fun groups : List (FusionGroup ρ) => forall group, group ∈ groups ->
    group.description = bank.describe group.record) ?_ fun groups hgroups => ?_
  · refine .bind_any fun window => .bind_any fun reachability => .ok ?_
    exact fun group hgroup => description_of_mem_gather bank hgroup
  · exact .foldlM_of_mem (Q := fun r : Graph ρ × OrderedSet Nat => r.1.Enrolls bank outside) h
      fun r group hgroup h1 => materialize_enrolls h1 r.2 (hgroups group hgroup)

theorem fuseWindows_enrolls (h : g.Enrolls bank outside)
    (positions : OrderedSet Nat) (count first : Nat) :
    Yields (g.fuseWindows bank positions count first) fun r => r.1.Enrolls bank outside := by
  fun_induction fuseWindows bank g positions count first with
  | case1 g positions first hlt last ih =>
      exact .bind (fuseRange_enrolls h first last) fun r h1 => ih r.1 r.2 h1
  | case2 g positions first hge => exact .ok h

theorem fuse_enrolls (h : g.Enrolls bank outside) :
    Yields (g.fuse bank) fun r => r.1.Enrolls bank outside := by
  refine .bind (fuseWindows_enrolls h _ _ _) fun r h1 => ?_
  dsimp only
  split
  · exact .ok h1
  · exact .bind (deleteNodes_enrolls h1 _) fun g2 h2 =>
      .bind (rebuild_enrolls h2 true) fun g3 h3 => .ok h3

theorem run_enrolls (hbank : bank.KeepsNames) (hg : g.Consistent) (h : g.Enrolls bank outside)
    (pass : Pass) : Yields (pass.run bank g) fun r => r.1.Enrolls bank outside := by
  cases pass with
  | listgen => exact optimizeListgen_enrolls h
  | deadStores => exact eliminateDeadStores_enrolls hbank hg.sound hg.forward h
  | demotion => exact demoteActivations_enrolls hbank hg.sound h
  | fusion => exact fuse_enrolls h

end Graph

/-!
## Sessions
-/

namespace Session

variable {bank : Bank ρ} {s s' : Session ρ} {stock : List (Node ρ)}

def Hands (bank : Bank ρ) (s : Session ρ) (stock : List (Node ρ)) (s' : Session ρ) : Prop :=
  exists more, s'.held = s.held ++ more ∧ s'.graph.Enrolls bank (stock ++ more)

theorem Hands.of_enrolls {g : Graph ρ} {log : List Entry} (h : g.Enrolls bank stock) :
    Hands bank s stock ⟨g, s.held, log⟩ := by
  refine ⟨[], (List.append_nil _).symm, ?_⟩
  rw [List.append_nil]
  exact h

theorem perform_hands (hbank : bank.KeepsNames) (hs : s.graph.Consistent)
    (h : s.graph.Enrolls bank stock) {a : Action ρ} (hput : forall n, a ≠ .insertNode n) :
    Yields (s.perform bank a) (Hands bank s stock) := by
  have hmore : forall {g : Graph ρ} {more : List (Node ρ)}, g.Enrolls bank (more ++ stock) ->
      Hands bank s stock ⟨g, s.held ++ more, s.log⟩ := by
    intro g more h1
    refine ⟨more, rfl, h1.of_subperm rfl rfl (List.Perm.subperm ?_)⟩
    exact List.Perm.append_left _ (List.perm_append_comm.map _)
  cases a with
  | insertTasks filter records =>
      exact .bind (Graph.insertTasks_enrolls h filter records) fun _ h1 => .ok (.of_enrolls h1)
  | newNode record =>
      exact .ok (hmore (Graph.newNodeOf_enrolls h record rfl))
  | insertNode n => exact absurd rfl (hput n)
  | runPass pass =>
      exact .bind (Graph.run_enrolls hbank hs h pass) fun _ h1 => .ok (.of_enrolls h1)
  | setWindow size => exact .ok (.of_enrolls (h.of_subperm rfl rfl (.refl _)))
  | rebuild sort => exact .bind (Graph.rebuild_enrolls h sort) fun _ h1 => .ok (.of_enrolls h1)
  | sortPending => exact .bind (Graph.sortPending_enrolls h) fun _ h1 => .ok (.of_enrolls h1)
  | deleteNodes positions =>
      exact .bind (Graph.deleteNodes_enrolls h positions) fun _ h1 => .ok (.of_enrolls h1)
  | extractPending =>
      exact .bind (Graph.extractPending_enrolls h) fun _ h1 => .ok (hmore h1)
  | markExecuted => exact .ok (.of_enrolls (Graph.markExecuted_enrolls h))
  | extractToExecute =>
      exact .bind_any fun _ =>
        .bind (Graph.extractToExecute_enrolls h) fun _ h1 => .ok (.of_enrolls h1)
  | clear => exact .ok (.of_enrolls (Graph.clear_enrolls h))

/-- The sessions that a caller gets to who puts in no node twice, each with the nodes that were
handed out and not put in yet. -/
inductive Stocked (bank : Bank ρ) : Session ρ -> List (Node ρ) -> Prop where
  | start : Stocked bank .new []
  | put {s s' : Session ρ} {before after : List (Node ρ)} {n : Node ρ}
      (earlier : Stocked bank s (before ++ n :: after))
      (performed : s.perform bank (.insertNode n) = .ok s') : Stocked bank s' (before ++ after)
  | act {s s' : Session ρ} {stock more : List (Node ρ)} {a : Action ρ}
      (earlier : Stocked bank s stock) (allowed : s.Allowed a)
      (other : forall n, a ≠ .insertNode n) (performed : s.perform bank a = .ok s')
      (handed : s'.held = s.held ++ more) : Stocked bank s' (stock ++ more)

namespace Stocked

theorem consistent (h : Stocked bank s stock) : s.graph.Consistent := by
  induction h with
  | start => exact Graph.new_settled.built.consistent
  | put _ performed ih =>
      exact (perform_stepped (a := .insertNode _) ih trivial performed).consistent
  | act _ allowed _ performed _ ih =>
      exact (perform_stepped ih allowed.deletable performed).consistent

/-- No two nodes are of one call, in the graph or on their way to it. -/
theorem enrolls (h : Stocked bank s stock) (hbank : bank.KeepsNames) :
    s.graph.Enrolls bank stock := by
  induction h with
  | start => exact ⟨rfl, .nil bank ∅⟩
  | @put s s' before after n _ performed ih =>
      have hfirst : s.graph.Enrolls bank (n :: (before ++ after)) := by
        refine ih.of_subperm rfl rfl (List.Perm.subperm ?_)
        exact List.Perm.append_left _ (List.perm_middle.symm.map _)
      have hyields : Yields (s.perform bank (.insertNode n))
          fun s' => s'.graph.Enrolls bank (before ++ after) :=
        .bind (Graph.insertNode_enrolls hfirst) fun _ h1 => .ok h1
      exact hyields _ performed
  | act earlier _ other performed handed ih =>
      rcases perform_hands hbank earlier.consistent ih other _ performed with ⟨more, hheld, h1⟩
      rw [handed] at hheld
      rw [List.append_cancel_left hheld]
      exact h1

end Stocked

end Session

end LaunchGraph
