import Mathlib.Data.List.TakeWhile
import LaunchGraph.Proofs.Graph.Lists

/-!
# Left out list generations

A graph remembers of each field whether its index list was generated since a launch made it
stale.  It remembers this through everything else that happens: a list generation counts
also after it was executed, and even if it was discarded before.  So the filter leaves a list
generation out only if there was one of the same field before, and no launch of another kind
has written since then what a list generation of the field reads or writes.  That the list of the
field above was generated since then goes unnoticed.
-/

namespace LaunchGraph

variable {ρ : Type}

/-!
## Fields below a field
-/

namespace Bank

variable {bank : Bank ρ}

theorem mem_of_dropWhile_eq_nil {work : List SNodeId} {seen : OrderedSet SNodeId}
    (h : work.dropWhile (· ∈ seen) = []) {s : SNodeId} (hs : s ∈ work) : s ∈ seen := by
  have hall := List.dropWhile_eq_nil_iff.mp h s hs
  exact of_decide_eq_true hall

theorem mem_of_dropWhile_eq_cons {work rest : List SNodeId} {seen : OrderedSet SNodeId}
    {next : SNodeId} (h : work.dropWhile (· ∈ seen) = next :: rest) {s : SNodeId} (hs : s ∈ work) :
    s ∈ seen ∨ s = next ∨ s ∈ rest := by
  rw [← List.takeWhile_append_dropWhile (p := fun t => decide (t ∈ seen)) (l := work), h,
    List.mem_append, List.mem_cons] at hs
  rcases hs with hs | hs
  · have hseen := List.mem_takeWhile_imp hs
    exact Or.inl (of_decide_eq_true hseen)
  · exact Or.inr hs

theorem mem_descend_of_seen {work : List SNodeId} {seen : OrderedSet SNodeId} {s : SNodeId}
    (hs : s ∈ seen) : s ∈ bank.descend work seen := by
  fun_induction Bank.descend bank work seen with
  | case1 work seen stopped => exact hs
  | case2 work seen next rest stopped ih => exact ih (OrderedSet.mem_insert.mpr (Or.inr hs))

theorem mem_descend_of_work {work : List SNodeId} {seen : OrderedSet SNodeId} {s : SNodeId}
    (hs : s ∈ work) : s ∈ bank.descend work seen := by
  fun_induction Bank.descend bank work seen with
  | case1 work seen stopped => exact mem_of_dropWhile_eq_nil stopped hs
  | case2 work seen next rest stopped ih =>
      rcases mem_of_dropWhile_eq_cons stopped hs with hseen | rfl | hrest
      · exact mem_descend_of_seen (OrderedSet.mem_insert.mpr (Or.inr hseen))
      · exact mem_descend_of_seen (OrderedSet.mem_insert.mpr (Or.inl rfl))
      · exact ih (List.mem_append_right _ hrest)

/-- As long as children of what was seen are seen or waiting, the search leaves none out. -/
theorem descend_closed {work : List SNodeId} {seen : OrderedSet SNodeId}
    (h : forall p, p ∈ seen -> forall c, c ∈ bank.children p -> c ∈ seen ∨ c ∈ work) {p c : SNodeId}
    (hp : p ∈ bank.descend work seen) (hc : c ∈ bank.children p) :
    c ∈ bank.descend work seen := by
  fun_induction Bank.descend bank work seen with
  | case1 work seen stopped =>
      rcases h p hp c hc with hseen | hwork
      · exact hseen
      · exact mem_of_dropWhile_eq_nil stopped hwork
  | case2 work seen next rest stopped ih =>
      refine ih ?_ hp
      intro q hq d hd
      rw [OrderedSet.mem_insert, List.mem_append]
      rcases OrderedSet.mem_insert.mp hq with rfl | hq
      · exact Or.inr (Or.inl hd)
      · rcases h q hq d hd with hseen | hwork
        · exact Or.inl (Or.inr hseen)
        · rcases mem_of_dropWhile_eq_cons stopped hwork with hseen | rfl | hrest
          · exact Or.inl (Or.inr hseen)
          · exact Or.inl (Or.inl rfl)
          · exact Or.inr (Or.inr hrest)

theorem mem_descendants_self (s : SNodeId) : s ∈ bank.descendants s :=
  mem_descend_of_work (List.mem_singleton.mpr rfl)

theorem mem_descendants_of_child {s p c : SNodeId} (hp : p ∈ bank.descendants s)
    (hc : c ∈ bank.children p) : c ∈ bank.descendants s := by
  refine descend_closed ?_ hp hc
  intro q hq
  exact absurd hq (OrderedSet.not_mem_empty q)

end Bank

/-!
## What a launch does to the lists
-/

namespace Task

structure Spares (bank : Bank ρ) (t : Task) (s : SNodeId) : Prop where
  other : t.taskType = .listgen -> t.snode ≠ some s
  fresh : t.taskType ≠ .listgen -> forall r, r ∈ t.staleLists -> s ∉ bank.descendants r

structure Generates (t : Task) (s : SNodeId) : Prop where
  taskType : t.taskType = .listgen
  snode : t.snode = some s

/-- A list generation reads the list of the field above and the mask of its field, and writes
its list. -/
structure MakesList (bank : Bank ρ) (t : Task) (s : SNodeId) : Prop where
  outputs : forall x, x ∈ t.outputs ↔ x = .ofSNode s .list
  mask : .ofSNode s .mask ∈ t.inputs
  above : forall p, s ∈ bank.children p -> .ofSNode p .list ∈ t.inputs

def GeneratesProperly (bank : Bank ρ) (t : Task) : Prop :=
  forall s, t.Generates s -> t.MakesList bank s

theorem mem_staleLists {t : Task} {s : SNodeId} {kind : StateKind} (hkind : kind ≠ .value)
    (h : State.ofSNode s kind ∈ t.outputs) : s ∈ t.staleLists := by
  refine List.mem_filterMap.mpr ⟨_, OrderedSet.mem_def.mp h, ?_⟩
  cases kind with
  | value => exact absurd rfl hkind
  | mask => rfl
  | list => rfl
  | allocator => rfl

/-- What makes the list of a field stale: a write of the list or the mask of the field, or
of the list of a field right above it. -/
def Disturbs (bank : Bank ρ) (t : Task) (s : SNodeId) : Prop :=
  .ofSNode s .list ∈ t.outputs ∨ .ofSNode s .mask ∈ t.outputs ∨
    exists p, s ∈ bank.children p ∧ .ofSNode p .list ∈ t.outputs

namespace MakesList

variable {bank : Bank ρ} {t : Task} {r s : SNodeId}

theorem list_notMem (h : t.MakesList bank r) (hne : s ≠ r) : State.ofSNode s .list ∉ t.outputs := by
  intro hin
  cases (h.outputs _).mp hin
  exact hne rfl

theorem mask_notMem (h : t.MakesList bank r) : State.ofSNode s .mask ∉ t.outputs := by
  intro hin
  cases (h.outputs _).mp hin

theorem disturbs_iff (h : t.MakesList bank r) (hne : s ≠ r) :
    t.Disturbs bank s ↔ s ∈ bank.children r := by
  constructor
  · rintro (hlist | hmask | ⟨p, hp, hlist⟩)
    · exact absurd hlist (h.list_notMem hne)
    · exact absurd hmask h.mask_notMem
    · cases (h.outputs _).mp hlist
      exact hp
  · intro hs
    exact Or.inr (Or.inr ⟨r, hs, (h.outputs _).mpr rfl⟩)

end MakesList

theorem Spares.not_disturbs {bank : Bank ρ} {t : Task} {s : SNodeId} (h : t.Spares bank s)
    (htype : t.taskType ≠ .listgen) : ¬t.Disturbs bank s := by
  rintro (hlist | hmask | ⟨p, hp, hlist⟩)
  · exact h.fresh htype s (mem_staleLists (by decide) hlist) (Bank.mem_descendants_self s)
  · exact h.fresh htype s (mem_staleLists (by decide) hmask) (Bank.mem_descendants_self s)
  · exact h.fresh htype p (mem_staleLists (by decide) hlist)
      (Bank.mem_descendants_of_child (Bank.mem_descendants_self p) hp)

end Task

namespace Graph

variable {bank : Bank ρ} {g : Graph ρ} {t : Task}

theorem mem_foldl_markListStale {stale : List SNodeId} {s : SNodeId} :
    s ∈ (stale.foldl (markListStale bank) g).currentLists ↔
      s ∈ g.currentLists ∧ forall r, r ∈ stale -> s ∉ bank.descendants r := by
  induction stale generalizing g with
  | nil => simp
  | cons r stale ih =>
      have hmark : s ∈ (g.markListStale bank r).currentLists ↔
          s ∈ g.currentLists ∧ s ∉ bank.descendants r := OrderedSet.mem_sdiff
      rw [List.foldl_cons, ih, hmark, List.forall_mem_cons, and_assoc]

theorem trackLists_eq_none (h : g.trackLists bank true t = none) :
    exists s, t.Generates s ∧ s ∈ g.currentLists := by
  rw [trackLists] at h
  split at h
  · next htype =>
      split at h
      · next s hs =>
          rw [if_pos rfl] at h
          split at h
          · next hcurrent => exact ⟨s, ⟨htype, hs⟩, of_decide_eq_true hcurrent⟩
          · cases h
      · cases h
  · cases h

theorem trackLists_eq_some {g' : Graph ρ} (h : g.trackLists bank true t = some g') {s : SNodeId}
    (hs : s ∈ g'.currentLists) : t.Generates s ∨ (s ∈ g.currentLists ∧ t.Spares bank s) := by
  rw [trackLists] at h
  split at h
  · next htype =>
      split at h
      · next r hr =>
          rw [if_pos rfl] at h
          split at h
          · cases h
          · cases h
            have hinsert : s = r ∨ s ∈ g.currentLists := OrderedSet.mem_insert.mp hs
            by_cases hsr : s = r
            · exact Or.inl ⟨htype, hsr ▸ hr⟩
            · refine Or.inr ⟨hinsert.resolve_left hsr, fun _ heq => hsr ?_,
                fun hne => absurd htype hne⟩
              exact Option.some.inj (heq.symm.trans hr)
      · next hnone =>
          cases h
          refine Or.inr ⟨hs, fun _ heq => ?_, fun hne => absurd htype hne⟩
          rw [hnone] at heq
          cases heq
  · next htype =>
      cases h
      rcases mem_foldl_markListStale.mp hs with ⟨hcurrent, hfresh⟩
      exact Or.inr ⟨hcurrent, fun heq => absurd heq htype, fun _ => hfresh⟩

/-- A launch is left out only if its list is current.  Any other launch makes current at most
the list that it generates. -/
theorem insertTask_lists (bank : Bank ρ) (g : Graph ρ) (record : ρ) :
    Yields (g.insertTask bank true record) fun r =>
      (r.2 = false -> r.1 = g ∧
        exists s, (bank.describe record).task.Generates s ∧ s ∈ g.currentLists) ∧
      (r.2 = true -> forall s, s ∈ r.1.currentLists ->
        (bank.describe record).task.Generates s ∨
          (s ∈ g.currentLists ∧ (bank.describe record).task.Spares bank s)) := by
  rw [insertTask]
  dsimp only
  split
  · next hnone =>
      refine .ok ⟨fun _ => ⟨rfl, trackLists_eq_none hnone⟩, ?_⟩
      intro h
      cases h
  · next g1 hsome =>
      have hnode : HasLists g1.currentLists (g1.newNodeOf record (bank.describe record)).1 :=
        adopt_lists (g := g1) rfl (bank.describe record)
      refine .bind (insertNode_lists hnode _) fun r h1 => .ok ⟨?_, ?_⟩
      · intro h
        cases h
      · intro _ s hs
        rw [h1] at hs
        exact trackLists_eq_some hsome hs

end Graph

/-!
## Histories
-/

inductive Event where
  | launched (t : Task)
  | executed
  | discarded

/-- The graphs that launches with the filter on, passes, executions and removals lead to, each
with what happened. -/
inductive History (bank : Bank ρ) : Graph ρ -> List Event -> Prop where
  | start : History bank .new []
  | launch {g g' : Graph ρ} {events : List Event} {record : ρ} (before : History bank g events)
      (run : g.insertTask bank true record = .ok (g', true)) :
      History bank g' (events ++ [.launched (bank.describe record).task])
  | leaveOut {g g' : Graph ρ} {events : List Event} {record : ρ} (before : History bank g events)
      (run : g.insertTask bank true record = .ok (g', false)) : History bank g' events
  | pass {g g' : Graph ρ} {events : List Event} {pass : Pass} {changed : Bool}
      (before : History bank g events) (run : pass.run bank g = .ok (g', changed)) :
      History bank g' events
  | execute {g g' : Graph ρ} {events : List Event} {records : List ρ}
      (before : History bank g events) (run : g.extractToExecute = .ok (g', records)) :
      History bank g' (events ++ [.executed])
  | extract {g g' : Graph ρ} {events : List Event} {nodes : List (Node ρ)}
      (before : History bank g events) (run : g.extractPending = .ok (g', nodes)) :
      History bank g' (events ++ [.discarded])
  | clear {g : Graph ρ} {events : List Event} (before : History bank g events) :
      History bank g.clear (events ++ [.discarded])

def Generated (bank : Bank ρ) (events : List Event) (s : SNodeId) : Prop :=
  exists earlier t later, events = earlier ++ .launched t :: later ∧ t.Generates s ∧
    forall u, .launched u ∈ later -> u.Spares bank s

namespace Generated

variable {bank : Bank ρ} {events : List Event} {s : SNodeId}

theorem append (h : Generated bank events s) {e : Event}
    (he : forall u, e = .launched u -> u.Spares bank s) : Generated bank (events ++ [e]) s := by
  rcases h with ⟨earlier, t, later, rfl, hgenerates, hspares⟩
  refine ⟨earlier, t, later ++ [e], by rw [List.append_assoc]; rfl, hgenerates, ?_⟩
  intro u hu
  rcases List.mem_append.mp hu with hu | hu
  · exact hspares u hu
  · exact he u (List.mem_singleton.mp hu).symm

theorem append_launch {t : Task} (h : t.Generates s ∨ (Generated bank events s ∧ t.Spares bank s)) :
    Generated bank (events ++ [.launched t]) s := by
  rcases h with hgenerates | ⟨hbefore, hspares⟩
  · refine ⟨events, t, [], rfl, hgenerates, ?_⟩
    intro u hu
    cases hu
  · refine hbefore.append ?_
    intro u heq
    cases heq
    exact hspares

end Generated

namespace History

variable {bank : Bank ρ} {g : Graph ρ} {events : List Event}

/-- The list of a field is known to be current only if it was generated and spared since. -/
theorem generated (h : History bank g events) {s : SNodeId} (hs : s ∈ g.currentLists) :
    Generated bank events s := by
  have hquiet : forall e : Event, (e = .executed ∨ e = .discarded) ->
      forall u, e = .launched u -> u.Spares bank s := by
    rintro e (rfl | rfl) u heq
    · cases heq
    · cases heq
  induction h with
  | start => exact absurd hs (OrderedSet.not_mem_empty s)
  | launch _ run ih =>
      have hlists := (Graph.insertTask_lists bank _ _ _ run).right rfl s hs
      refine Generated.append_launch (hlists.imp id ?_)
      exact fun h => ⟨ih h.left, h.right⟩
  | leaveOut _ run ih =>
      cases ((Graph.insertTask_lists bank _ _ _ run).left rfl).left
      exact ih hs
  | pass _ run ih =>
      rw [Pass.run_lists bank _ _ _ run] at hs
      exact ih hs
  | execute _ run ih =>
      rw [Graph.extractToExecute_lists rfl _ run] at hs
      exact (ih hs).append (hquiet _ (Or.inl rfl))
  | extract _ run ih =>
      rw [Graph.extractPending_lists rfl _ run] at hs
      exact (ih hs).append (hquiet _ (Or.inr rfl))
  | clear _ ih => exact (ih hs).append (hquiet _ (Or.inr rfl))

theorem insertTasks (h : History bank g events) (records : List ρ) :
    Yields (g.insertTasks bank true records) fun r => exists kept : List ρ, kept.Sublist records ∧
      History bank r.1 (events ++ kept.map fun r => .launched (bank.describe r).task) := by
  refine Yields.foldlM_of_step (fun (done : List ρ) (r : Graph ρ × Nat) =>
    exists kept : List ρ, kept.Sublist done ∧
      History bank r.1 (events ++ kept.map fun r => .launched (bank.describe r).task)) ?_ ?_ records
  · refine ⟨[], .refl [], ?_⟩
    rw [List.map_nil, List.append_nil]
    exact h
  · rintro done record ⟨g1, count⟩ ⟨kept, hsub, h1⟩
    refine .bind (P := fun r => g1.insertTask bank true record = .ok r) (fun _ hr => hr) ?_
    rintro ⟨g2, inserted⟩ hrun
    cases inserted with
    | false => exact .ok ⟨kept, hsub.trans (List.sublist_append_left ..), .leaveOut h1 hrun⟩
    | true =>
        refine .ok ⟨kept ++ [record], hsub.append (.refl _), ?_⟩
        rw [List.map_append, ← List.append_assoc]
        exact .launch h1 hrun

/-- A list generation is left out only if there was one of the same field before, executed,
pending or discarded.  No launch of another kind since then has written the list or the mask of
the field, or the list of a field right above.  A list generation of a field has written neither of
the first two, but it has made the list stale if it generates the list of a field right above. -/
theorem left_out_redundant (h : History bank g events)
    (hproper : forall t, .launched t ∈ events -> t.GeneratesProperly bank) {record : ρ}
    {g' : Graph ρ} (hrun : g.insertTask bank true record = .ok (g', false)) :
    exists s earlier t later, (bank.describe record).task.Generates s ∧
      events = earlier ++ .launched t :: later ∧ t.Generates s ∧
      forall u, .launched u ∈ later ->
        (u.taskType ≠ .listgen -> ¬u.Disturbs bank s) ∧
        forall r, u.Generates r ->
          State.ofSNode s .list ∉ u.outputs ∧ State.ofSNode s .mask ∉ u.outputs ∧
            (u.Disturbs bank s ↔ s ∈ bank.children r) := by
  rcases ((Graph.insertTask_lists bank g record _ hrun).left rfl).right
    with ⟨s, hgenerates, hcurrent⟩
  rcases h.generated hcurrent with ⟨earlier, t, later, rfl, ht, hspares⟩
  refine ⟨s, earlier, t, later, hgenerates, rfl, ht, ?_⟩
  intro u hu
  refine ⟨(hspares u hu).not_disturbs, ?_⟩
  intro r hr
  have hmakes := hproper u (by simp [hu]) r hr
  have hne : s ≠ r := by
    rintro rfl
    exact (hspares u hu).other hr.taskType hr.snode
  exact ⟨hmakes.list_notMem hne, hmakes.mask_notMem, hmakes.disturbs_iff hne⟩

end History

/-!
## Lists that were not made
-/

/-- The list of a field was generated, the generation was not removed before it ran, and no
launch has made the list stale since then. -/
def Kept (bank : Bank ρ) (events : List Event) (s : SNodeId) : Prop :=
  exists earlier t later, events = earlier ++ .launched t :: later ∧ t.Generates s ∧
    (forall before after, later = before ++ .discarded :: after -> .executed ∈ before) ∧
    forall u, .launched u ∈ later -> ¬u.Disturbs bank s

def Bank.twoFields : Bank Task where
  describe t := ⟨t, none⟩
  children s := if s = ⟨0⟩ then [⟨1⟩] else []

theorem Bank.mem_children_twoFields {s p : SNodeId} :
    s ∈ Bank.twoFields.children p ↔ p = ⟨0⟩ ∧ s = ⟨1⟩ := by
  show s ∈ (if p = ⟨0⟩ then [⟨1⟩] else []) ↔ _
  split
  · next heq => simp [heq]
  · next hne => simp [hne]

namespace Sample

def list (n : UInt32) : State := .ofSNode ⟨n⟩ .list

def mask (n : UInt32) : State := .ofSNode ⟨n⟩ .mask

def listAbove : Task :=
  { name := "list_above", taskType := .listgen, snode := some ⟨0⟩, inputs := .ofList [mask 0],
    outputs := .ofList [list 0] }

def listBelow : Task :=
  { name := "list_below", taskType := .listgen, snode := some ⟨1⟩,
    inputs := .ofList [list 0, mask 1], outputs := .ofList [list 1] }

def listed (tasks : List Task) : Graph Task :=
  match Graph.new.insertTasks Bank.twoFields true tasks with
  | .ok (g, _) => g
  | .error _ => .new

theorem cleared_history :
    History Bank.twoFields (listed [listBelow]).clear [.launched listBelow, .discarded] :=
  .clear (.launch .start rfl)

theorem relisted_history : History Bank.twoFields (listed [listBelow, listAbove])
    [.launched listBelow, .launched listAbove] :=
  .launch (.launch .start rfl) rfl

theorem lists_proper {t : Task} (ht : t = listBelow ∨ t = listAbove) :
    t.GeneratesProperly Bank.twoFields := by
  intro s hs
  rcases ht with rfl | rfl
  · cases hs.snode
    refine ⟨?_, by decide, ?_⟩
    · intro x
      exact OrderedSet.mem_ofList.trans List.mem_singleton
    · intro p hp
      rw [(Bank.mem_children_twoFields.mp hp).left]
      decide
  · cases hs.snode
    refine ⟨?_, by decide, ?_⟩
    · intro x
      exact OrderedSet.mem_ofList.trans List.mem_singleton
    · intro p hp
      cases (Bank.mem_children_twoFields.mp hp).right

theorem cleared_not_kept : ¬Kept Bank.twoFields [.launched listBelow, .discarded] ⟨1⟩ := by
  rintro ⟨earlier, t, later, hevents, _, hexecuted, _⟩
  have hlater : later = [.discarded] := by
    rcases earlier with _ | ⟨e, _ | ⟨e', earlier⟩⟩
    · cases hevents
      rfl
    · cases hevents
    · simp at hevents
  cases hexecuted [] [] hlater

theorem relisted_not_kept :
    ¬Kept Bank.twoFields [.launched listBelow, .launched listAbove] ⟨1⟩ := by
  rintro ⟨earlier, t, later, hevents, hgenerates, _, hfresh⟩
  rcases earlier with _ | ⟨e, _ | ⟨e', earlier⟩⟩
  · cases hevents
    refine hfresh listAbove (List.mem_singleton.mpr rfl) (Or.inr (Or.inr ⟨⟨0⟩, ?_, ?_⟩))
    · exact List.mem_singleton.mpr rfl
    · decide
  · cases hevents
    cases hgenerates.snode
  · simp at hevents

end Sample

namespace History

/-- The list above is generated between the two list generations below it. -/
theorem left_out_redundant_relisted :
    (Sample.listed [Sample.listBelow, Sample.listAbove]).insertTask Bank.twoFields true
        Sample.listBelow
        = .ok (Sample.listed [Sample.listBelow, Sample.listAbove], false) ∧
      exists s earlier t later, Sample.listBelow.Generates s ∧
        [.launched Sample.listBelow, .launched Sample.listAbove]
          = earlier ++ .launched t :: later ∧
        t.Generates s ∧ Event.launched Sample.listAbove ∈ later ∧
        (forall u, .launched u ∈ later -> u.taskType ≠ .listgen ->
          ¬u.Disturbs Bank.twoFields s) ∧
        Sample.listAbove.Disturbs Bank.twoFields s := by
  have hproper : forall t,
      .launched t ∈ [Event.launched Sample.listBelow, .launched Sample.listAbove] ->
      t.GeneratesProperly Bank.twoFields := by
    intro t ht
    simp only [List.mem_cons, Event.launched.injEq, List.not_mem_nil, or_false] at ht
    exact Sample.lists_proper ht
  have hrun : (Sample.listed [Sample.listBelow, Sample.listAbove]).insertTask Bank.twoFields true
      Sample.listBelow
      = .ok (Sample.listed [Sample.listBelow, Sample.listAbove], false) := rfl
  rcases left_out_redundant Sample.relisted_history hproper hrun
    with ⟨s, earlier, t, later, hgenerates, hevents, ht, hsince⟩
  cases hgenerates.snode
  have hlater : Event.launched Sample.listAbove ∈ later := by
    rcases earlier with _ | ⟨e, _ | ⟨e', earlier⟩⟩
    · cases hevents
      exact List.mem_singleton.mpr rfl
    · cases hevents
      cases ht.snode
    · simp at hevents
  have hdisturbs := ((hsince _ hlater).right ⟨0⟩ ⟨rfl, rfl⟩).right.right.mpr
    (Bank.mem_children_twoFields.mpr ⟨rfl, rfl⟩)
  exact ⟨hrun, ⟨1⟩, earlier, t, later, hgenerates, hevents, ht, hlater,
    fun u hu => (hsince u hu).left, hdisturbs⟩

/-- A list generation is left out though the only one before was removed before it ran, and
though the list of the field above was generated since. -/
theorem left_out_not_kept :
    (exists g events, History Bank.twoFields g events ∧
      (forall t, .launched t ∈ events -> t.GeneratesProperly Bank.twoFields) ∧
      g.insertTask Bank.twoFields true Sample.listBelow = .ok (g, false) ∧
      .discarded ∈ events ∧ ¬Kept Bank.twoFields events ⟨1⟩) ∧
    exists g events, History Bank.twoFields g events ∧
      (forall t, .launched t ∈ events -> t.GeneratesProperly Bank.twoFields) ∧
      g.insertTask Bank.twoFields true Sample.listBelow = .ok (g, false) ∧
      .discarded ∉ events ∧ ¬Kept Bank.twoFields events ⟨1⟩ := by
  constructor
  · refine ⟨_, _, Sample.cleared_history, ?_, rfl, by simp, Sample.cleared_not_kept⟩
    intro t ht
    simp only [List.mem_cons, Event.launched.injEq, List.not_mem_nil, reduceCtorEq, or_false] at ht
    exact Sample.lists_proper (Or.inl ht)
  · refine ⟨_, _, Sample.relisted_history, ?_, rfl, by simp, Sample.relisted_not_kept⟩
    intro t ht
    simp only [List.mem_cons, Event.launched.injEq, List.not_mem_nil, or_false] at ht
    exact Sample.lists_proper ht

end History

end LaunchGraph
