import LaunchGraph.Proofs.Graph.Rebuild

/-!
# Launching records

A launch counts itself, may change which index lists are current, and puts one node
at the end of the sequence.  Counts and index lists have no part in what a graph
promises, so growing by launches keeps whatever an insertion keeps.
-/

namespace LaunchGraph
namespace Graph

variable {ρ : Type}

/-!
## Counts
-/

def withCounts (g : Graph ρ) (launches : Table String Nat) (currentLists : OrderedSet SNodeId)
    (nextSerial : Nat) (window : FusionWindow) : Graph ρ :=
  { g with launches, currentLists, nextSerial, window }

section Counts

variable {g : Graph ρ} (launches : Table String Nat) (currentLists : OrderedSet SNodeId)
  (nextSerial : Nat) (window : FusionWindow)

theorem Sound.withCounts (h : g.Sound) :
    (g.withCounts launches currentLists nextSerial window).Sound :=
  ⟨⟨h.keyed.nodup, h.keyed.stamp_lt⟩,
    ⟨h.numbered.nodeIds, h.numbered.executedIds, h.numbered.pendingIds, h.numbered.initial,
      h.numbered.later⟩,
    ⟨h.wired.mirrored, h.wired.target_pending⟩,
    ⟨h.owned.owner_mem, h.owned.executed_writes, h.owned.readers_pending⟩⟩

theorem Linked.withCounts (h : g.Linked) :
    (g.withCounts launches currentLists nextSerial window).Linked :=
  ⟨⟨h.keyed.nodup, h.keyed.stamp_lt⟩,
    ⟨h.numbered.nodeIds, h.numbered.executedIds, h.numbered.pendingIds, h.numbered.initial,
      h.numbered.later⟩, h.mirrored⟩

theorem Linked.with_nextSeq (h : g.Linked) (nextSeq : Nat) :
    ({ g with nextSeq } : Graph ρ).Linked :=
  ⟨⟨h.keyed.nodup, h.keyed.stamp_lt⟩,
    ⟨h.numbered.nodeIds, h.numbered.executedIds, h.numbered.pendingIds, h.numbered.initial,
      h.numbered.later⟩, h.mirrored⟩

theorem Sound.with_nextSeq (h : g.Sound) (nextSeq : Nat) : ({ g with nextSeq } : Graph ρ).Sound :=
  ⟨⟨h.keyed.nodup, h.keyed.stamp_lt⟩,
    ⟨h.numbered.nodeIds, h.numbered.executedIds, h.numbered.pendingIds, h.numbered.initial,
      h.numbered.later⟩,
    ⟨h.wired.mirrored, h.wired.target_pending⟩,
    ⟨h.owned.owner_mem, h.owned.executed_writes, h.owned.readers_pending⟩⟩

theorem Consistent.withCounts (h : g.Consistent) :
    (g.withCounts launches currentLists nextSerial window).Consistent :=
  ⟨h.sound.withCounts launches currentLists nextSerial window, h.forward,
    ⟨h.aged.increasing, h.aged.seq_lt⟩, h.owner_writes, h.reader_linked, h.sourced⟩

theorem Built.withCounts {origin : State -> NodeKey} (h : g.Built origin) :
    (g.withCounts launches currentLists nextSerial window).Built origin :=
  ⟨h.sound.withCounts launches currentLists nextSerial window,
    ⟨h.aged.increasing, h.aged.seq_lt⟩, h.enters_iff, h.owner_nearest, h.mem_readers,
    h.origin_executed, h.origin_writes⟩

end Counts

/-!
## Growing
-/

def launchOf (bank : Bank ρ) (record : ρ) : Option ρ × Task :=
  (some record, (bank.describe record).task)

/-- The graph `g'` is `g` with nodes for some records put in at the end. -/
inductive Grown (bank : Bank ρ) (g : Graph ρ) : List ρ -> Graph ρ -> Prop where
  | start : Grown bank g [] g
  | recount {records : List ρ} {g1 : Graph ρ} (h : Grown bank g records g1)
      (launches : Table String Nat) (currentLists : OrderedSet SNodeId) (nextSerial : Nat) :
      Grown bank g records (g1.withCounts launches currentLists nextSerial g1.window)
  | insert {records : List ρ} {record : ρ} {n : Node ρ} {g1 g2 : Graph ρ}
      (h : Grown bank g records g1) (launch : n.launch = launchOf bank record)
      (ran : g1.insertNode n = .ok (g2, g1.freshKey)) (inserted : g1.Inserted n g2) :
      Grown bank g (records ++ [record]) g2

namespace Grown

variable {bank : Bank ρ} {g g' : Graph ρ} {records : List ρ}

theorem sound (h : Grown bank g records g') (hg : g.Sound) : g'.Sound := by
  induction h with
  | start => exact hg
  | recount _ launches currentLists nextSerial ih =>
      exact ih.withCounts launches currentLists nextSerial _
  | insert _ _ _ inserted ih => exact inserted.sound ih

theorem consistent (h : Grown bank g records g') (hg : g.Consistent) : g'.Consistent := by
  induction h with
  | start => exact hg
  | recount _ launches currentLists nextSerial ih =>
      exact ih.withCounts launches currentLists nextSerial _
  | insert _ _ _ inserted ih => exact inserted.consistent ih

theorem built {origin : State -> NodeKey} (h : Grown bank g records g') (hg : g.Built origin) :
    g'.Built origin := by
  induction h with
  | start => exact hg
  | recount _ launches currentLists nextSerial ih =>
      exact ih.withCounts launches currentLists nextSerial _
  | insert _ _ _ inserted ih => exact inserted.built ih

theorem initial_key (h : Grown bank g records g') : g'.initial.key = g.initial.key := by
  induction h with
  | start => rfl
  | recount _ _ _ _ ih => exact ih
  | insert _ _ _ inserted ih => exact inserted.initial_key.trans ih

theorem launches (h : Grown bank g records g') :
    g'.pending.map (·.launch) = g.pending.map (·.launch) ++ records.map (launchOf bank) := by
  induction h with
  | start => rw [List.map_nil, List.append_nil]
  | recount _ _ _ _ ih => exact ih
  | insert _ launch _ inserted ih =>
      rw [inserted.extended.launches, ih, List.map_append, List.append_assoc, List.map_singleton,
        List.map_singleton, launch]

end Grown

/-!
## Launches
-/

theorem adopt_eq (g : Graph ρ) (d : Description) :
    exists serial, (g.adopt d).1 = { g with nextSerial := serial } := by
  rw [adopt]
  split
  · exact ⟨g.nextSerial, rfl⟩
  · exact ⟨g.nextSerial + 1, rfl⟩

theorem task_adopt (g : Graph ρ) (d : Description) : (g.adopt d).2.task = d.task := by
  rw [adopt]
  split
  · rfl
  · rfl

theorem newNodeOf_eq (g : Graph ρ) (record : ρ) (d : Description) :
    exists launches nextSerial n,
      g.newNodeOf record d = (g.withCounts launches g.currentLists nextSerial g.window, n) ∧
      ({ n.disconnected with isInitial := false } : Node ρ) = n ∧
      n.launch = (some record, d.task) := by
  rcases g.adopt_eq d with ⟨serial, hadopt⟩
  refine ⟨((g.adopt d).1.takeLaunchId d.task.name).1.launches, serial, (g.newNodeOf record d).2,
    ?_, rfl, ?_⟩
  · show (((g.adopt d).1.takeLaunchId d.task.name).1, _) = _
    rw [hadopt]
    rfl
  · exact congrArg (Prod.mk (some record)) (g.task_adopt d)

theorem withCounts_of_counts_eq {g h : Graph ρ} (hcounts : g.counts = h.counts) :
    h.withCounts g.launches g.currentLists g.nextSerial g.window = h := by
  rcases Prod.mk.inj hcounts with ⟨hlaunches, hrest⟩
  rcases Prod.mk.inj hrest with ⟨hlists, hrest⟩
  rcases Prod.mk.inj hrest with ⟨hserial, hwindow⟩
  rw [hlaunches, hlists, hserial, hwindow]
  rfl

theorem newNodeOf_congr {g h : Graph ρ} (hcounts : g.counts = h.counts) (record : ρ)
    (d : Description) :
    exists launches nextSerial n,
      g.newNodeOf record d = (g.withCounts launches g.currentLists nextSerial g.window, n) ∧
      h.newNodeOf record d = (h.withCounts launches g.currentLists nextSerial g.window, n) := by
  rw [← withCounts_of_counts_eq hcounts, newNodeOf, newNodeOf, adopt, adopt]
  cases d.sharedAs with
  | some tag => exact ⟨_, g.nextSerial, _, rfl, rfl⟩
  | none => exact ⟨_, g.nextSerial + 1, _, rfl, rfl⟩

theorem foldl_markListStale (bank : Bank ρ) (stale : List SNodeId) (g : Graph ρ) :
    stale.foldl (markListStale bank) g = g.withCounts g.launches
      (stale.foldl (fun lists s => lists \ bank.descendants s) g.currentLists) g.nextSerial
      g.window := by
  induction stale generalizing g with
  | nil => rfl
  | cons s stale ih => exact ih (g.markListStale bank s)

/-- Only list generations are left out.  Nothing but the current index lists changes. -/
theorem trackLists_cases (bank : Bank ρ) (filter : Bool) (g : Graph ρ) (t : Task) :
    (g.trackLists bank filter t = none ∧ filter = true ∧ t.taskType = .listgen) ∨
      exists currentLists, g.trackLists bank filter t
        = some (g.withCounts g.launches currentLists g.nextSerial g.window) := by
  rw [trackLists]
  split
  · next htype =>
    cases t.snode with
    | none => exact Or.inr ⟨g.currentLists, rfl⟩
    | some s =>
        cases filter with
        | false => exact Or.inr ⟨g.currentLists, rfl⟩
        | true =>
            cases hcurrent : g.isListCurrent s with
            | true => exact Or.inl ⟨by simp [hcurrent], rfl, htype⟩
            | false => exact Or.inr ⟨g.currentLists.insert s, by simp [hcurrent]; rfl⟩
  · exact Or.inr ⟨_, congrArg some (foldl_markListStale bank t.staleLists g)⟩

theorem trackLists_congr (bank : Bank ρ) (filter : Bool) {g h : Graph ρ}
    (hcounts : g.counts = h.counts) (t : Task) :
    (g.trackLists bank filter t = none ∧ h.trackLists bank filter t = none) ∨
      exists currentLists,
        g.trackLists bank filter t
          = some (g.withCounts g.launches currentLists g.nextSerial g.window) ∧
        h.trackLists bank filter t
          = some (h.withCounts g.launches currentLists g.nextSerial g.window) := by
  rw [← withCounts_of_counts_eq hcounts, trackLists, trackLists]
  split
  · cases t.snode with
    | none => exact Or.inr ⟨g.currentLists, rfl, rfl⟩
    | some s =>
        cases filter with
        | false => exact Or.inr ⟨g.currentLists, rfl, rfl⟩
        | true =>
            have hcurrent : (h.withCounts g.launches g.currentLists g.nextSerial
                g.window).isListCurrent s = g.isListCurrent s := rfl
            dsimp only
            rw [hcurrent]
            cases g.isListCurrent s with
            | true => exact Or.inl ⟨rfl, rfl⟩
            | false => exact Or.inr ⟨g.currentLists.insert s, rfl, rfl⟩
  · rw [foldl_markListStale, foldl_markListStale]
    exact Or.inr ⟨_, rfl, rfl⟩

theorem insertTask_of_none {bank : Bank ρ} {filter : Bool} {g : Graph ρ} {record : ρ}
    (h : g.trackLists bank filter (bank.describe record).task = none) :
    g.insertTask bank filter record = .ok (g, false) := by
  unfold insertTask
  dsimp only
  rw [h]
  rfl

theorem insertTask_of_some {bank : Bank ρ} {filter : Bool} {g g1 g2 g' : Graph ρ} {record : ρ}
    {n : Node ρ} {key : NodeKey}
    (h : g.trackLists bank filter (bank.describe record).task = some g1)
    (hnode : g1.newNodeOf record (bank.describe record) = (g2, n))
    (hrun : g2.insertNode n = .ok (g', key)) :
    g.insertTask bank filter record = .ok (g', true) := by
  unfold insertTask
  dsimp only
  rw [h]
  show (((g1.newNodeOf record (bank.describe record)).1.insertNode
    (g1.newNodeOf record (bank.describe record)).2 >>= fun r => pure (r.1, true))) = _
  rw [hnode]
  exact congrArg (· >>= fun r => pure (r.1, true)) hrun

theorem insertTask_ok {bank : Bank ρ} {g0 g : Graph ρ} {records : List ρ}
    (hg : Grown bank g0 records g) (hsound : g.Sound) (filter : Bool) (record : ρ) :
    exists g' inserted, g.insertTask bank filter record = .ok (g', inserted) ∧
      ((inserted = true ∧ Grown bank g0 (records ++ [record]) g') ∨
        (inserted = false ∧ (filter = true ∧ (bank.describe record).task.taskType = .listgen) ∧
          Grown bank g0 records g')) := by
  rcases trackLists_cases bank filter g (bank.describe record).task
    with ⟨hnone, hleft⟩ | ⟨currentLists, hsome⟩
  · exact ⟨g, false, insertTask_of_none hnone, Or.inr ⟨rfl, hleft, hg⟩⟩
  · let g1 := g.withCounts g.launches currentLists g.nextSerial g.window
    rcases g1.newNodeOf_eq record (bank.describe record) with ⟨launches, serial, n, hn, _, hlaunch⟩
    have hg2 := (hg.recount g.launches currentLists g.nextSerial).recount launches currentLists
      serial
    have hsound2 : (g1.withCounts launches currentLists serial g.window).Sound :=
      (hsound.withCounts _ _ _ _).withCounts _ _ _ _
    rcases insertNode_ok hsound2 n with ⟨g', hrun, hinserted⟩
    exact ⟨g', true, insertTask_of_some hsome hn hrun, Or.inl ⟨rfl, hg2.insert hlaunch hrun hinserted⟩⟩

/-- Records that are not left out are inserted in order.  The filter leaves out list
generations only, and without it, none is left out. -/
theorem insertTasks_ok {g : Graph ρ} (bank : Bank ρ) (hg : g.Sound) (filter : Bool)
    (records : List ρ) :
    exists g' kept, g.insertTasks bank filter records = .ok (g', kept.length) ∧
      Grown bank g kept g' ∧ (filter = false -> kept = records) ∧
      exists leftOut, (kept ++ leftOut).Perm records ∧
        forall r, r ∈ leftOut -> filter = true ∧ (bank.describe r).task.taskType = .listgen := by
  have loop : exists r, g.insertTasks bank filter records = .ok r ∧
      exists kept, r.2 = kept.length ∧ Grown bank g kept r.1 ∧ (filter = false -> kept = records) ∧
        exists leftOut, (kept ++ leftOut).Perm records ∧
          forall r, r ∈ leftOut -> filter = true ∧ (bank.describe r).task.taskType = .listgen := by
    refine foldlM_ok_of_step (fun (done : List ρ) (r : Graph ρ × Nat) =>
      exists kept, r.2 = kept.length ∧ Grown bank g kept r.1 ∧ (filter = false -> kept = done) ∧
        exists leftOut, (kept ++ leftOut).Perm done ∧
          forall r, r ∈ leftOut -> filter = true ∧ (bank.describe r).task.taskType = .listgen)
      ?_ ?start
    case start => exact ⟨[], rfl, .start, fun _ => rfl, [], .refl _, fun r hr => by cases hr⟩
    rintro done record rest ⟨g1, count⟩ _ ⟨kept, hcount, hgrown, hall, leftOut, hperm, hleft⟩
    dsimp only at hcount hgrown ⊢
    subst hcount
    rcases insertTask_ok hgrown (hgrown.sound hg) filter record
      with ⟨g2, inserted, hrun, ⟨rfl, hgrown2⟩ | ⟨rfl, hlist, hgrown2⟩⟩
    · refine ⟨(g2, kept.length + 1), ?_, kept ++ [record], by simp, hgrown2, ?_, leftOut, ?_, hleft⟩
      · rw [hrun]
        rfl
      · intro hfilter
        rw [hall hfilter]
      · have hmoved : (kept ++ [record] ++ leftOut).Perm ((kept ++ leftOut) ++ [record]) := by
          rw [List.append_assoc, List.append_assoc]
          exact List.perm_append_comm.append_left kept
        exact hmoved.trans (hperm.append_right [record])
    · refine ⟨(g2, kept.length), ?_, kept, rfl, hgrown2, ?_, leftOut ++ [record], ?_, ?_⟩
      · rw [hrun]
        rfl
      · intro hfalse
        rw [hlist.left] at hfalse
        cases hfalse
      · rw [← List.append_assoc]
        exact hperm.append_right [record]
      · intro r hr
        rcases List.mem_append.mp hr with hr | hr
        · exact hleft r hr
        · rw [List.mem_singleton.mp hr]
          exact hlist
  rcases loop with ⟨⟨g', count⟩, hrun, kept, rfl, hgrown, hrest⟩
  exact ⟨g', kept, hrun, hgrown, hrest⟩

end Graph
end LaunchGraph
