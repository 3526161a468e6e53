import Mathlib.Data.List.Perm.Subperm
import LaunchGraph.Graph.Execute
import LaunchGraph.Proofs.Graph.Grow
import LaunchGraph.Proofs.Graph.Reconnect
import LaunchGraph.Proofs.Graph.SmallestFirst

/-!
# Launch numbers

The number of a launch tells it from all others under the same task name, as long as no node is
put in twice.  Numbers are handed out once each, a node keeps its number wherever it goes, and a
record that takes the place of another one keeps the name.
-/

namespace LaunchGraph

variable {ρ : Type}

def Node.call (n : Node ρ) : String × Nat := (n.task.name, n.launchId)

/-- A record that the bank makes of a single record launches a task of the same name. -/
structure Bank.KeepsNames (bank : Bank ρ) : Prop where
  demote : forall record model demoted, bank.demote record model = some demoted ->
    (bank.describe demoted).task.name = (bank.describe record).task.name
  eliminateStores : forall record dead left, bank.eliminateStores record dead = some left ->
    (bank.describe left).task.name = (bank.describe record).task.name

/-!
## Lists of nodes
-/

/-- No two of the nodes are of one call, their numbers have been handed out, and their names are
those of their records. -/
structure Enrolled (bank : Bank ρ) (launches : Table String Nat) (nodes : List (Node ρ)) :
    Prop where
  nodup : (nodes.map (·.call)).Nodup
  counted : forall n, n ∈ nodes -> n.launchId < (launches.get? n.task.name).getD 0
  named : forall n, n ∈ nodes -> forall record, n.record = some record ->
    (bank.describe record).task.name = n.task.name

namespace Enrolled

variable {bank : Bank ρ} {launches : Table String Nat} {nodes : List (Node ρ)}

theorem nil (bank : Bank ρ) (launches : Table String Nat) : Enrolled bank launches [] := by
  refine ⟨List.nodup_nil, ?_, ?_⟩
  · intro n hn
    cases hn
  · intro n hn
    cases hn

theorem of_subperm (h : Enrolled bank launches nodes) {left : List (Node ρ)}
    (hleft : (left.map (·.ticket)).Subperm (nodes.map (·.ticket))) :
    Enrolled bank launches left := by
  have hsource : forall n, n ∈ left -> exists m, m ∈ nodes ∧ m.ticket = n.ticket := by
    intro n hn
    exact List.mem_map.mp (hleft.subset (List.mem_map_of_mem hn))
  refine ⟨?_, ?_, ?_⟩
  · rcases hleft with ⟨middle, hperm, hsublist⟩
    have hcalls : forall l : List (Node ρ), l.map (·.call)
        = (l.map (·.ticket)).map fun t => (t.2.1.task.name, t.2.2) := by
      intro l
      rw [List.map_map]
      rfl
    have hnodup := h.nodup
    rw [hcalls] at hnodup ⊢
    exact (hperm.map _).nodup_iff.mp (hnodup.sublist (hsublist.map _))
  · intro n hn
    rcases hsource n hn with ⟨m, hm, hticket⟩
    have hcounted := h.counted m hm
    rcases Prod.mk.inj hticket with ⟨_, hrest⟩
    rcases Prod.mk.inj hrest with ⟨hhandle, hid⟩
    rw [Node.task, ← hhandle, ← hid]
    exact hcounted
  · intro n hn record hrecord
    rcases hsource n hn with ⟨m, hm, hticket⟩
    have hhandle : m.handle = n.handle := congrArg (fun t => t.2.1) hticket
    have hsame : m.record = n.record := congrArg (fun t => t.1) hticket
    rw [Node.task, ← hhandle]
    exact h.named m hm record (hsame.trans hrecord)

/-- Nodes may get other records, and other tasks of the same names. -/
theorem of_forall₂ (h : Enrolled bank launches nodes) {left : List (Node ρ)}
    (hleft : List.Forall₂ (fun m n => m.call = n.call ∧ forall record, m.record = some record ->
      (bank.describe record).task.name = n.task.name) left nodes) :
    Enrolled bank launches left := by
  have hcalls : left.map (·.call) = nodes.map (·.call) := by
    rw [← List.forall₂_eq_eq_eq, List.forall₂_map_left_iff, List.forall₂_map_right_iff]
    exact hleft.imp fun _ _ h => h.left
  refine ⟨?_, ?_, ?_⟩
  · rw [hcalls]
    exact h.nodup
  · intro m hm
    rcases exists_of_forall₂_left hleft m hm with ⟨n, hn, hcall, _⟩
    rcases Prod.mk.inj hcall with ⟨hname, hid⟩
    rw [hname, hid]
    exact h.counted n hn
  · intro m hm record hrecord
    rcases exists_of_forall₂_left hleft m hm with ⟨n, _, hcall, hnamed⟩
    rw [(Prod.mk.inj hcall).left]
    exact hnamed record hrecord

theorem named_self (h : Enrolled bank launches nodes) {n : Node ρ} (hn : n ∈ nodes) :
    n.call = n.call ∧ forall record, n.record = some record ->
      (bank.describe record).task.name = n.task.name :=
  ⟨rfl, h.named n hn⟩

theorem cons (h : Enrolled bank launches nodes) {n : Node ρ}
    (hid : n.launchId = (launches.get? n.task.name).getD 0)
    (hnamed : forall record, n.record = some record ->
      (bank.describe record).task.name = n.task.name) :
    Enrolled bank (launches.set n.task.name (n.launchId + 1)) (n :: nodes) := by
  have hget : forall name, ((launches.set n.task.name (n.launchId + 1)).get? name).getD 0
      = if name = n.task.name then n.launchId + 1 else (launches.get? name).getD 0 := by
    intro name
    rw [Table.get?_set]
    split
    · rfl
    · rfl
  refine ⟨?_, ?_, ?_⟩
  · rw [List.map_cons, List.nodup_cons]
    refine ⟨?_, h.nodup⟩
    intro hmem
    rcases List.mem_map.mp hmem with ⟨m, hm, hcall⟩
    have hcounted := h.counted m hm
    rcases Prod.mk.inj hcall with ⟨hname, hsame⟩
    rw [hname, hsame, hid] at hcounted
    exact Nat.lt_irrefl _ hcounted
  · intro m hm
    rw [hget]
    rcases List.mem_cons.mp hm with rfl | hm
    · rw [if_pos rfl]
      exact Nat.lt_succ_self _
    · split
      · next heq =>
          have hcounted := h.counted m hm
          rw [heq, ← hid] at hcounted
          exact Nat.lt_succ_of_lt hcounted
      · exact h.counted m hm
  · intro m hm
    rcases List.mem_cons.mp hm with rfl | hm
    · exact hnamed
    · exact h.named m hm

end Enrolled

namespace Graph

/-!
## The nodes of a graph
-/

def laterNodes (g : Graph ρ) : List (Node ρ) := (g.history ++ g.pending).map (·.toNode)

/-- No two nodes of the graph and of some nodes outside are of one call. -/
structure Enrolls (bank : Bank ρ) (outside : List (Node ρ)) (g : Graph ρ) : Prop where
  initial : g.initial.ticket = (initialNode : Vertex ρ).ticket
  enrolled : Enrolled bank g.launches (g.laterNodes ++ outside)

section Enrolls

variable {bank : Bank ρ} {outside : List (Node ρ)} {g : Graph ρ}

theorem Enrolls.of_subperm (h : g.Enrolls bank outside) {g' : Graph ρ} {outside' : List (Node ρ)}
    (hinitial : g'.initial.ticket = g.initial.ticket) (hlaunches : g'.launches = g.launches)
    (hnodes : ((g'.history ++ g'.pending).map (·.ticket) ++ outside'.map (·.ticket)).Subperm
      ((g.history ++ g.pending).map (·.ticket) ++ outside.map (·.ticket))) :
    g'.Enrolls bank outside' := by
  refine ⟨hinitial.trans h.initial, ?_⟩
  rw [hlaunches]
  refine h.enrolled.of_subperm ?_
  have htickets : forall (g : Graph ρ) (outside : List (Node ρ)),
      (g.laterNodes ++ outside).map (·.ticket)
        = (g.history ++ g.pending).map (·.ticket) ++ outside.map (·.ticket) := by
    intro g outside
    rw [laterNodes, List.map_append, List.map_map]
    rfl
  rw [htickets, htickets]
  exact hnodes

theorem Enrolls.of_reconnected (h : g.Enrolls bank outside) {g' : Graph ρ}
    (hg : g.Reconnected g') : g'.Enrolls bank outside := by
  have hexecuted := bareExecuted_congr hg
  have hinitial : g'.initial.bare = g.initial.bare := (List.cons.inj hexecuted).left
  have hticket : g'.initial.ticket = g.initial.ticket := by
    have hbare := congrArg (fun v : Vertex ρ => v.ticket) hinitial
    exact hbare
  have hhistory : g'.history.map (·.ticket) = g.history.map (·.ticket) :=
    map_congr_of_bare (f := fun v => v.ticket) (fun _ => rfl) (List.cons.inj hexecuted).right
  have hpending : g'.pending.map (·.ticket) = g.pending.map (·.ticket) :=
    map_congr_of_bare (f := fun v => v.ticket) (fun _ => rfl) (barePending_congr hg)
  have hlaunches : g'.launches = g.launches := by
    have hskeleton := congrArg Graph.launches (show g'.skeleton = g.skeleton from hg)
    exact hskeleton
  refine h.of_subperm hticket hlaunches ?_
  rw [List.map_append, hhistory, hpending, ← List.map_append]

theorem Enrolls.of_forall₂ (h : g.Enrolls bank outside) {g' : Graph ρ}
    (hinitial : g'.initial = g.initial) (hhistory : g'.history = g.history)
    (hlaunches : g'.launches = g.launches)
    (hpending : List.Forall₂ (fun v w : Vertex ρ => v.call = w.call ∧ forall record,
      v.record = some record -> (bank.describe record).task.name = w.task.name)
      g'.pending g.pending) : g'.Enrolls bank outside := by
  refine ⟨hinitial ▸ h.initial, ?_⟩
  rw [hlaunches]
  refine h.enrolled.of_forall₂ ?_
  have hself : forall l : List (Node ρ), (forall n, n ∈ l -> n ∈ g.laterNodes ++ outside) ->
      List.Forall₂ (fun m n : Node ρ => m.call = n.call ∧ forall record, m.record = some record ->
        (bank.describe record).task.name = n.task.name) l l := by
    intro l hl
    rw [List.forall₂_same]
    exact fun n hn => h.enrolled.named_self (hl n hn)
  rw [laterNodes, laterNodes, hhistory, List.map_append, List.map_append]
  refine List.rel_append (List.rel_append (hself _ ?_) ?_) (hself _ ?_)
  · intro n hn
    rw [laterNodes, List.map_append]
    exact List.mem_append_left _ (List.mem_append_left _ hn)
  · rw [List.forall₂_map_left_iff, List.forall₂_map_right_iff]
    exact hpending
  · intro n hn
    exact List.mem_append_right _ hn

theorem withArrival_enrolls {n : Node ρ} (h : g.Enrolls bank (n :: outside)) :
    (g.withArrival n).Enrolls bank outside := by
  refine h.of_subperm rfl rfl (List.Perm.subperm ?_)
  show ((g.history ++ (g.pending ++ [g.arrivalVertex n])).map (·.ticket) ++ _).Perm _
  have hticket : (g.arrivalVertex n).ticket = n.ticket := rfl
  simp only [List.map_append, List.map_cons, List.map_nil, hticket, List.append_assoc,
    List.singleton_append]
  exact .refl _

theorem insertNode_enrolls {n : Node ρ} (h : g.Enrolls bank (n :: outside)) :
    Yields (g.insertNode n) fun r => r.1.Enrolls bank outside :=
  (insertNode_reconnects g n).mono fun _ h1 => (withArrival_enrolls h).of_reconnected h1

theorem insertNodes_enrolls {nodes : List (Node ρ)} (h : g.Enrolls bank (nodes ++ outside)) :
    Yields (g.insertNodes nodes) (Enrolls bank outside) := by
  induction nodes generalizing g with
  | nil => exact .ok h
  | cons n nodes ih =>
      rw [insertNodes, List.foldlM_cons]
      refine .bind (.bind (insertNode_enrolls h) fun r h1 => .ok h1) fun g1 h1 => ?_
      exact ih h1

/-!
## Taking nodes out and putting them in order
-/

theorem renumberPending_enrolls (h : g.Enrolls bank outside) :
    g.renumberPending.Enrolls bank outside := by
  have htickets : (numberPending g.pending g.firstPending 0).map (·.ticket)
      = g.pending.map (·.ticket) := map_numberPending (fun _ _ _ => rfl) ..
  refine h.of_subperm rfl rfl ?_
  show ((g.history ++ numberPending g.pending g.firstPending 0).map (·.ticket) ++ _).Subperm _
  rw [List.map_append, htickets, ← List.map_append]

theorem renumber_enrolls (h : g.Enrolls bank outside) : g.renumber.Enrolls bank outside := by
  have htickets : (numberExecuted g.history 1).map (·.ticket) = g.history.map (·.ticket) :=
    map_numberExecuted (fun _ _ _ => rfl) ..
  refine (renumberPending_enrolls h).of_subperm rfl rfl ?_
  show ((numberExecuted g.history 1 ++ g.renumberPending.pending).map (·.ticket) ++ _).Subperm
    ((g.history ++ g.renumberPending.pending).map (·.ticket) ++ _)
  rw [List.map_append, htickets, ← List.map_append]

theorem sortPending_enrolls (h : g.Enrolls bank outside) :
    Yields g.sortPending (Enrolls bank outside) := by
  rw [sortPending]
  split
  · next pending harrange =>
      rw [← length_candidates] at harrange
      rcases Candidate.arrange_greedy g.candidates_by_position harrange
        with ⟨order, rfl, hperm, _⟩
      have hitems : (order.map (·.item)).Perm g.pending := by
        rw [← map_item_candidates g]
        exact hperm.map _
      refine .ok (renumberPending_enrolls (h.of_subperm rfl rfl (List.Perm.subperm ?_)))
      exact ((hitems.append_left g.history).map _).append_right _
  · exact .error _

theorem deleteNodes_enrolls (h : g.Enrolls bank outside) (positions : OrderedSet Nat) :
    Yields (g.deleteNodes positions) (Enrolls bank outside) := by
  rw [deleteNodes]
  split
  · exact .ok h
  · refine .bind_any fun doomed => .bind_any fun owners => ?_
    refine .bind (P := fun g1 => ({ g with owners } : Graph ρ).Reconnected g1) ?_ fun g1 h1 => ?_
    · exact .foldlM (.refl _) (fun g1 k h1 => isolate_reconnects h1 k) doomed
    · have hkept : g1.Enrolls bank outside := h.of_reconnected h1
      refine .ok (renumber_enrolls (hkept.of_subperm rfl rfl (List.Sublist.subperm ?_)))
      have hsublist := List.filter_sublist (p := fun v => decide (v.key ∉ doomed)) (l := g1.pending)
      exact ((hsublist.append_left g1.history).map _).append_right _

theorem extractPending_enrolls (h : g.Enrolls bank outside) :
    Yields g.extractPending fun r => r.1.Enrolls bank (r.2 ++ outside) := by
  refine .bind_any fun owners => .ok ?_
  refine h.of_subperm rfl rfl (List.Perm.subperm ?_)
  have hhistory : (g.history.map (dropOutputsTo g.pendingKeys)).map (·.ticket)
      = g.history.map (·.ticket) := by
    rw [List.map_map]
    rfl
  have hnodes : (g.pending.map (·.disconnected)).map (·.ticket) = g.pending.map (·.ticket) := by
    rw [List.map_map]
    rfl
  show ((g.history.map (dropOutputsTo g.pendingKeys) ++ []).map (fun v : Vertex ρ => v.ticket)
    ++ (g.pending.map (·.disconnected) ++ outside).map Node.ticket).Perm _
  rw [List.append_nil, hhistory, List.map_append, hnodes, ← List.append_assoc, ← List.map_append]

theorem rebuild_enrolls (h : g.Enrolls bank outside) (sort : Bool) :
    Yields (g.rebuild sort) (Enrolls bank outside) := by
  have hinsert : forall g1 : Graph ρ, g1.Enrolls bank outside ->
      Yields (g1.extractPending >>= fun r => r.1.insertNodes r.2) (Enrolls bank outside) :=
    fun g1 h1 => .bind (extractPending_enrolls h1) fun r h2 => insertNodes_enrolls h2
  rw [rebuild]
  split
  · exact .bind (sortPending_enrolls h) hinsert
  · exact hinsert g h

theorem markExecuted_enrolls (h : g.Enrolls bank outside) :
    g.markExecuted.Enrolls bank outside := by
  refine renumber_enrolls (h.of_subperm rfl rfl (List.Sublist.subperm ?_))
  rw [List.append_nil, List.map_map]
  exact ((List.filter_sublist (l := g.history ++ g.pending)).map fun v => v.ticket).append_right _

theorem releaseRecords_enrolls (h : g.Enrolls bank outside) :
    g.releaseRecords.1.Enrolls bank outside := by
  refine h.of_forall₂ rfl rfl rfl ?_
  rw [releaseRecords, List.forall₂_map_left_iff, List.forall₂_same]
  intro v _
  refine ⟨rfl, ?_⟩
  intro record hrecord
  cases hrecord

theorem extractToExecute_enrolls (h : g.Enrolls bank outside) :
    Yields g.extractToExecute fun r => r.1.Enrolls bank outside :=
  .bind (sortPending_enrolls h) fun _ h1 =>
    .ok (markExecuted_enrolls (releaseRecords_enrolls h1))

theorem clear_enrolls (h : g.Enrolls bank outside) : g.clear.Enrolls bank outside := by
  refine renumber_enrolls (h.of_subperm rfl rfl (List.Sublist.subperm ?_))
  exact List.sublist_append_right _ _

/-!
## New nodes
-/

theorem adopt_enrolls (h : g.Enrolls bank outside) (d : Description) :
    (g.adopt d).1.Enrolls bank outside := by
  rcases g.adopt_eq d with ⟨serial, heq⟩
  rw [heq]
  exact h.of_subperm rfl rfl (.refl _)

theorem newNodeOf_enrolls (h : g.Enrolls bank outside) (record : ρ) {d : Description}
    (hnamed : (bank.describe record).task.name = d.task.name) :
    (g.newNodeOf record d).1.Enrolls bank ((g.newNodeOf record d).2 :: outside) := by
  have hadopted := adopt_enrolls h d
  have hname : (g.newNodeOf record d).2.task.name = d.task.name :=
    congrArg Task.name (g.task_adopt d)
  refine ⟨hadopted.initial, ?_⟩
  have hcons := hadopted.enrolled.cons (n := (g.newNodeOf record d).2) ?_ ?_
  · rw [hname] at hcons
    refine hcons.of_subperm (List.Perm.subperm ?_)
    exact List.perm_middle.map _
  · rw [hname]
    rfl
  · intro record' hrecord
    cases hrecord
    rw [hname]
    exact hnamed

end Enrolls

end Graph

end LaunchGraph
