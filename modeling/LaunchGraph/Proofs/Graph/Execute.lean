import LaunchGraph.Graph.Execute
import LaunchGraph.Proofs.Graph.Order
import LaunchGraph.Proofs.Graph.Rebuild

/-!
# Execution settles a graph

Once its pending nodes are executed, nothing in a graph is pending and no edge is
left, while owners stay who they were.  Clearing a graph makes the initial node the
owner of everything.
-/

namespace LaunchGraph
namespace Graph

variable {ρ : Type}

/-- Numbering settles a graph without pending nodes, edges and readers, whose owners
write what they own. -/
theorem renumber_settled {g : Graph ρ} (hkeyed : g.Keyed)
    (hinitial : g.initial.isInitial = true)
    (hlater : forall v, v ∈ g.history -> v.isInitial = false)
    (hpending : g.pending = [])
    (hbare : forall v, v ∈ g.executed -> v.inputs = ∅ ∧ v.outputs = ∅)
    (howner : forall s k, g.owners.get? s = some k ->
      exists v, v ∈ g.executed ∧ v.key = k ∧ v.writes s = true)
    (hreaders : g.readers = ∅) : g.renumber.Settled := by
  have hsame : g.SameNodes g.renumber := g.renumber_sameNodes
  have hvertices : g.vertices = g.executed := by
    rw [vertices, hpending, List.append_nil]
  have hno : forall u v s, ¬g.renumber.Enters u v s := by
    intro u v s
    rw [hsame.enters_iff]
    refine not_enters_of_inputs ?_ u v s
    intro w hw t k
    rw [hvertices] at hw
    rw [(hbare w hw).left]
    exact List.not_mem_nil
  have hno' : forall u v s, ¬g.renumber.Leaves u v s := by
    intro u v s
    rw [hsame.leaves_iff]
    refine not_leaves_of_outputs ?_ u v s
    intro w hw t k
    rw [hvertices] at hw
    rw [(hbare w hw).right]
    exact List.not_mem_nil
  have hownerAt : forall s k, g.owners.get? s = some k -> g.renumber.WritesAt k s := by
    intro s k hk
    rcases howner s k hk with ⟨v, hv, rfl, hw⟩
    rw [← hvertices] at hv
    exact hsame.writesAt ((writesAt_iff hkeyed hv).mpr hw)
  have hnoreader : forall s k, k ∉ g.renumber.readers.get s := by
    intro s k
    show k ∉ g.readers.get s
    rw [hreaders]
    exact List.not_mem_nil
  refine ⟨⟨⟨?_, ?_⟩, ?_, ⟨?_, ?_⟩, ⟨?_, ?_, ?_⟩⟩, ?_, hno, hnoreader⟩
  · rw [keys_renumber]
    exact hkeyed.nodup
  · intro k hk
    rw [keys_renumber] at hk
    exact hkeyed.stamp_lt k hk
  · refine renumber_numbered hinitial ?_
    intro v hv
    rw [hpending, List.append_nil] at hv
    exact hlater v hv
  · intro u v s
    simp only [hno, hno']
  · intro u v s huv
    exact absurd huv (hno u v s)
  · intro s k hk
    exact (hownerAt s k hk).mem
  · intro s k hk _
    exact hownerAt s k hk
  · intro s k hk
    exact absurd hk (hnoreader s k)
  · show numberPending g.pending _ _ = []
    rw [hpending]
    rfl

/-!
## Marking nodes executed
-/

def settled (v : Vertex ρ) : Vertex ρ :=
  v.update fun n => { n.disconnected with pendingId := none }

def retired (g : Graph ρ) : Graph ρ :=
  { g with
    initial := settled g.initial
    history := ((g.history ++ g.pending).filter fun v : Vertex ρ => g.isOwner v.key).map settled
    pending := []
    readers := ∅ }

theorem markExecuted_eq (g : Graph ρ) : g.markExecuted = g.retired.renumber := rfl

theorem markExecuted_settled {g : Graph ρ} (hkeyed : g.Keyed)
    (hinitial : g.initial.isInitial = true)
    (hlater : forall v, v ∈ g.history ++ g.pending -> v.isInitial = false)
    (howner : forall s k, g.owners.get? s = some k ->
      exists v, v ∈ g.vertices ∧ v.key = k ∧ v.writes s = true) :
    g.markExecuted.Settled := by
  have hvertices : g.vertices = g.initial :: (g.history ++ g.pending) := rfl
  have hexecuted : g.retired.executed = settled g.initial ::
      ((g.history ++ g.pending).filter fun v : Vertex ρ => g.isOwner v.key).map settled := rfl
  have hkeys : g.retired.keys.Sublist g.keys := by
    have hsub := (List.filter_sublist (l := g.history ++ g.pending)
      (p := fun v : Vertex ρ => g.isOwner v.key)).map (·.key)
    rw [keys, keys, hvertices, vertices, hexecuted]
    show ((settled g.initial :: _) ++ []).map _ |>.Sublist _
    rw [List.append_nil, List.map_cons, List.map_cons, List.map_map]
    exact List.Sublist.cons_cons _ hsub
  rw [markExecuted_eq]
  refine renumber_settled ⟨hkeyed.nodup.sublist hkeys, ?_⟩ hinitial ?_ rfl ?_ ?_ rfl
  · intro k hk
    exact hkeyed.stamp_lt k (hkeys.subset hk)
  · intro v hv
    rcases List.mem_map.mp hv with ⟨w, hw, rfl⟩
    exact hlater w (List.mem_filter.mp hw).left
  · intro v hv
    rw [hexecuted] at hv
    rcases List.mem_cons.mp hv with rfl | hv
    · exact ⟨rfl, rfl⟩
    · rcases List.mem_map.mp hv with ⟨w, _, rfl⟩
      exact ⟨rfl, rfl⟩
  · intro s k hk
    rcases howner s k hk with ⟨v, hv, rfl, hw⟩
    refine ⟨settled v, ?_, rfl, hw⟩
    rw [hexecuted]
    rw [hvertices] at hv
    rcases List.mem_cons.mp hv with rfl | hv
    · exact List.mem_cons_self ..
    · refine List.mem_cons_of_mem _ (List.mem_map_of_mem (List.mem_filter.mpr ⟨hv, ?_⟩))
      exact decide_eq_true (Table.mem_values_iff.mpr ⟨s, hk⟩)

theorem Consistent.owner_vertex {g : Graph ρ} (hg : g.Consistent) {s : State} {k : NodeKey}
    (hk : g.owners.get? s = some k) :
    exists v, v ∈ g.vertices ∧ v.key = k ∧ v.writes s = true := by
  rcases hg.owner_writes s k hk with ⟨v, hv, hw⟩
  exact ⟨v, mem_of_find? hv, key_of_find? hv, hw⟩

theorem Consistent.markExecuted {g : Graph ρ} (hg : g.Consistent) : g.markExecuted.Settled :=
  markExecuted_settled hg.sound.keyed hg.sound.numbered.initial hg.sound.numbered.later
    fun _ _ hk => hg.owner_vertex hk

/-!
## Handing records over
-/

theorem Consistent.extractToExecute_eq {g : Graph ρ} (hg : g.Consistent) :
    g.extractToExecute
      = .ok (g.releaseRecords.1.markExecuted, g.pending.filterMap (·.record)) := by
  rw [Graph.extractToExecute, sortPending_eq hg.sound hg.forward hg.aged]
  rfl

theorem Consistent.extractToExecute {g : Graph ρ} (hg : g.Consistent) :
    exists g', g.extractToExecute = .ok (g', g.pending.filterMap (·.record)) ∧
      g'.Settled ∧ g'.initial.key = g.initial.key ∧
      g'.ownerOrInitial = g.ownerOrInitial := by
  let release : Vertex ρ -> Vertex ρ := fun v => v.update fun n => { n with record := none }
  have hkeys : g.releaseRecords.1.keys = g.keys := by
    rw [keys, keys, vertices, vertices, List.map_append, List.map_append]
    show _ ++ (g.pending.map release).map _ = _
    rw [List.map_map]
    rfl
  refine ⟨_, hg.extractToExecute_eq, markExecuted_settled ⟨?_, ?_⟩ hg.sound.numbered.initial ?_ ?_,
    rfl, rfl⟩
  · rw [hkeys]
    exact hg.sound.keyed.nodup
  · intro k hk
    rw [hkeys] at hk
    exact hg.sound.keyed.stamp_lt k hk
  · intro v hv
    have hv' : v ∈ g.history ++ g.pending.map release := hv
    rcases List.mem_append.mp hv' with hv' | hv'
    · exact hg.sound.numbered.later v (List.mem_append_left _ hv')
    · rcases List.mem_map.mp hv' with ⟨w, hw, rfl⟩
      exact hg.sound.numbered.later w (List.mem_append_right _ hw)
  · intro s k hk
    rcases hg.owner_vertex hk with ⟨v, hv, hkey, hw⟩
    rcases List.mem_append.mp hv with hv | hv
    · exact ⟨v, List.mem_append_left _ hv, hkey, hw⟩
    · exact ⟨release v, List.mem_append_right _ (List.mem_map_of_mem hv), hkey, hw⟩

/-!
## Starting over
-/

theorem clear_settled {g : Graph ρ} (hg : g.Sound) : g.clear.Settled := by
  let g1 : Graph ρ := { g with
    initial := g.initial.update (·.disconnected)
    history := []
    pending := []
    owners := ∅
    readers := ∅ }
  have hkeys : g1.keys = [g.initial.key] := rfl
  refine renumber_settled (g := g1) ⟨?_, ?_⟩ hg.numbered.initial ?_ rfl ?_ ?_ rfl
  · rw [hkeys]
    exact List.nodup_singleton _
  · intro k hk
    rw [hkeys, List.mem_singleton] at hk
    rw [hk]
    exact hg.keyed.stamp_lt _ g.initial_key_mem
  · intro v hv
    cases hv
  · intro v hv
    have hv' : v ∈ [g.initial.update (·.disconnected)] := hv
    rw [List.mem_singleton.mp hv']
    exact ⟨rfl, rfl⟩
  · intro s k hk
    cases hk

theorem new_settled : (new : Graph ρ).Settled := by
  refine renumber_settled (g := new) ⟨?_, ?_⟩ rfl ?_ rfl ?_ ?_ rfl
  · exact List.nodup_singleton _
  · intro k hk
    have hk' : k ∈ [(⟨0⟩ : NodeKey)] := hk
    rw [List.mem_singleton.mp hk']
    exact Nat.zero_lt_one
  · intro v hv
    cases hv
  · intro v hv
    have hv' : v ∈ [(initialNode : Vertex ρ)] := hv
    rw [List.mem_singleton.mp hv']
    exact ⟨rfl, rfl⟩
  · intro s k hk
    cases hk


end Graph
end LaunchGraph
