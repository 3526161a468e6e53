import Mathlib.Data.List.Dedup
import Mathlib.Data.List.Perm.Subperm
import LaunchGraph.Proofs.Graph.Execute
import LaunchGraph.Proofs.Graph.Roots

/-!
# What an execution keeps

Of all nodes, an execution keeps the initial one and those that own some state, in their
order.  They keep their keys, tasks and launch ids, and lose their edges.  Owners stay who they
were, and so does what the graph counts and tracks beside its nodes.
-/

namespace LaunchGraph

variable {ρ : Type}

/-- What tells which launch a node is: its task and its launch id. -/
def Node.title (n : Node ρ) : TaskHandle × Nat := (n.handle, n.launchId)

def Vertex.mark (v : Vertex ρ) : NodeKey × TaskHandle × Nat := (v.key, v.title)

namespace Graph

/-- The graph `g'` is `g` with its pending nodes executed. -/
structure Retires (g g' : Graph ρ) : Prop where
  settled : g'.Settled
  executed : forall v, v ∈ g'.vertices -> v.isExecuted = true ∧ v.inputs = ∅ ∧ v.outputs = ∅
  owners : g'.owners = g.owners
  counts : g'.counts = g.counts
  kept : exists kept, List.Sublist kept (g.history ++ g.pending) ∧
    (forall v, v ∈ kept ↔ v ∈ g.history ++ g.pending ∧ exists s, g.owners.get? s = some v.key) ∧
    g'.vertices.map Vertex.mark = (g.initial :: kept).map Vertex.mark

theorem isOwner_iff {g : Graph ρ} {k : NodeKey} :
    g.isOwner k = true ↔ exists s, g.owners.get? s = some k := by
  rw [isOwner, decide_eq_true_iff, Table.mem_values_iff]

theorem map_mark_markExecuted (g : Graph ρ) :
    g.markExecuted.vertices.map Vertex.mark
      = (g.initial :: (g.history ++ g.pending).filter fun v => g.isOwner v.key).map
          Vertex.mark := by
  rw [markExecuted_eq, map_vertices_renumber (fun _ _ _ => rfl), vertices]
  show ((settled g.initial :: List.map settled _) ++ []).map Vertex.mark = _
  rw [List.append_nil, List.map_cons, List.map_cons, List.map_map]
  rfl

theorem map_mark_releaseRecords (g : Graph ρ) :
    ((g.releaseRecords.1.history ++ g.releaseRecords.1.pending).filter
        fun v => g.isOwner v.key).map Vertex.mark
      = ((g.history ++ g.pending).filter fun v => g.isOwner v.key).map Vertex.mark := by
  show ((g.history ++ g.pending.map _).filter _).map _ = _
  rw [List.filter_append, List.filter_append, List.map_append, List.map_append, List.filter_map,
    List.map_map]
  rfl

theorem Retires.of_marks {g g' : Graph ρ} (hsettled : g'.Settled) (howners : g'.owners = g.owners)
    (hcounts : g'.counts = g.counts)
    (hmarks : g'.vertices.map Vertex.mark
      = (g.initial :: (g.history ++ g.pending).filter fun v => g.isOwner v.key).map
          Vertex.mark) : g.Retires g' := by
  refine ⟨hsettled, ?_, howners, hcounts, _, List.filter_sublist, ?_, hmarks⟩
  · intro v hv
    rw [hsettled.vertices_eq] at hv
    refine ⟨?_, hsettled.no_links hv⟩
    rw [Node.isExecuted, hsettled.sound.numbered.executedIds v hv]
    rfl
  · intro v
    rw [List.mem_filter, isOwner_iff]

theorem Consistent.markExecuted_retires {g : Graph ρ} (hg : g.Consistent) :
    g.Retires g.markExecuted :=
  .of_marks hg.markExecuted rfl rfl g.map_mark_markExecuted

theorem Consistent.extractToExecute_retires {g : Graph ρ} (hg : g.Consistent) :
    exists g', g.extractToExecute = .ok (g', g.pending.filterMap (·.record)) ∧ g.Retires g' := by
  rcases hg.extractToExecute with ⟨g', hrun, hsettled, _, _⟩
  refine ⟨g', hrun, ?_⟩
  rw [hg.extractToExecute_eq] at hrun
  cases hrun
  apply Retires.of_marks (g := g) hsettled rfl rfl
  rw [map_mark_markExecuted, List.map_cons, List.map_cons]
  exact congrArg (g.initial.mark :: ·) g.map_mark_releaseRecords

theorem Keyed.later_key_ne {g : Graph ρ} (hg : g.Keyed) {v : Vertex ρ}
    (hv : v ∈ g.history ++ g.pending) : v.key ≠ g.initial.key := by
  have hnodup : (g.initial.key :: (g.history ++ g.pending).map (·.key)).Nodup := hg.nodup
  intro heq
  exact (List.nodup_cons.mp hnodup).left (heq ▸ List.mem_map_of_mem hv)

theorem Keyed.later_of_before {g : Graph ρ} (hg : g.Keyed) {u : NodeKey} {v : Vertex ρ}
    (hv : v ∈ g.vertices) (hbefore : ComesBefore g.keys u v.key) : v ∈ g.history ++ g.pending := by
  have hcases : v = g.initial ∨ v ∈ g.history ++ g.pending := List.mem_cons.mp hv
  refine hcases.resolve_left ?_
  rintro rfl
  have hnot := (List.nodup_cons.mp hg.nodup).left
  rcases ComesBefore.cons_iff.mp hbefore with ⟨_, hmem⟩ | htail
  · exact hnot hmem
  · exact hnot htail.right_mem

namespace Retires

variable {g g' : Graph ρ}

theorem marks_sublist (h : g.Retires g') :
    List.Sublist (g'.vertices.map Vertex.mark) (g.vertices.map Vertex.mark) := by
  rcases h.kept with ⟨kept, hsublist, _, hmarks⟩
  rw [hmarks]
  exact (hsublist.cons_cons g.initial).map _

theorem keys_sublist (h : g.Retires g') : List.Sublist g'.keys g.keys := by
  have hkeys := h.marks_sublist.map Prod.fst
  rw [List.map_map, List.map_map] at hkeys
  exact hkeys

theorem initial_key (h : g.Retires g') : g'.initial.key = g.initial.key := by
  rcases h.kept with ⟨kept, _, _, hmarks⟩
  have hhead := (List.cons.inj hmarks).left
  exact congrArg Prod.fst hhead

theorem ownerOrInitial (h : g.Retires g') : g'.ownerOrInitial = g.ownerOrInitial := by
  funext s
  rw [Graph.ownerOrInitial, h.owners, h.initial_key, Graph.ownerOrInitial]

theorem owner_kept (h : g.Retires g') (hg : g.Keyed) {v : Vertex ρ} (hv : v ∈ g.vertices)
    {s : State} (howner : g.ownerOrInitial s = v.key) :
    v.mark ∈ g'.vertices.map Vertex.mark := by
  rcases h.kept with ⟨kept, _, hkept, hmarks⟩
  rw [hmarks]
  apply List.mem_map_of_mem
  have hcases : v = g.initial ∨ v ∈ g.history ++ g.pending := List.mem_cons.mp hv
  cases hcases with
  | inl hinitial =>
      rw [hinitial]
      exact List.mem_cons_self
  | inr hlater =>
      apply List.mem_cons_of_mem
      refine (hkept v).mpr ⟨hlater, s, ?_⟩
      rw [Graph.ownerOrInitial] at howner
      cases ho : g.owners.get? s with
      | none =>
          rw [ho] at howner
          exact absurd howner.symm (hg.later_key_ne hlater)
      | some k =>
          rw [ho] at howner
          exact congrArg some howner

/-- No node is kept for nothing: each owns a state of its own. -/
theorem size_le (h : g.Retires g') (hg : g.Keyed) {states : List State}
    (hstates : forall s k, g.owners.get? s = some k -> k ≠ g.initial.key -> s ∈ states) :
    g'.size ≤ 1 + states.dedup.length := by
  rcases h.kept with ⟨kept, hsublist, hkept, hmarks⟩
  have hsize : g'.size = 1 + kept.length := by
    rw [size, length_eq_of_map_eq hmarks, List.length_cons, Nat.add_comm]
  have hnodup : (kept.map (·.key)).Nodup := by
    have hall : ((g.history ++ g.pending).map (·.key)).Nodup := (List.nodup_cons.mp hg.nodup).right
    exact hall.sublist (hsublist.map _)
  have hsub : kept.map (·.key) ⊆ states.dedup.filterMap fun s => g.owners.get? s := by
    intro k hk
    rcases List.mem_map.mp hk with ⟨v, hv, rfl⟩
    rcases (hkept v).mp hv with ⟨hmem, s, hs⟩
    rw [List.mem_filterMap]
    exact ⟨s, List.mem_dedup.mpr (hstates s v.key hs (hg.later_key_ne hmem)), hs⟩
  rw [hsize]
  apply Nat.add_le_add_left
  calc kept.length
      = (kept.map (·.key)).length := (List.length_map _).symm
    _ ≤ (states.dedup.filterMap fun s => g.owners.get? s).length :=
        (hnodup.subperm hsub).length_le
    _ ≤ states.dedup.length := List.length_filterMap_le _ _

end Retires

end Graph
end LaunchGraph
