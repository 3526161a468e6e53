import LaunchGraph.Proofs.Graph.Delete
import LaunchGraph.Proofs.Graph.Grow

/-!
# Changing what nodes launch

Passes give pending nodes other records and tasks while the edges stay as they are.
For a while the edges then need not fit the tasks.  The graph is still sound and its
edges lead forward, so a rebuild puts it right.
-/

namespace LaunchGraph

namespace Vertex

variable {ρ : Type}

def blank (v : Vertex ρ) : Vertex ρ := v.update fun n => { n with record := none, handle := default }

end Vertex

namespace Graph

variable {ρ : Type}

structure Relaunched (g g' : Graph ρ) : Prop where
  executed : g'.executed = g.executed
  pending : g'.pending.map Vertex.blank = g.pending.map Vertex.blank
  owners : g'.owners = g.owners
  readers : g'.readers = g.readers
  nextStamp : g'.nextStamp = g.nextStamp
  launches : g'.launches = g.launches

namespace Relaunched

variable {g g' : Graph ρ}

theorem refl (g : Graph ρ) : g.Relaunched g := ⟨rfl, rfl, rfl, rfl, rfl, rfl⟩

theorem trans {g1 : Graph ρ} (h1 : g.Relaunched g1) (h2 : g1.Relaunched g') :
    g.Relaunched g' :=
  ⟨h2.executed.trans h1.executed, h2.pending.trans h1.pending, h2.owners.trans h1.owners,
    h2.readers.trans h1.readers, h2.nextStamp.trans h1.nextStamp, h2.launches.trans h1.launches⟩

theorem map_pending {β : Type} {f : Vertex ρ -> β} (hf : forall v, f v.blank = f v)
    (h : g.Relaunched g') : g'.pending.map f = g.pending.map f := by
  have hmap := congrArg (List.map f) h.pending
  have hcomp : f ∘ Vertex.blank = f := funext hf
  rw [List.map_map, List.map_map, hcomp] at hmap
  exact hmap

theorem map_vertices {β : Type} {f : Vertex ρ -> β} (hf : forall v, f v.blank = f v)
    (h : g.Relaunched g') : g'.vertices.map f = g.vertices.map f := by
  rw [vertices, vertices, List.map_append, List.map_append, h.executed, h.map_pending hf]

theorem keys (h : g.Relaunched g') : g'.keys = g.keys := h.map_vertices fun _ => rfl

theorem pendingKeys (h : g.Relaunched g') : g'.pendingKeys = g.pendingKeys :=
  h.map_pending fun _ => rfl

theorem find? (h : g.Relaunched g') (k : NodeKey) :
    (g'.find? k).map Vertex.blank = (g.find? k).map Vertex.blank := by
  have hfind : forall g : Graph ρ, (g.find? k).map Vertex.blank
      = (g.vertices.map Vertex.blank).find? (·.key == k) := by
    intro g
    rw [Graph.find?, List.find?_map]
    rfl
  rw [hfind, hfind, h.map_vertices fun _ => rfl]

theorem inputsOf (h : g.Relaunched g') (k : NodeKey) : g'.inputsOf k = g.inputsOf k := by
  have hk := congrArg (Option.map fun v : Vertex ρ => v.inputs) (h.find? k)
  rw [Option.map_map, Option.map_map] at hk
  exact congrArg (Option.getD · ∅) hk

theorem outputsOf (h : g.Relaunched g') (k : NodeKey) : g'.outputsOf k = g.outputsOf k := by
  have hk := congrArg (Option.map fun v : Vertex ρ => v.outputs) (h.find? k)
  rw [Option.map_map, Option.map_map] at hk
  exact congrArg (Option.getD · ∅) hk

theorem enters_iff (h : g.Relaunched g') (u v : NodeKey) (s : State) :
    g'.Enters u v s ↔ g.Enters u v s := by
  rw [Enters, h.inputsOf, Enters]

theorem leaves_iff (h : g.Relaunched g') (u v : NodeKey) (s : State) :
    g'.Leaves u v s ↔ g.Leaves u v s := by
  rw [Leaves, h.outputsOf, Leaves]

theorem forward (h : g.Relaunched g') (hf : g.Forward) : g'.Forward := by
  intro u v s huv
  rw [h.keys]
  exact hf u v s ((h.enters_iff u v s).mp huv)

theorem numbered (h : g.Relaunched g') (hg : g.Numbered) : g'.Numbered := by
  have hlength : g'.pending.length = g.pending.length := length_eq_of_map_eq h.pending
  have hinitial : g'.initial = g.initial := (List.cons.inj h.executed).left
  have hhistory : g'.history = g.history := (List.cons.inj h.executed).right
  constructor
  · rw [h.map_vertices fun _ => rfl, hg.nodeIds, size, size, vertices, vertices,
      List.length_append, List.length_append, h.executed, hlength]
  · rw [h.executed]
    exact hg.executedIds
  · rw [h.map_pending fun _ => rfl, hg.pendingIds, pendingCount, pendingCount, hlength]
  · rw [hinitial]
    exact hg.initial
  · intro v hv
    rw [hhistory] at hv
    rcases List.mem_append.mp hv with hv | hv
    · exact hg.later v (List.mem_append_left _ hv)
    · have hmem : v.isInitial ∈ g'.pending.map (·.isInitial) := List.mem_map_of_mem hv
      rw [h.map_pending fun _ => rfl] at hmem
      rcases List.mem_map.mp hmem with ⟨w, hw, heq⟩
      rw [← heq]
      exact hg.later w (List.mem_append_right _ hw)

theorem find?_executed (h : g.Relaunched g') (hg : g.Keyed) {k : NodeKey} {v : Vertex ρ}
    (hv : g.find? k = some v) (hk : k ∉ g.pendingKeys) : g'.find? k = some v := by
  have hkey := key_of_find? hv
  have hmem : v ∈ g.executed := by
    rcases List.mem_append.mp (mem_of_find? hv) with hx | hp
    · exact hx
    · exact absurd (hkey ▸ List.mem_map_of_mem hp) hk
  have hmem' : v ∈ g'.vertices := by
    refine mem_vertices_of_executed ?_
    rw [h.executed]
    exact hmem
  rw [← hkey]
  refine find?_of_mem ?_ hmem'
  rw [h.keys]
  exact hg.nodup

theorem sound (h : g.Relaunched g') (hg : g.Sound) : g'.Sound := by
  refine ⟨⟨?_, ?_⟩, h.numbered hg.numbered, ⟨?_, ?_⟩, ⟨?_, ?_, ?_⟩⟩
  · rw [h.keys]
    exact hg.keyed.nodup
  · intro k hk
    rw [h.keys] at hk
    rw [h.nextStamp]
    exact hg.keyed.stamp_lt k hk
  · intro u v s
    rw [h.leaves_iff, h.enters_iff, hg.wired.mirrored]
  · intro u v s huv
    rw [h.pendingKeys]
    exact hg.wired.target_pending u v s ((h.enters_iff u v s).mp huv)
  · intro s k hk
    rw [h.owners] at hk
    rw [h.keys]
    exact hg.owned.owner_mem s k hk
  · intro s k hk hnot
    rw [h.owners] at hk
    rw [h.pendingKeys] at hnot
    rcases hg.owned.executed_writes s k hk hnot with ⟨v, hv, hw⟩
    exact ⟨v, h.find?_executed hg.keyed hv hnot, hw⟩
  · intro s k hk
    rw [h.readers] at hk
    rw [h.pendingKeys]
    exact hg.owned.readers_pending s k hk

end Relaunched

/-!
## One node
-/

theorem map_update_of_ne {k : NodeKey} {f : Node ρ -> Node ρ} {l : List (Vertex ρ)}
    (h : forall v, v ∈ l -> v.key ≠ k) :
    (l.map fun v => if v.key = k then v.update f else v) = l := by
  induction l with
  | nil => rfl
  | cons v l ih =>
      rw [List.map_cons, if_neg (h v (List.mem_cons_self ..)),
        ih fun w hw => h w (List.mem_cons_of_mem _ hw)]

theorem relaunched_update {g : Graph ρ} (hg : g.Keyed) {k : NodeKey} (hk : k ∈ g.pendingKeys)
    (record : ρ) (handle : TaskHandle) : g.Relaunched (g.update k (·.relaunched record handle)) := by
  refine ⟨?_, ?_, rfl, rfl, rfl, rfl⟩
  · show (g.executed.map fun v => if v.key = k then v.update (·.relaunched record handle) else v)
      = g.executed
    refine map_update_of_ne ?_
    rintro v hv rfl
    exact hg.executed_not_pending hv hk
  · show ((g.pending.map fun v => if v.key = k then _ else v).map Vertex.blank) = _
    rw [List.map_map]
    refine List.map_congr_left ?_
    intro v _
    rw [Function.comp_apply]
    split
    · rfl
    · rfl

theorem relaunch_ok {g : Graph ρ} (hg : g.Keyed) {k : NodeKey} (hk : k ∈ g.pendingKeys)
    (record : ρ) (d : Description) :
    exists g', (g.adopt d).1.modify k (·.relaunched record (g.adopt d).2) = .ok g' ∧
      g.Relaunched g' ∧
      (forall v, g.find? k = some v ->
        g'.find? k = some (v.update (·.relaunched record (g.adopt d).2))) ∧
      (forall j, j ≠ k -> g'.find? j = g.find? j) := by
  rcases g.adopt_eq d with ⟨serial, heq⟩
  rw [heq]
  let g1 : Graph ρ := { g with nextSerial := serial }
  have hrelaunched1 : g.Relaunched g1 := ⟨rfl, rfl, rfl, rfl, rfl, rfl⟩
  have hkeyed1 : g1.Keyed := ⟨hg.nodup, hg.stamp_lt⟩
  refine ⟨g1.update k (·.relaunched record (g.adopt d).2),
    modify_ok (g := g1) (pendingKeys_subset hk),
    hrelaunched1.trans (relaunched_update hkeyed1 hk record _), ?_, ?_⟩
  · intro v hv
    exact find?_update_self (g := g1) hv
  · intro j hj
    exact find?_update_of_ne (g := g1) hj

theorem Relaunched.pending_eq {g g' : Graph ρ} (h : g.Relaunched g') (hg : g.Keyed) :
    g'.pending = g.pending.map fun v => g'.vertexOf v.key := by
  have hkeys : g'.keys.Nodup := by
    rw [h.keys]
    exact hg.nodup
  have hself : g'.pending.map (fun v => g'.vertexOf v.key) = g'.pending := by
    refine (List.map_congr_left fun v hv => ?_).trans (List.map_id _)
    exact vertexOf_of_find? (find?_of_mem hkeys (mem_vertices_of_pending hv))
  rw [← hself]
  exact h.map_pending (f := fun v => g'.vertexOf v.key) fun _ => rfl

theorem Relaunched.forall₂_launch {g g' : Graph ρ} (h : g.Relaunched g') (hg : g.Keyed)
    {R : Option ρ × Task -> Option ρ × Task -> Prop}
    (hR : forall v w, v ∈ g.pending -> g'.find? v.key = some w -> R v.launch w.launch) :
    List.Forall₂ R (g.pending.map (·.launch)) (g'.pending.map (·.launch)) := by
  rw [h.pending_eq hg, List.map_map, List.forall₂_map_left_iff, List.forall₂_map_right_iff,
    List.forall₂_same]
  intro v hv
  refine hR v _ hv (find?_vertexOf ?_)
  rw [h.keys]
  exact key_mem_keys (mem_vertices_of_pending hv)

/-!
## What passes leave
-/

def Rebuilt (g g' : Graph ρ) : Prop := g' = g ∨ exists origin, g'.Built origin

theorem Rebuilt.consistent {g g' : Graph ρ} (h : g.Rebuilt g') (hg : g.Consistent) :
    g'.Consistent := by
  rcases h with rfl | ⟨origin, hbuilt⟩
  · exact hg
  · exact hbuilt.consistent

/-- Every pending node of `g'` launches what one of `g` launches, or a record whose
task is the one that the bank describes. -/
def Renews (bank : Bank ρ) (g g' : Graph ρ) : Prop :=
  forall v, v ∈ g'.pending ->
    (exists w, w ∈ g.pending ∧ w.launch = v.launch) ∨
    (exists record, v.record = some record ∧ v.task = (bank.describe record).task)

theorem Renews.of_launches {bank : Bank ρ} {g g' : Graph ρ}
    (h : forall p, p ∈ g'.pending.map (·.launch) -> p ∈ g.pending.map (·.launch)) :
    g.Renews bank g' := by
  intro v hv
  rcases List.mem_map.mp (h v.launch (List.mem_map_of_mem hv)) with ⟨w, hw, heq⟩
  exact Or.inl ⟨w, hw, heq⟩

end Graph
end LaunchGraph
