import LaunchGraph.Proofs.Graph.Sound

/-!
# Moving nodes

Positions are stored in the nodes, but mean nothing to edges and tasks.  Graphs
that have the same nodes under the same keys, whatever their positions, have the
same edges.  Storing the positions anew puts them right.
-/

namespace LaunchGraph

namespace Vertex

variable {ρ : Type}

def placeless (v : Vertex ρ) : Vertex ρ := v.update (·.renumbered 0 none)

@[simp] theorem key_placeless (v : Vertex ρ) : v.placeless.key = v.key := rfl

end Vertex

namespace Graph

variable {ρ : Type}

/-- Under every key the two graphs have the same node, or none, up to positions. -/
def SameNodes (g g' : Graph ρ) : Prop :=
  forall k, (g'.find? k).map Vertex.placeless = (g.find? k).map Vertex.placeless

namespace SameNodes

theorem trans {g g1 g2 : Graph ρ} (h1 : g.SameNodes g1) (h2 : g1.SameNodes g2) :
    g.SameNodes g2 :=
  fun k => (h2 k).trans (h1 k)

theorem find? {g g' : Graph ρ} (h : g.SameNodes g') {k : NodeKey} {v : Vertex ρ}
    (hv : g.find? k = some v) :
    exists w, g'.find? k = some w ∧ w.placeless = v.placeless := by
  have hk := h k
  rw [hv, Option.map_some] at hk
  exact Option.map_eq_some_iff.mp hk

theorem inputsOf {g g' : Graph ρ} (h : g.SameNodes g') (k : NodeKey) :
    g'.inputsOf k = g.inputsOf k := by
  have hk := congrArg (Option.map fun v : Vertex ρ => v.inputs) (h k)
  rw [Option.map_map, Option.map_map] at hk
  exact congrArg (Option.getD · ∅) hk

theorem outputsOf {g g' : Graph ρ} (h : g.SameNodes g') (k : NodeKey) :
    g'.outputsOf k = g.outputsOf k := by
  have hk := congrArg (Option.map fun v : Vertex ρ => v.outputs) (h k)
  rw [Option.map_map, Option.map_map] at hk
  exact congrArg (Option.getD · ∅) hk

theorem enters_iff {g g' : Graph ρ} (h : g.SameNodes g') (u v : NodeKey) (s : State) :
    g'.Enters u v s ↔ g.Enters u v s := by
  rw [Enters, h.inputsOf, Enters]

theorem leaves_iff {g g' : Graph ρ} (h : g.SameNodes g') (u v : NodeKey) (s : State) :
    g'.Leaves u v s ↔ g.Leaves u v s := by
  rw [Leaves, h.outputsOf, Leaves]

theorem writesAt {g g' : Graph ρ} (h : g.SameNodes g') {k : NodeKey} {s : State}
    (hk : g.WritesAt k s) : g'.WritesAt k s := by
  rcases hk with ⟨v, hv, hs⟩
  rcases h.find? hv with ⟨w, hw, heq⟩
  have hwrites := congrArg (fun v : Vertex ρ => v.writes s) heq
  exact ⟨w, hw, hwrites.trans hs⟩

theorem symm {g g' : Graph ρ} (h : g.SameNodes g') : g'.SameNodes g :=
  fun k => (h k).symm

theorem readsAt {g g' : Graph ρ} (h : g.SameNodes g') {k : NodeKey} {s : State}
    (hk : g.ReadsAt k s) : g'.ReadsAt k s := by
  rcases hk with ⟨v, hv, hs⟩
  rcases h.find? hv with ⟨w, hw, heq⟩
  have hreads := congrArg (fun v : Vertex ρ => v.reads s) heq
  exact ⟨w, hw, hreads.trans hs⟩

theorem mem_keys {g g' : Graph ρ} (h : g.SameNodes g') {k : NodeKey} (hk : k ∈ g.keys) :
    k ∈ g'.keys := by
  rcases exists_find? hk with ⟨v, hv⟩
  rcases h.find? hv with ⟨w, hw, _⟩
  exact mem_keys_of_find? hw

end SameNodes

theorem find?_map_placeless {g : Graph ρ} (k : NodeKey) :
    (g.find? k).map Vertex.placeless
      = (g.vertices.map Vertex.placeless).find? (·.key == k) := by
  rw [find?, List.find?_map]
  rfl

theorem sameNodes_of_map {g g' : Graph ρ}
    (h : g'.vertices.map Vertex.placeless = g.vertices.map Vertex.placeless) :
    g.SameNodes g' := by
  intro k
  rw [find?_map_placeless, find?_map_placeless, h]

theorem find?_eq_some_iff {g : Graph ρ} (h : g.keys.Nodup) {k : NodeKey} {v : Vertex ρ} :
    g.find? k = some v ↔ v ∈ g.vertices ∧ v.key = k := by
  constructor
  · intro hv
    exact ⟨mem_of_find? hv, key_of_find? hv⟩
  · rintro ⟨hv, rfl⟩
    exact find?_of_mem h hv

theorem sameNodes_of_perm {g g' : Graph ρ} (hg : g.keys.Nodup)
    (h : g'.vertices.Perm g.vertices) : g.SameNodes g' := by
  have hg' : g'.keys.Nodup := (h.map fun v : Vertex ρ => v.key).nodup_iff.mpr hg
  intro k
  have hsame : g'.find? k = g.find? k := by
    apply Option.ext
    intro v
    rw [find?_eq_some_iff hg', find?_eq_some_iff hg, h.mem_iff]
  rw [hsame]

/-!
## Storing positions
-/

theorem length_numberPending (pending : List (Vertex ρ)) (i j : Nat) :
    (numberPending pending i j).length = pending.length :=
  List.length_mapIdx

theorem map_nodeId_numberPending (pending : List (Vertex ρ)) (i j : Nat) :
    (numberPending pending i j).map (·.nodeId) = List.range' i pending.length := by
  apply List.ext_getElem
  · simp [numberPending]
  · intro n h1 h2
    simp [numberPending, Node.renumbered]

theorem map_pendingId_numberPending (pending : List (Vertex ρ)) (i : Nat) :
    (numberPending pending i 0).map (·.pendingId) = (List.range pending.length).map some := by
  apply List.ext_getElem
  · simp [numberPending]
  · intro n h1 h2
    simp [numberPending, Node.renumbered]

theorem map_nodeId_numberExecuted (history : List (Vertex ρ)) (i : Nat) :
    (numberExecuted history i).map (·.nodeId) = List.range' i history.length := by
  apply List.ext_getElem
  · simp [numberExecuted]
  · intro n h1 h2
    simp [numberExecuted, Node.renumbered]

theorem map_numberPending {β : Type} {f : Vertex ρ -> β}
    (hf : forall v i p, f (v.update (·.renumbered i p)) = f v) (pending : List (Vertex ρ))
    (i j : Nat) : (numberPending pending i j).map f = pending.map f := by
  apply List.ext_getElem
  · simp [numberPending]
  · intro n h1 h2
    simp [numberPending, hf]

theorem map_numberExecuted {β : Type} {f : Vertex ρ -> β}
    (hf : forall v i p, f (v.update (·.renumbered i p)) = f v) (history : List (Vertex ρ))
    (i : Nat) : (numberExecuted history i).map f = history.map f := by
  apply List.ext_getElem
  · simp [numberExecuted]
  · intro n h1 h2
    simp [numberExecuted, hf]

theorem map_vertices_renumberPending {β : Type} {f : Vertex ρ -> β}
    (hf : forall v i p, f (v.update (·.renumbered i p)) = f v) (g : Graph ρ) :
    g.renumberPending.vertices.map f = g.vertices.map f := by
  show (g.executed ++ numberPending g.pending _ _).map f = (g.executed ++ g.pending).map f
  rw [List.map_append, List.map_append, map_numberPending hf]

theorem map_executed_renumber {β : Type} {f : Vertex ρ -> β}
    (hf : forall v i p, f (v.update (·.renumbered i p)) = f v) (g : Graph ρ) :
    g.renumber.executed.map f = g.executed.map f := by
  show f (g.initial.update (·.renumbered 0 none)) :: (numberExecuted g.history 1).map f
    = f g.initial :: g.history.map f
  rw [map_numberExecuted hf, hf]

theorem map_pending_renumber {β : Type} {f : Vertex ρ -> β}
    (hf : forall v i p, f (v.update (·.renumbered i p)) = f v) (g : Graph ρ) :
    g.renumber.pending.map f = g.pending.map f :=
  map_numberPending hf ..

theorem map_vertices_renumber {β : Type} {f : Vertex ρ -> β}
    (hf : forall v i p, f (v.update (·.renumbered i p)) = f v) (g : Graph ρ) :
    g.renumber.vertices.map f = g.vertices.map f := by
  rw [vertices, List.map_append, map_executed_renumber hf, map_pending_renumber hf, vertices,
    List.map_append]

theorem keys_renumber (g : Graph ρ) : g.renumber.keys = g.keys :=
  map_vertices_renumber (fun _ _ _ => rfl) g

theorem pendingKeys_renumber (g : Graph ρ) : g.renumber.pendingKeys = g.pendingKeys :=
  map_pending_renumber (fun _ _ _ => rfl) g

theorem renumberPending_sameNodes (g : Graph ρ) : g.SameNodes g.renumberPending :=
  sameNodes_of_map (map_vertices_renumberPending (fun _ _ _ => rfl) g)

theorem renumber_sameNodes (g : Graph ρ) : g.SameNodes g.renumber :=
  sameNodes_of_map (map_vertices_renumber (fun _ _ _ => rfl) g)

theorem mem_numberPending {pending : List (Vertex ρ)} {i j : Nat} {v : Vertex ρ}
    (hv : v ∈ numberPending pending i j) :
    exists w n p, w ∈ pending ∧ v = w.update (·.renumbered n p) := by
  rcases List.mem_mapIdx.mp hv with ⟨n, hn, rfl⟩
  exact ⟨pending[n], i + n, some (j + n), List.getElem_mem hn, rfl⟩

theorem mem_numberExecuted {history : List (Vertex ρ)} {i : Nat} {v : Vertex ρ}
    (hv : v ∈ numberExecuted history i) :
    exists w n, w ∈ history ∧ v = w.update (·.renumbered n none) := by
  rcases List.mem_mapIdx.mp hv with ⟨n, hn, rfl⟩
  exact ⟨history[n], i + n, List.getElem_mem hn, rfl⟩

theorem renumber_numbered {g : Graph ρ} (hinitial : g.initial.isInitial = true)
    (hlater : forall v, v ∈ g.history ++ g.pending -> v.isInitial = false) :
    g.renumber.Numbered := by
  have hvertices : g.renumber.vertices
      = g.initial.update (·.renumbered 0 none) ::
        (numberExecuted g.history 1 ++ numberPending g.pending g.executed.length 0) := rfl
  have hsize : g.renumber.size = g.history.length + g.pending.length + 1 := by
    rw [size, hvertices]
    simp [numberExecuted, numberPending]
  have hexecuted : g.executed.length = g.history.length + 1 := rfl
  constructor
  · rw [hvertices, hsize, List.map_cons, List.map_append, map_nodeId_numberExecuted,
      map_nodeId_numberPending, hexecuted, List.range_eq_range', List.range'_succ,
      ← List.range'_append_1, Nat.zero_add, Nat.add_comm 1]
    rfl
  · intro v hv
    have hv' : v ∈ g.initial.update (·.renumbered 0 none) :: numberExecuted g.history 1 := hv
    rcases List.mem_cons.mp hv' with rfl | hv'
    · rfl
    · rcases mem_numberExecuted hv' with ⟨w, n, _, rfl⟩
      rfl
  · show (numberPending g.pending _ 0).map _ = (List.range (numberPending ..).length).map some
    rw [map_pendingId_numberPending, length_numberPending]
  · exact hinitial
  · intro v hv
    have hv' : v ∈ numberExecuted g.history 1 ++ numberPending g.pending g.executed.length 0 := hv
    rcases List.mem_append.mp hv' with hv' | hv'
    · rcases mem_numberExecuted hv' with ⟨w, n, hw, rfl⟩
      exact hlater w (List.mem_append_left _ hw)
    · rcases mem_numberPending hv' with ⟨w, n, p, hw, rfl⟩
      exact hlater w (List.mem_append_right _ hw)

theorem Numbered.executed_nodeIds {g : Graph ρ} (h : g.Numbered) :
    g.executed.map (·.nodeId) = List.range g.executed.length := by
  have hids := congrArg (List.take g.executed.length) h.nodeIds
  rw [vertices, List.map_append, List.take_left' (by simp), List.take_range] at hids
  rw [hids, size, vertices, List.length_append, Nat.min_eq_left (Nat.le_add_right ..)]

theorem renumberPending_numbered {g : Graph ρ}
    (hids : g.executed.map (·.nodeId) = List.range g.executed.length)
    (hexecuted : forall v, v ∈ g.executed -> v.pendingId = none)
    (hinitial : g.initial.isInitial = true)
    (hlater : forall v, v ∈ g.history ++ g.pending -> v.isInitial = false) :
    g.renumberPending.Numbered := by
  have hvertices : g.renumberPending.vertices
      = g.executed ++ numberPending g.pending g.executed.length 0 := rfl
  constructor
  · rw [size, hvertices, List.map_append, hids, map_nodeId_numberPending, List.length_append,
      length_numberPending, List.range_eq_range', List.range_eq_range', ← List.range'_append_1,
      Nat.zero_add]
  · exact hexecuted
  · show (numberPending g.pending _ 0).map _ = (List.range (numberPending ..).length).map some
    rw [map_pendingId_numberPending, length_numberPending]
  · exact hinitial
  · intro v hv
    have hv' : v ∈ g.history ++ numberPending g.pending g.executed.length 0 := hv
    rcases List.mem_append.mp hv' with hv' | hv'
    · exact hlater v (List.mem_append_left _ hv')
    · rcases mem_numberPending hv' with ⟨w, n, p, hw, rfl⟩
      exact hlater w (List.mem_append_right _ hw)

end Graph
end LaunchGraph
