import LaunchGraph.Proofs.Graph.Edges
import LaunchGraph.Proofs.Precedence

/-!
# Sound graphs

A graph is sound if its keys are distinct, its nodes know their positions, its
edges are known at both ends and lead to pending nodes, and its tables speak of
nodes that are there.  Soundness says nothing about which edges there are, nor
whether they lead forward; operations that put edges in one by one keep it.
-/

namespace LaunchGraph
namespace Graph

variable {ρ : Type}

def WritesAt (g : Graph ρ) (k : NodeKey) (s : State) : Prop :=
  exists v, g.find? k = some v ∧ v.writes s = true

def ReadsAt (g : Graph ρ) (k : NodeKey) (s : State) : Prop :=
  exists v, g.find? k = some v ∧ v.reads s = true

/-- Keys are distinct, and were handed out before. -/
structure Keyed (g : Graph ρ) : Prop where
  nodup : g.keys.Nodup
  stamp_lt : forall k, k ∈ g.keys -> k.stamp < g.nextStamp

/-- Every node stores its position, its pending position and whether it is the
initial node. -/
structure Numbered (g : Graph ρ) : Prop where
  nodeIds : g.vertices.map (·.nodeId) = List.range g.size
  executedIds : forall v, v ∈ g.executed -> v.pendingId = none
  pendingIds : g.pending.map (·.pendingId) = (List.range g.pendingCount).map some
  initial : g.initial.isInitial = true
  later : forall v, v ∈ g.history ++ g.pending -> v.isInitial = false

/-- Every edge is known at both ends, and its target is pending. -/
structure Wired (g : Graph ρ) : Prop where
  mirrored : forall u v s, g.Leaves u v s ↔ g.Enters u v s
  target_pending : forall u v s, g.Enters u v s -> v ∈ g.pendingKeys

/-- Owners are in the sequence and, once executed, write what they own; latest
readers are pending. -/
structure Owned (g : Graph ρ) : Prop where
  owner_mem : forall s k, g.owners.get? s = some k -> k ∈ g.keys
  executed_writes : forall s k, g.owners.get? s = some k -> k ∉ g.pendingKeys -> g.WritesAt k s
  readers_pending : forall s k, k ∈ g.readers.get s -> k ∈ g.pendingKeys

structure Sound (g : Graph ρ) : Prop where
  keyed : g.Keyed
  numbered : g.Numbered
  wired : g.Wired
  owned : g.Owned

/-- What is left of soundness if edges may lead anywhere and tables may say anything. -/
structure Linked (g : Graph ρ) : Prop where
  keyed : g.Keyed
  numbered : g.Numbered
  mirrored : forall u v s, g.Leaves u v s ↔ g.Enters u v s

theorem Sound.linked {g : Graph ρ} (h : g.Sound) : g.Linked :=
  ⟨h.keyed, h.numbered, h.wired.mirrored⟩

theorem Linked.source_mem {g : Graph ρ} (h : g.Linked) {u v : NodeKey} {s : State}
    (huv : g.Enters u v s) : u ∈ g.keys :=
  ((h.mirrored u v s).mpr huv).source_mem

def Forward (g : Graph ρ) : Prop := forall u v s, g.Enters u v s -> ComesBefore g.keys u v

def Loopless (g : Graph ρ) : Prop := forall k s, ¬g.Leaves k k s

/-!
## Keys of parts of the sequence
-/

theorem keys_eq_append (g : Graph ρ) :
    g.keys = g.executed.map (·.key) ++ g.pendingKeys := by
  rw [keys, vertices, List.map_append]
  rfl

theorem pendingKeys_subset {g : Graph ρ} {k : NodeKey} (h : k ∈ g.pendingKeys) :
    k ∈ g.keys := by
  rw [keys_eq_append]
  exact List.mem_append_right _ h

theorem pendingKeys_sublist (g : Graph ρ) : g.pendingKeys.Sublist g.keys := by
  rw [keys_eq_append]
  exact List.sublist_append_right ..

theorem keys_before_of_pending {g : Graph ρ} {u v : Vertex ρ} (h : ComesBefore g.pending u v) :
    ComesBefore g.keys u.key v.key := by
  have hkeys : ComesBefore g.pendingKeys u.key v.key := h.map fun v : Vertex ρ => v.key
  exact hkeys.of_sublist g.pendingKeys_sublist

theorem initial_key_mem (g : Graph ρ) : g.initial.key ∈ g.keys :=
  key_mem_keys (List.mem_cons_self ..)

theorem Keyed.nodup_pending {g : Graph ρ} (h : g.Keyed) : g.pendingKeys.Nodup :=
  h.nodup.sublist g.pendingKeys_sublist

theorem Keyed.executed_not_pending {g : Graph ρ} (h : g.Keyed) {v : Vertex ρ}
    (hv : v ∈ g.executed) : v.key ∉ g.pendingKeys := by
  have hnodup := h.nodup
  rw [keys_eq_append, List.nodup_append] at hnodup
  intro hp
  exact hnodup.right.right v.key (List.mem_map_of_mem hv) v.key hp rfl

theorem Keyed.initial_not_pending {g : Graph ρ} (h : g.Keyed) :
    g.initial.key ∉ g.pendingKeys :=
  h.executed_not_pending (List.mem_cons_self ..)

theorem exists_pending {g : Graph ρ} {k : NodeKey} (h : k ∈ g.pendingKeys) :
    exists v, v ∈ g.pending ∧ v.key = k :=
  List.mem_map.mp h

theorem mem_vertices_of_pending {g : Graph ρ} {v : Vertex ρ} (h : v ∈ g.pending) :
    v ∈ g.vertices :=
  List.mem_append_right _ h

theorem mem_vertices_of_executed {g : Graph ρ} {v : Vertex ρ} (h : v ∈ g.executed) :
    v ∈ g.vertices :=
  List.mem_append_left _ h

theorem Keyed.find?_pending {g : Graph ρ} (h : g.Keyed) {v : Vertex ρ} (hv : v ∈ g.pending) :
    g.find? v.key = some v :=
  find?_of_mem h.nodup (mem_vertices_of_pending hv)

theorem Forward.loopless {g : Graph ρ} (hf : g.Forward) (hg : g.Linked) : g.Loopless := by
  intro k s hk
  have henters := (hg.mirrored k k s).mp hk
  exact ComesBefore.irrefl hg.keyed.nodup (hf k k s henters)

theorem Keyed.eq_of_key {g : Graph ρ} (h : g.Keyed) {u v : Vertex ρ} (hu : u ∈ g.vertices)
    (hv : v ∈ g.vertices) (heq : u.key = v.key) : u = v :=
  List.inj_on_of_nodup_map h.nodup hu hv heq

theorem Keyed.vertices_before {g : Graph ρ} (h : g.Keyed) {u v : Vertex ρ}
    (hu : u ∈ g.vertices) (hv : v ∈ g.vertices) (hbefore : ComesBefore g.keys u.key v.key) :
    ComesBefore g.vertices u v := by
  rcases hbefore.of_map with ⟨a, b, hab, ha, hb⟩
  rw [h.eq_of_key hab.left_mem hu ha, h.eq_of_key hab.right_mem hv hb] at hab
  exact hab

theorem Keyed.mem_pending_of_key {g : Graph ρ} (h : g.Keyed) {v : Vertex ρ}
    (hv : v ∈ g.vertices) (hk : v.key ∈ g.pendingKeys) : v ∈ g.pending := by
  rcases List.mem_append.mp hv with hx | hp
  · exact absurd hk (h.executed_not_pending hx)
  · exact hp

/-!
## Tasks under keys
-/

theorem writesAt_iff {g : Graph ρ} (h : g.Keyed) {v : Vertex ρ} (hv : v ∈ g.vertices)
    {s : State} : g.WritesAt v.key s ↔ v.writes s = true := by
  rw [WritesAt, find?_of_mem h.nodup hv]
  simp

theorem readsAt_iff {g : Graph ρ} (h : g.Keyed) {v : Vertex ρ} (hv : v ∈ g.vertices)
    {s : State} : g.ReadsAt v.key s ↔ v.reads s = true := by
  rw [ReadsAt, find?_of_mem h.nodup hv]
  simp

theorem WritesAt.mem {g : Graph ρ} {k : NodeKey} {s : State} (h : g.WritesAt k s) :
    k ∈ g.keys := by
  rcases h with ⟨v, hv, _⟩
  exact mem_keys_of_find? hv

theorem Numbered.initial_writes {g : Graph ρ} (h : g.Numbered) (s : State) :
    g.initial.writes s = true := by
  show (g.initial.isInitial || _) = true
  rw [h.initial, Bool.true_or]

theorem Sound.initial_writesAt {g : Graph ρ} (h : g.Sound) (s : State) :
    g.WritesAt g.initial.key s :=
  (writesAt_iff h.keyed (List.mem_cons_self ..)).mpr (h.numbered.initial_writes s)

theorem Numbered.pending_writes {g : Graph ρ} (h : g.Numbered) {v : Vertex ρ}
    (hv : v ∈ g.pending) (s : State) : v.writes s = v.task.writes s := by
  show (v.isInitial || _) = _
  rw [h.later v (List.mem_append_right _ hv), Bool.false_or]

theorem ownerOrInitial_writes {g : Graph ρ} (h : g.Sound) {s : State}
    (hwrites : forall k, g.owners.get? s = some k -> g.WritesAt k s) :
    g.WritesAt (g.ownerOrInitial s) s := by
  rw [ownerOrInitial]
  cases ho : g.owners.get? s with
  | none => exact h.initial_writesAt s
  | some k => exact hwrites k ho

theorem Owned.ownerOrInitial_mem {g : Graph ρ} (h : g.Owned) (s : State) :
    g.ownerOrInitial s ∈ g.keys := by
  rw [ownerOrInitial]
  cases ho : g.owners.get? s with
  | none => exact g.initial_key_mem
  | some k => exact h.owner_mem s k ho

/-!
## Positions
-/

theorem Numbered.nodeId_lt_iff {g : Graph ρ} (h : g.Numbered) (hk : g.Keyed)
    {u v : Vertex ρ} (hu : u ∈ g.vertices) (hv : v ∈ g.vertices) :
    u.nodeId < v.nodeId ↔ ComesBefore g.keys u.key v.key := by
  have hforward : forall a b : Vertex ρ, ComesBefore g.vertices a b -> a.nodeId < b.nodeId := by
    intro a b hab
    have hids := hab.map (·.nodeId)
    rw [h.nodeIds] at hids
    exact ComesBefore.of_pairwise List.pairwise_lt_range hids
  constructor
  · intro hlt
    have hne : u ≠ v := by
      intro he
      subst he
      exact Nat.lt_irrefl _ hlt
    rcases ComesBefore.total hu hv hne with hab | hba
    · exact hab.map (·.key)
    · exact absurd (hforward v u hba) (Nat.lt_asymm hlt)
  · intro hbefore
    exact hforward u v (hk.vertices_before hu hv hbefore)

theorem Numbered.nodeId_lt_size {g : Graph ρ} (h : g.Numbered) {v : Vertex ρ}
    (hv : v ∈ g.vertices) : v.nodeId < g.size := by
  have hmem : v.nodeId ∈ g.vertices.map (·.nodeId) := List.mem_map_of_mem hv
  rw [h.nodeIds] at hmem
  exact List.mem_range.mp hmem

theorem Numbered.eq_of_nodeId {g : Graph ρ} (h : g.Numbered) {v w : Vertex ρ}
    (hv : v ∈ g.vertices) (hw : w ∈ g.vertices) (heq : v.nodeId = w.nodeId) : v = w := by
  have hnodup : (g.vertices.map (·.nodeId)).Nodup := by
    rw [h.nodeIds]
    exact List.nodup_range
  exact List.inj_on_of_nodup_map hnodup hv hw heq

theorem Numbered.vertexAt_nodeId {g : Graph ρ} (h : g.Numbered) {v : Vertex ρ}
    (hv : v ∈ g.vertices) : g.vertexAt v.nodeId = .ok v := by
  rcases List.mem_iff_getElem?.mp hv with ⟨i, hi⟩
  have hid : (g.vertices.map (·.nodeId))[i]? = some v.nodeId := by
    rw [List.getElem?_map, hi]
    rfl
  have hlt : i < g.size := (List.getElem?_eq_some_iff.mp hi).1
  rw [h.nodeIds, List.getElem?_range hlt] at hid
  cases hid
  rw [vertexAt, hi]

theorem Numbered.pendingId_of_pending {g : Graph ρ} (h : g.Numbered) {v : Vertex ρ} {i : Nat}
    (hv : g.pending[i]? = some v) : v.pendingId = some i := by
  have hid : (g.pending.map (·.pendingId))[i]? = some v.pendingId := by
    rw [List.getElem?_map, hv]
    rfl
  have hlt : i < g.pendingCount := (List.getElem?_eq_some_iff.mp hv).1
  rw [h.pendingIds, List.getElem?_map, List.getElem?_range hlt, Option.map_some,
    Option.some.injEq] at hid
  exact hid.symm

theorem Numbered.isPending_of_pending {g : Graph ρ} (h : g.Numbered) {v : Vertex ρ}
    (hv : v ∈ g.pending) : v.isPending = true := by
  rcases List.mem_iff_getElem?.mp hv with ⟨i, hi⟩
  rw [Node.isPending, h.pendingId_of_pending hi]
  rfl

theorem Numbered.isExecuted_of_pending {g : Graph ρ} (h : g.Numbered) {v : Vertex ρ}
    (hv : v ∈ g.pending) : v.isExecuted = false := by
  have hp := h.isPending_of_pending hv
  rw [Node.isPending] at hp
  rw [Node.isExecuted]
  cases hid : v.pendingId with
  | none =>
      rw [hid] at hp
      cases hp
  | some i => rfl

/-!
## What the frame decides
-/

theorem forall_mem_of_bare {P : Vertex ρ -> Prop} (hP : forall v : Vertex ρ, P v.bare ↔ P v)
    {l l' : List (Vertex ρ)} (h : l'.map Vertex.bare = l.map Vertex.bare)
    (hl : forall v, v ∈ l -> P v) : forall v, v ∈ l' -> P v := by
  intro v hv
  have hmem : v.bare ∈ l'.map Vertex.bare := List.mem_map_of_mem hv
  rw [h] at hmem
  rcases List.mem_map.mp hmem with ⟨w, hw, he⟩
  have hPw := (hP w).mpr (hl w hw)
  rw [he] at hPw
  exact (hP v).mp hPw

theorem Keyed.congr {g g' : Graph ρ} (h : g'.skeleton = g.skeleton) (hg : g.Keyed) :
    g'.Keyed := by
  have hstamp := congrArg Graph.nextStamp h
  have hstamp' : g'.nextStamp = g.nextStamp := hstamp
  refine ⟨?_, ?_⟩
  · rw [keys_congr h]
    exact hg.nodup
  · intro k hk
    rw [keys_congr h] at hk
    rw [hstamp']
    exact hg.stamp_lt k hk

theorem Numbered.congr {g g' : Graph ρ} (h : g'.skeleton = g.skeleton) (hg : g.Numbered) :
    g'.Numbered := by
  have hvertices := bareVertices_congr h
  have hpending := barePending_congr h
  have hexecuted := bareExecuted_congr h
  have hinitial := congrArg (fun g => g.initial.isInitial) h
  have hlater : (g'.history ++ g'.pending).map Vertex.bare
      = (g.history ++ g.pending).map Vertex.bare := by
    rw [List.map_append, List.map_append, hpending]
    have hhistory := congrArg Graph.history h
    exact congrArg (· ++ _) hhistory
  constructor
  · rw [map_congr_of_bare (fun v => v.nodeId_bare) hvertices, hg.nodeIds, size, size,
      length_eq_of_map_eq hvertices]
  · exact forall_mem_of_bare (fun v => Iff.rfl) hexecuted hg.executedIds
  · rw [map_congr_of_bare (fun v => v.pendingId_bare) hpending, hg.pendingIds, pendingCount,
      pendingCount, length_eq_of_map_eq hpending]
  · exact hinitial.trans hg.initial
  · exact forall_mem_of_bare (fun v => Iff.rfl) hlater hg.later

theorem WritesAt.congr {g g' : Graph ρ} (h : g'.skeleton = g.skeleton) {k : NodeKey}
    {s : State} (hg : g.WritesAt k s) : g'.WritesAt k s := by
  rcases hg with ⟨v, hv, hs⟩
  have hfind := find?_bare_congr h k
  rw [hv, Option.map_some] at hfind
  rcases Option.map_eq_some_iff.mp hfind with ⟨w, hw, he⟩
  refine ⟨w, hw, ?_⟩
  rw [← w.writes_bare, he, v.writes_bare, hs]

theorem ReadsAt.congr {g g' : Graph ρ} (h : g'.skeleton = g.skeleton) {k : NodeKey}
    {s : State} (hg : g.ReadsAt k s) : g'.ReadsAt k s := by
  rcases hg with ⟨v, hv, hs⟩
  have hfind := find?_bare_congr h k
  rw [hv, Option.map_some] at hfind
  rcases Option.map_eq_some_iff.mp hfind with ⟨w, hw, he⟩
  refine ⟨w, hw, ?_⟩
  rw [← w.reads_bare, he, v.reads_bare, hs]

theorem Linked.of_skeleton {g g' : Graph ρ} (hg : g.Linked) (h : g'.skeleton = g.skeleton)
    (hmirrored : forall u v s, g'.Leaves u v s ↔ g'.Enters u v s) : g'.Linked :=
  ⟨hg.keyed.congr h, hg.numbered.congr h, hmirrored⟩

/-- A graph with the same nodes is sound as long as its edges and tables are right. -/
theorem Sound.of_skeleton {g g' : Graph ρ} (hg : g.Sound) (h : g'.skeleton = g.skeleton)
    (hmirrored : forall u v s, g'.Leaves u v s ↔ g'.Enters u v s)
    (htarget : forall u v s, g'.Enters u v s -> v ∈ g.pendingKeys)
    (howner : forall s k, g'.owners.get? s = some k ->
      k ∈ g.keys ∧ (k ∉ g.pendingKeys -> g.WritesAt k s))
    (hreader : forall s k, k ∈ g'.readers.get s -> k ∈ g.pendingKeys) : g'.Sound := by
  refine ⟨hg.keyed.congr h, hg.numbered.congr h, ⟨hmirrored, ?_⟩, ⟨?_, ?_, ?_⟩⟩
  · intro u v s huv
    rw [pendingKeys_congr h]
    exact htarget u v s huv
  · intro s k hk
    rw [keys_congr h]
    exact (howner s k hk).left
  · intro s k hk hnot
    rw [pendingKeys_congr h] at hnot
    exact ((howner s k hk).right hnot).congr h
  · intro s k hk
    rw [pendingKeys_congr h]
    exact hreader s k hk

/-- Adding and removing edges keeps a graph sound as long as the two relations
stay the same and every target is pending. -/
theorem Sound.rewired {g g' : Graph ρ} {edge : NodeKey -> NodeKey -> State -> Prop}
    (hg : g.Sound) (h : g.Rewired g' edge edge)
    (htarget : forall u v s, edge u v s -> v ∈ g.pendingKeys) : g'.Sound := by
  refine hg.of_skeleton (skeleton_congr h.frame) ?_ ?_ ?_ ?_
  · intro u v s
    rw [h.leaves_iff, h.enters_iff]
  · intro u v s huv
    exact htarget u v s ((h.enters_iff u v s).mp huv)
  · intro s k hk
    rw [owners_congr h.frame] at hk
    exact ⟨hg.owned.owner_mem s k hk, hg.owned.executed_writes s k hk⟩
  · intro s k hk
    rw [readers_congr h.frame] at hk
    exact hg.owned.readers_pending s k hk

theorem Wired.source_mem {g : Graph ρ} (h : g.Wired) {u v : NodeKey} {s : State}
    (huv : g.Enters u v s) : u ∈ g.keys :=
  ((h.mirrored u v s).mpr huv).source_mem

end Graph
end LaunchGraph
