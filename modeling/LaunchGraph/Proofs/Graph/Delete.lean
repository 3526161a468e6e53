import LaunchGraph.Proofs.Graph.Consistent
import LaunchGraph.Proofs.Graph.Isolate
import LaunchGraph.Proofs.Graph.Places
import LaunchGraph.Proofs.Graph.Writers

/-!
# What a deletion does

Deleting pending nodes takes them out of all edges and tables, and then out of the
sequence.  Edges still lead forward, and what was linked through deleted nodes stays
linked, so that a consistent graph stays consistent.
-/

namespace LaunchGraph

namespace Vertex

variable {ρ : Type}

def core (v : Vertex ρ) : Vertex ρ := v.bare.placeless

@[simp] theorem key_core (v : Vertex ρ) : v.core.key = v.key := rfl

end Vertex

namespace Graph

variable {ρ : Type}

theorem WritesAt.of_core {g g' : Graph ρ} {k : NodeKey} {s : State}
    (h : (g'.find? k).map Vertex.core = (g.find? k).map Vertex.core) (hk : g.WritesAt k s) :
    g'.WritesAt k s := by
  rcases hk with ⟨v, hv, hs⟩
  rw [hv, Option.map_some] at h
  rcases Option.map_eq_some_iff.mp h with ⟨w, hw, heq⟩
  have hwrites := congrArg (fun v : Vertex ρ => v.writes s) heq
  exact ⟨w, hw, hwrites.trans hs⟩

theorem ReadsAt.of_core {g g' : Graph ρ} {k : NodeKey} {s : State}
    (h : (g'.find? k).map Vertex.core = (g.find? k).map Vertex.core) (hk : g.ReadsAt k s) :
    g'.ReadsAt k s := by
  rcases hk with ⟨v, hv, hs⟩
  rw [hv, Option.map_some] at h
  rcases Option.map_eq_some_iff.mp h with ⟨w, hw, heq⟩
  have hreads := congrArg (fun v : Vertex ρ => v.reads s) heq
  exact ⟨w, hw, hreads.trans hs⟩

/-- The graph `g'` is `g` without the pending nodes in `doomed`. -/
structure Deleted (g : Graph ρ) (doomed : List NodeKey) (g' : Graph ρ) : Prop where
  sound : g'.Sound
  executed : g'.executed.map Vertex.core = g.executed.map Vertex.core
  pending : g'.pending.map Vertex.core
    = (g.pending.filter fun v => decide (v.key ∉ doomed)).map Vertex.core
  nextSeq : g'.nextSeq = g.nextSeq
  owners : g.OwnersLeft doomed g'.owners
  mem_readers : forall s j, j ∈ g'.readers.get s ↔ j ∈ g.readers.get s ∧ j ∉ doomed
  enters_iff : forall u v s, g'.Enters u v s ↔ u ∉ doomed ∧ v ∉ doomed ∧ g.Via doomed s u v
  keys : g'.keys = g.keys.filter fun k => decide (k ∉ doomed)
  find? : forall k, k ∉ doomed -> (g'.find? k).map Vertex.core = (g.find? k).map Vertex.core

/-!
## The nodes at some positions
-/

def KeysAt (g : Graph ρ) (positions : OrderedSet Nat) (doomed : List NodeKey) : Prop :=
  forall k, k ∈ doomed ↔ exists v, v ∈ g.pending ∧ v.nodeId ∈ positions ∧ v.key = k

theorem KeysAt.pending {g : Graph ρ} {positions : OrderedSet Nat} {doomed : List NodeKey}
    (h : g.KeysAt positions doomed) {k : NodeKey} (hk : k ∈ doomed) : k ∈ g.pendingKeys := by
  rcases (h k).mp hk with ⟨v, hv, _, rfl⟩
  exact List.mem_map_of_mem hv

theorem mapM_deletableAt_ok {g : Graph ρ} (hg : g.Numbered) {positions : OrderedSet Nat}
    (hpositions : forall p, p ∈ positions -> exists v, v ∈ g.pending ∧ v.nodeId = p) :
    exists doomed, positions.toList.mapM g.deletableAt = .ok doomed ∧
      g.KeysAt positions doomed := by
  let keyAt : Nat -> NodeKey := fun p => ((g.vertices[p]?).map (·.key)).getD g.initial.key
  have hkey : forall v, v ∈ g.pending -> keyAt v.nodeId = v.key := by
    intro v hv
    have hat := hg.vertexAt_nodeId (mem_vertices_of_pending hv)
    rw [vertexAt] at hat
    cases hget : g.vertices[v.nodeId]? with
    | none =>
        rw [hget] at hat
        cases hat
    | some w =>
        rw [hget] at hat
        cases hat
        show ((g.vertices[v.nodeId]?).map (·.key)).getD g.initial.key = v.key
        rw [hget]
        rfl
  have hall : forall p, p ∈ positions.toList -> g.deletableAt p = .ok (keyAt p) := by
    intro p hp
    rcases hpositions p hp with ⟨v, hv, rfl⟩
    rw [deletableAt, hg.vertexAt_nodeId (mem_vertices_of_pending hv), ok_bind,
      if_pos (hg.isPending_of_pending hv), hkey v hv]
    rfl
  refine ⟨positions.toList.map keyAt, mapM_ok_of_forall hall, ?_⟩
  intro k
  rw [List.mem_map]
  constructor
  · rintro ⟨p, hp, rfl⟩
    rcases hpositions p hp with ⟨v, hv, rfl⟩
    exact ⟨v, hv, hp, (hkey v hv).symm⟩
  · rintro ⟨v, hv, hp, rfl⟩
    exact ⟨v.nodeId, hp, hkey v hv⟩

/-!
## Taking nodes out of the sequence
-/

def without (g : Graph ρ) (doomed : List NodeKey) : Graph ρ :=
  { g with pending := g.pending.filter (·.key ∉ doomed) }

theorem vertices_without {g : Graph ρ} (hg : g.Keyed) {doomed : List NodeKey}
    (hdoomed : forall k, k ∈ doomed -> k ∈ g.pendingKeys) :
    (g.without doomed).vertices = g.vertices.filter fun v => decide (v.key ∉ doomed) := by
  have hexecuted : g.executed.filter (fun v => decide (v.key ∉ doomed)) = g.executed := by
    rw [List.filter_eq_self]
    intro v hv
    rw [decide_eq_true_iff]
    intro hin
    exact hg.executed_not_pending hv (hdoomed _ hin)
  rw [vertices, vertices, List.filter_append, hexecuted]
  rfl

theorem find?_without {g : Graph ρ} (hg : g.Keyed) {doomed : List NodeKey}
    (hdoomed : forall k, k ∈ doomed -> k ∈ g.pendingKeys) (k : NodeKey) :
    (g.without doomed).find? k = if k ∈ doomed then none else g.find? k := by
  rw [find?, vertices_without hg hdoomed, List.find?_filter]
  by_cases hk : k ∈ doomed
  · rw [if_pos hk, List.find?_eq_none]
    intro v _ hv
    rw [decide_eq_true_iff, decide_eq_true_iff, beq_iff_eq] at hv
    exact hv.left (hv.right ▸ hk)
  · rw [if_neg hk, find?]
    congr 1
    funext v
    by_cases hv : v.key = k
    · simp [hv, hk]
    · simp [hv]

theorem pendingKeys_without (g : Graph ρ) (doomed : List NodeKey) :
    (g.without doomed).pendingKeys = g.pendingKeys.filter fun k => decide (k ∉ doomed) := by
  rw [pendingKeys, pendingKeys, List.filter_map]
  rfl

theorem mem_pendingKeys_without {g : Graph ρ} {doomed : List NodeKey} {k : NodeKey} :
    k ∈ (g.without doomed).pendingKeys ↔ k ∈ g.pendingKeys ∧ k ∉ doomed := by
  rw [pendingKeys_without, List.mem_filter, decide_eq_true_iff]

theorem keys_without {g : Graph ρ} (hg : g.Keyed) {doomed : List NodeKey}
    (hdoomed : forall k, k ∈ doomed -> k ∈ g.pendingKeys) :
    (g.without doomed).keys = g.keys.filter fun k => decide (k ∉ doomed) := by
  rw [keys, vertices_without hg hdoomed, keys, List.filter_map]
  rfl

theorem enters_without {g : Graph ρ} (hg : g.Keyed) {doomed : List NodeKey}
    (hdoomed : forall k, k ∈ doomed -> k ∈ g.pendingKeys) (u v : NodeKey) (s : State) :
    (g.without doomed).Enters u v s ↔ v ∉ doomed ∧ g.Enters u v s := by
  rw [Enters, inputsOf, find?_without hg hdoomed, Enters, inputsOf]
  by_cases hv : v ∈ doomed
  · simp [hv]
  · simp [hv]

theorem leaves_without {g : Graph ρ} (hg : g.Keyed) {doomed : List NodeKey}
    (hdoomed : forall k, k ∈ doomed -> k ∈ g.pendingKeys) (u v : NodeKey) (s : State) :
    (g.without doomed).Leaves u v s ↔ u ∉ doomed ∧ g.Leaves u v s := by
  rw [Leaves, outputsOf, find?_without hg hdoomed, Leaves, outputsOf]
  by_cases hu : u ∈ doomed
  · simp [hu]
  · simp [hu]

theorem map_core_congr {l l' : List (Vertex ρ)} (h : l'.map Vertex.bare = l.map Vertex.bare) :
    l'.map Vertex.core = l.map Vertex.core :=
  map_congr_of_bare (fun _ => rfl) h

theorem filter_key_congr {l l' : List (Vertex ρ)} (h : l'.map Vertex.core = l.map Vertex.core)
    (p : NodeKey -> Bool) :
    (l'.filter fun v => p v.key).map Vertex.core
      = (l.filter fun v => p v.key).map Vertex.core := by
  have hfilter := congrArg (List.filter fun v : Vertex ρ => p v.key) h
  rw [List.filter_map, List.filter_map] at hfilter
  exact hfilter

/-!
## The last step
-/

namespace Cleared

variable {g g1 : Graph ρ} {doomed : List NodeKey} {owners : Table State NodeKey}
  (h : ({ g with owners } : Graph ρ).Cleared doomed g1)

include h

theorem skeleton_eq : g1.skeleton = g.skeleton := by
  have hskeleton := h.skeleton
  exact hskeleton

theorem mem_pendingKeys_left (k : NodeKey) :
    k ∈ (g1.without doomed).renumber.pendingKeys ↔ k ∈ g.pendingKeys ∧ k ∉ doomed := by
  rw [pendingKeys_renumber, mem_pendingKeys_without, pendingKeys_congr h.skeleton_eq]

variable (hg : g.Sound) (hdoomed : forall k, k ∈ doomed -> k ∈ g.pendingKeys)

include hdoomed

theorem doomed_pending {k : NodeKey} (hk : k ∈ doomed) : k ∈ g1.pendingKeys := by
  rw [pendingKeys_congr h.skeleton_eq]
  exact hdoomed k hk

include hg

theorem keys_left :
    (g1.without doomed).renumber.keys = g.keys.filter fun k => decide (k ∉ doomed) := by
  rw [keys_renumber, keys_without (hg.keyed.congr h.skeleton_eq) (fun _ => h.doomed_pending hdoomed),
    keys_congr h.skeleton_eq]

theorem enters_left (u v : NodeKey) (s : State) : (g1.without doomed).renumber.Enters u v s ↔
    u ∉ doomed ∧ v ∉ doomed ∧ g.Via doomed s u v := by
  have hvia : Via { g with owners } doomed s u v ↔ g.Via doomed s u v :=
    ⟨Via.of_enters fun _ _ h => h, Via.of_enters fun _ _ h => h⟩
  rw [(renumber_sameNodes _).enters_iff,
    enters_without (hg.keyed.congr h.skeleton_eq) (fun _ => h.doomed_pending hdoomed),
    h.enters_iff, hvia]
  exact ⟨fun h => h.right, fun h => ⟨h.right.left, h⟩⟩

theorem leaves_left (u v : NodeKey) (s : State) : (g1.without doomed).renumber.Leaves u v s ↔
    (g1.without doomed).renumber.Enters u v s := by
  have hkeyed := hg.keyed.congr h.skeleton_eq
  have hsame := renumber_sameNodes (g1.without doomed)
  rw [hsame.leaves_iff, hsame.enters_iff, leaves_without hkeyed (fun _ => h.doomed_pending hdoomed),
    enters_without hkeyed (fun _ => h.doomed_pending hdoomed), h.mirrored, h.enters_iff]
  exact ⟨fun h => ⟨h.right.right.left, h.right⟩, fun h => ⟨h.right.left, h.right⟩⟩

theorem core_left {k : NodeKey} (hk : k ∉ doomed) :
    ((g1.without doomed).renumber.find? k).map Vertex.core = (g.find? k).map Vertex.core := by
  have hplaceless := congrArg (Option.map Vertex.bare) (renumber_sameNodes (g1.without doomed) k)
  have hbare := congrArg (Option.map Vertex.placeless) (find?_bare_congr h.skeleton_eq k)
  rw [Option.map_map, Option.map_map,
    find?_without (hg.keyed.congr h.skeleton_eq) (fun _ => h.doomed_pending hdoomed),
    if_neg hk] at hplaceless
  rw [Option.map_map, Option.map_map] at hbare
  exact hplaceless.trans hbare

theorem keyed_left : (g1.without doomed).renumber.Keyed := by
  refine ⟨?_, ?_⟩
  · rw [h.keys_left hg hdoomed]
    exact hg.keyed.nodup.filter _
  · intro k hk
    rw [h.keys_left hg hdoomed] at hk
    exact (hg.keyed.congr h.skeleton_eq).stamp_lt k
      (keys_congr h.skeleton_eq ▸ (List.mem_filter.mp hk).left)

omit hdoomed in
theorem numbered_left : (g1.without doomed).renumber.Numbered := by
  have hnumbered := hg.numbered.congr h.skeleton_eq
  refine renumber_numbered hnumbered.initial ?_
  intro v hv
  refine hnumbered.later v ?_
  rcases List.mem_append.mp hv with hv | hv
  · exact List.mem_append_left _ hv
  · exact List.mem_append_right _ (List.mem_filter.mp hv).left

theorem owned_left (howners : g.OwnersLeft doomed owners) :
    (g1.without doomed).renumber.Owned := by
  have hinitial : g.initial.key ∉ doomed :=
    fun hin => hg.keyed.initial_not_pending (hdoomed _ hin)
  have hownersEq : (g1.without doomed).renumber.owners = owners := h.owners
  refine ⟨?_, ?_, ?_⟩
  · intro s k hk
    rw [hownersEq] at hk
    rw [h.keys_left hg hdoomed, List.mem_filter, decide_eq_true_iff]
    rcases howners.cases hg hinitial hk with ⟨hnot, ho | hw⟩
    · exact ⟨hg.owned.owner_mem s k ho, hnot⟩
    · exact ⟨hw.mem, hnot⟩
  · intro s k hk hexec
    rw [hownersEq] at hk
    rw [h.mem_pendingKeys_left] at hexec
    rcases howners.cases hg hinitial hk with ⟨hnot, ho | hw⟩
    · have hexecuted := hg.owned.executed_writes s k ho fun hp => hexec ⟨hp, hnot⟩
      exact hexecuted.of_core (h.core_left hg hdoomed hnot)
    · exact hw.of_core (h.core_left hg hdoomed hnot)
  · intro s k hk
    rcases (h.mem_readers s k).mp hk with ⟨hread, hnot⟩
    exact (h.mem_pendingKeys_left k).mpr ⟨hg.owned.readers_pending s k hread, hnot⟩

theorem deleted (howners : g.OwnersLeft doomed owners) :
    g.Deleted doomed (g1.without doomed).renumber := by
  have henters := h.enters_left hg hdoomed
  refine ⟨⟨h.keyed_left hg hdoomed, h.numbered_left hg, ⟨h.leaves_left hg hdoomed, ?_⟩,
    h.owned_left hg hdoomed howners⟩, ?_, ?_, ?_, ?_, ?_, henters, h.keys_left hg hdoomed,
    fun _ => h.core_left hg hdoomed⟩
  · intro u v s huv
    rcases (henters u v s).mp huv with ⟨_, hv, hvia⟩
    rcases hvia.enters_last with ⟨k, hk⟩
    exact (h.mem_pendingKeys_left v).mpr ⟨hg.wired.target_pending k v s hk, hv⟩
  · rw [map_executed_renumber (fun _ _ _ => rfl)]
    have hexecuted := map_core_congr (bareExecuted_congr h.skeleton_eq)
    exact hexecuted
  · rw [map_pending_renumber (fun _ _ _ => rfl)]
    exact filter_key_congr (map_core_congr (barePending_congr h.skeleton_eq))
      (fun k => decide (k ∉ doomed))
  · have hseq := congrArg Graph.nextSeq h.skeleton_eq
    exact hseq
  · have hownersEq : (g1.without doomed).renumber.owners = owners := h.owners
    rw [hownersEq]
    exact howners
  · exact h.mem_readers

end Cleared

theorem deleted_of_forall_not_mem {g : Graph ρ} (hg : g.Sound) {doomed : List NodeKey}
    (hnone : forall k, k ∉ doomed) : g.Deleted doomed g := by
  have hall : forall k, decide (k ∉ doomed) = true := fun k => decide_eq_true (hnone k)
  refine ⟨hg, rfl, ?_, rfl, ⟨fun _ h => h, fun _ _ h _ => h, ?_⟩, ?_, ?_, ?_, fun _ _ => rfl⟩
  · rw [List.filter_eq_self.mpr fun v _ => hall v.key]
  · intro s k _ hk
    exact absurd hk (hnone k)
  · intro s j
    exact ⟨fun h => ⟨h, hnone j⟩, fun h => h.left⟩
  · intro u v s
    constructor
    · intro h
      exact ⟨hnone u, hnone v, .edge h⟩
    · rintro ⟨_, _, h⟩
      cases h with
      | edge enters => exact enters
      | step _ through _ => exact absurd through (hnone _)
  · rw [List.filter_eq_self.mpr fun k _ => hall k]

/-- Deleting pending nodes goes through where ownership falls back to writers and no
way through the nodes leads back to its start. -/
theorem deleteNodes_ok_of_owners {g : Graph ρ} (hg : g.Sound) {positions : OrderedSet Nat}
    (hpositions : forall p, p ∈ positions -> exists v, v ∈ g.pending ∧ v.nodeId = p)
    (howners : forall doomed, g.KeysAt positions doomed ->
      exists owners, g.ownersWithout doomed = .ok owners ∧ g.OwnersLeft doomed owners)
    (hloop : forall doomed, g.KeysAt positions doomed -> forall s u, ¬g.Via doomed s u u) :
    exists doomed g', g.deleteNodes positions = .ok g' ∧ g.KeysAt positions doomed ∧
      g.Deleted doomed g' := by
  rcases mapM_deletableAt_ok hg.numbered hpositions with ⟨doomed, hmap, hkeysAt⟩
  by_cases hempty : positions.isEmpty = true
  · refine ⟨doomed, g, by rw [deleteNodes, if_pos hempty], hkeysAt,
      deleted_of_forall_not_mem hg ?_⟩
    intro k hk
    rcases (hkeysAt k).mp hk with ⟨v, _, hin, _⟩
    have hnil : positions.toList = [] := List.isEmpty_iff.mp hempty
    rw [OrderedSet.mem_def, hnil] at hin
    cases hin
  · rcases howners doomed hkeysAt with ⟨owners, hrun, hleft⟩
    let g0 : Graph ρ := { g with owners }
    have hdoomed : forall k, k ∈ doomed -> k ∈ g0.keys :=
      fun k hk => pendingKeys_subset (g := g) (hkeysAt.pending hk)
    have hloop0 : forall s u, ¬g0.Via doomed s u u := by
      intro s u hvia
      exact hloop doomed hkeysAt s u (Via.of_enters (g := g0) (fun _ _ h => h) hvia)
    rcases isolateAll_ok (g := g0) hg.wired.mirrored hdoomed hloop0 with ⟨g1, hg1, h1⟩
    refine ⟨doomed, (g1.without doomed).renumber, ?_, hkeysAt,
      h1.deleted hg (fun k hk => hkeysAt.pending hk) hleft⟩
    rw [deleteNodes, if_neg hempty, hmap, ok_bind, hrun, ok_bind]
    show (doomed.foldlM isolate g0 >>= _) = _
    rw [hg1]
    rfl

theorem deleteNodes_ok {g : Graph ρ} (hg : g.Sound) (hf : g.Forward)
    {positions : OrderedSet Nat}
    (hpositions : forall p, p ∈ positions -> exists v, v ∈ g.pending ∧ v.nodeId = p) :
    exists doomed g', g.deleteNodes positions = .ok g' ∧ g.KeysAt positions doomed ∧
      g.Deleted doomed g' :=
  deleteNodes_ok_of_owners hg hpositions (fun doomed _ => ownersWithout_ok hg hf doomed)
    (fun doomed _ => Via.irrefl hg.keyed hf doomed)

/-!
## What a deletion keeps
-/

theorem WriterChain.via {g : Graph ρ}
    (hsourced : forall v s, v ∈ g.pendingKeys -> g.ReadsAt v s ∨ g.WritesAt v s ->
      exists u, g.Enters u v s ∧ g.WritesAt u s) {s : State} {doomed : List NodeKey}
    (hdoomed : forall k, k ∈ doomed -> k ∈ g.pendingKeys) {k w : NodeKey}
    (h : WriterChain g s doomed k w) (hk : k ∈ g.pendingKeys)
    (htouch : g.ReadsAt k s ∨ g.WritesAt k s) : g.Via doomed s w k := by
  induction h with
  | root none =>
      rcases hsourced _ s hk htouch with ⟨u, hu, hw⟩
      exact absurd hw (none u hu)
  | stop source out => exact .edge source.enters
  | pass source skipped rest ih =>
      exact .step (ih (hdoomed _ skipped) (Or.inr source.writes)) skipped source.enters

namespace Deleted

variable {g g' : Graph ρ} {doomed : List NodeKey}

theorem map_pending {β : Type} {f : Vertex ρ -> β} (hf : forall v : Vertex ρ, f v.core = f v)
    (h : g.Deleted doomed g') :
    g'.pending.map f = (g.pending.filter fun v => decide (v.key ∉ doomed)).map f := by
  have hmap := congrArg (List.map f) h.pending
  have hcomp : f ∘ Vertex.core = f := funext hf
  rw [List.map_map, List.map_map, hcomp] at hmap
  exact hmap

theorem mem_pendingKeys (h : g.Deleted doomed g') {k : NodeKey} :
    k ∈ g'.pendingKeys ↔ k ∈ g.pendingKeys ∧ k ∉ doomed := by
  have hpending : g'.pendingKeys = (g.without doomed).pendingKeys :=
    h.map_pending fun _ => rfl
  rw [hpending, mem_pendingKeys_without]

theorem initial_key (h : g.Deleted doomed g') : g'.initial.key = g.initial.key := by
  have hhead := congrArg List.head? h.executed
  have hcore : g'.initial.core = g.initial.core := Option.some.inj hhead
  have hkey := congrArg Vertex.key hcore
  exact hkey

theorem writesAt (h : g.Deleted doomed g') {k : NodeKey} {s : State} (hk : k ∉ doomed)
    (hw : g.WritesAt k s) : g'.WritesAt k s :=
  hw.of_core (h.find? k hk)

theorem forward (h : g.Deleted doomed g') (hg : g.Keyed) (hf : g.Forward) : g'.Forward := by
  intro u v s huv
  rcases (h.enters_iff u v s).mp huv with ⟨hu, hv, hvia⟩
  rw [h.keys]
  exact (hvia.comesBefore hg hf).filter (decide_eq_true hu) (decide_eq_true hv)

theorem aged (h : g.Deleted doomed g') (hg : g.Aged) : g'.Aged := by
  have hseq : g'.pending.map (·.seq)
      = (g.pending.filter fun v => decide (v.key ∉ doomed)).map (·.seq) :=
    h.map_pending fun _ => rfl
  constructor
  · rw [hseq]
    exact hg.increasing.sublist (List.Sublist.map _ List.filter_sublist)
  · intro v hv
    have hmem : v.seq ∈ g'.pending.map (·.seq) := List.mem_map_of_mem hv
    rw [hseq] at hmem
    rcases List.mem_map.mp hmem with ⟨w, hw, heq⟩
    rw [h.nextSeq, ← heq]
    exact hg.seq_lt w (List.mem_filter.mp hw).left

theorem owner_writes (h : g.Deleted doomed g') (hg : g.Sound) (hinitial : g.initial.key ∉ doomed)
    (howner : forall s k, g.owners.get? s = some k -> g.WritesAt k s) (s : State) (k : NodeKey)
    (hk : g'.owners.get? s = some k) : g'.WritesAt k s := by
  rcases h.owners.cases hg hinitial hk with ⟨hnot, ho | hw⟩
  · exact h.writesAt hnot (howner s k ho)
  · exact h.writesAt hnot hw

/-- What came to a node that is left through deleted nodes now comes to it directly. -/
theorem sourced (h : g.Deleted doomed g') (hg : g.Sound) (hf : g.Forward)
    (hdoomed : forall k, k ∈ doomed -> k ∈ g.pendingKeys)
    (hsourced : forall v s, v ∈ g.pendingKeys -> g.ReadsAt v s ∨ g.WritesAt v s ->
      exists u, g.Enters u v s ∧ g.WritesAt u s) (v : NodeKey) (s : State)
    (hv : v ∈ g'.pendingKeys) (htouch : g'.ReadsAt v s ∨ g'.WritesAt v s) :
    exists u, g'.Enters u v s ∧ g'.WritesAt u s := by
  have hinitial : g.initial.key ∉ doomed :=
    fun hin => hg.keyed.initial_not_pending (hdoomed _ hin)
  rcases h.mem_pendingKeys.mp hv with ⟨hpending, hnot⟩
  have htouch' : g.ReadsAt v s ∨ g.WritesAt v s := by
    rcases htouch with hr | hw
    · exact Or.inl (hr.of_core (h.find? v hnot).symm)
    · exact Or.inr (hw.of_core (h.find? v hnot).symm)
  rcases priorWriter_ok hg hf (pendingKeys_subset hpending) s doomed with ⟨w, _, hchain⟩
  have hout := hchain.not_mem_skip hinitial
  exact ⟨w, (h.enters_iff _ _ s).mpr ⟨hout, hnot, hchain.via hsourced hdoomed hpending htouch'⟩,
    h.writesAt hout (hchain.writes hg)⟩

theorem consistent (h : g.Deleted doomed g')
    (hdoomed : forall k, k ∈ doomed -> k ∈ g.pendingKeys) (hg : g.Consistent) :
    g'.Consistent := by
  have hinitial : g.initial.key ∉ doomed :=
    fun hin => hg.sound.keyed.initial_not_pending (hdoomed _ hin)
  refine ⟨h.sound, h.forward hg.sound.keyed hg.forward, h.aged hg.aged,
    h.owner_writes hg.sound hinitial hg.owner_writes, ?_,
    h.sourced hg.sound hg.forward hdoomed hg.sourced⟩
  intro s k hk
  rcases (h.mem_readers s k).mp hk with ⟨hread, hnot⟩
  rw [ownerOrInitial, h.initial_key]
  have hlinked := hg.reader_linked s k hread
  rw [ownerOrInitial] at hlinked
  cases ho : g.owners.get? s with
  | none =>
      rw [ho] at hlinked
      rw [h.owners.none s ho]
      rcases hlinked with heq | henters
      · exact Or.inl heq
      · exact Or.inr ((h.enters_iff _ _ s).mpr ⟨hinitial, hnot, .edge henters⟩)
  | some o =>
      rw [ho] at hlinked
      by_cases hin : o ∈ doomed
      · rcases h.owners.fallen s o ho hin with ⟨w, hw, hchain⟩
        rw [hw]
        rcases hlinked with heq | henters
        · exact absurd (heq ▸ hin) hnot
        · -- The reader read from the deleted owner, so a way leads from the new one.
          have hvia := hchain.via hg.sourced hdoomed (hdoomed o hin)
            (Or.inr (hg.owner_writes s o ho))
          exact Or.inr ((h.enters_iff _ _ s).mpr
            ⟨hchain.not_mem_skip hinitial, hnot, .step hvia hin henters⟩)
      · rw [h.owners.kept s o ho hin]
        rcases hlinked with heq | henters
        · exact Or.inl heq
        · exact Or.inr ((h.enters_iff _ _ s).mpr ⟨hin, hnot, .edge henters⟩)

end Deleted

end Graph
end LaunchGraph
