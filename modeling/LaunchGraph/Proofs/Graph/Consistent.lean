import LaunchGraph.Proofs.Graph.Insert
import LaunchGraph.Proofs.Sequence

/-!
# Consistent and built graphs

A graph is built if its edges, owners and readers are those that its sequence
calls for.  A consistent graph promises less, and keeps its promise when pending
nodes are deleted: edges lead forward, owners write what they own, readers are
connected with the owner, and every node has an edge from a writer of each state
that it touches.

Both are kept by an insertion, and every built graph is consistent.
-/

namespace LaunchGraph

def Vertex.entry {ρ : Type} (v : Vertex ρ) : Entry := ⟨v.key, v.task⟩

namespace Graph

variable {ρ : Type}

def entries (g : Graph ρ) : List Entry := g.pending.map Vertex.entry

/-- Pending nodes are in order of their age, and younger ones may come. -/
structure Aged (g : Graph ρ) : Prop where
  increasing : (g.pending.map (·.seq)).Pairwise (· < ·)
  seq_lt : forall v, v ∈ g.pending -> v.seq < g.nextSeq

structure Consistent (g : Graph ρ) : Prop where
  sound : g.Sound
  forward : g.Forward
  aged : g.Aged
  owner_writes : forall s k, g.owners.get? s = some k -> g.WritesAt k s
  reader_linked : forall s k, k ∈ g.readers.get s ->
    k = g.ownerOrInitial s ∨ g.Enters (g.ownerOrInitial s) k s
  sourced : forall v s, v ∈ g.pendingKeys -> g.ReadsAt v s ∨ g.WritesAt v s ->
    exists u, g.Enters u v s ∧ g.WritesAt u s

/-- The graph has exactly the edges, owners and readers that its sequence calls
for, where `origin` owned the states before its pending nodes came. -/
structure Built (g : Graph ρ) (origin : State -> NodeKey) : Prop where
  sound : g.Sound
  aged : g.Aged
  enters_iff : forall u v s, g.Enters u v s ↔ CallsFor origin g.entries u v s
  owner_nearest : forall s, NearestWriter origin s g.entries (g.ownerOrInitial s)
  mem_readers : forall s k, k ∈ g.readers.get s ↔ OpenReader s g.entries k
  origin_executed : forall s, origin s ∈ g.executed.map (·.key)
  origin_writes : forall s, g.WritesAt (origin s) s

/-!
## Entries
-/

theorem entries_congr {g g' : Graph ρ} (h : g'.skeleton = g.skeleton) :
    g'.entries = g.entries :=
  map_congr_of_bare (fun _ => rfl) (barePending_congr h)

theorem map_key_entries (g : Graph ρ) : g.entries.map (·.key) = g.pendingKeys := by
  rw [entries, List.map_map]
  rfl

theorem entries_withArrival (g : Graph ρ) (n : Node ρ) :
    (g.withArrival n).entries = g.entries ++ [⟨g.freshKey, n.task⟩] := by
  show (g.pending ++ [g.arrivalVertex n]).map _ = _
  rw [List.map_append]
  rfl

theorem exists_entry {g : Graph ρ} {k : NodeKey} (hk : k ∈ g.pendingKeys) :
    exists a e b, g.entries = a ++ e :: b ∧ e.key = k := by
  rw [← map_key_entries] at hk
  rcases List.mem_map.mp hk with ⟨e, he, rfl⟩
  rcases List.append_of_mem he with ⟨a, b, hsplit⟩
  exact ⟨a, e, b, hsplit, rfl⟩

theorem Sound.pending_writesAt {g : Graph ρ} (h : g.Sound) {v : Vertex ρ} (hv : v ∈ g.pending)
    {s : State} : g.WritesAt v.key s ↔ v.task.writes s = true := by
  rw [writesAt_iff h.keyed (mem_vertices_of_pending hv), h.numbered.pending_writes hv]

theorem Sound.entry_writes {g : Graph ρ} (h : g.Sound) {e : Entry} (he : e ∈ g.entries)
    {s : State} : e.writes s = true ↔ g.WritesAt e.key s := by
  rcases List.mem_map.mp he with ⟨v, hv, rfl⟩
  exact (h.pending_writesAt hv).symm

theorem Sound.entry_reads {g : Graph ρ} (h : g.Sound) {e : Entry} (he : e ∈ g.entries)
    {s : State} : e.reads s = true ↔ g.ReadsAt e.key s := by
  rcases List.mem_map.mp he with ⟨v, hv, rfl⟩
  show v.task.reads s = true ↔ g.ReadsAt v.key s
  rw [readsAt_iff h.keyed (mem_vertices_of_pending hv)]
  exact Iff.rfl

theorem Aged.congr {g g' : Graph ρ} (h : g'.skeleton = g.skeleton) (hg : g.Aged) :
    g'.Aged := by
  have hpending := barePending_congr h
  have hseq := congrArg Graph.nextSeq h
  have hseq' : g'.nextSeq = g.nextSeq := hseq
  constructor
  · rw [map_congr_of_bare (fun v => v.seq_bare) hpending]
    exact hg.increasing
  · rw [hseq']
    exact forall_mem_of_bare (fun v => Iff.rfl) hpending hg.seq_lt

theorem Aged.withArrival {g : Graph ρ} (h : g.Aged) (n : Node ρ) :
    (g.withArrival n).Aged := by
  constructor
  · show ((g.pending ++ [g.arrivalVertex n]).map (·.seq)).Pairwise (· < ·)
    rw [List.map_append, List.pairwise_append]
    refine ⟨h.increasing, List.pairwise_singleton .., ?_⟩
    intro a ha b hb
    rcases List.mem_map.mp ha with ⟨v, hv, rfl⟩
    rw [List.map_singleton, List.mem_singleton] at hb
    subst hb
    exact h.seq_lt v hv
  · intro v hv
    have hv' : v ∈ g.pending ++ [g.arrivalVertex n] := hv
    show v.seq < g.nextSeq + 1
    rcases List.mem_append.mp hv' with hv' | hv'
    · exact Nat.lt_succ_of_lt (h.seq_lt v hv')
    · rw [List.mem_singleton.mp hv']
      exact Nat.lt_succ_self _

/-!
## Insertions
-/

theorem writesAt_withArrival_iff {g : Graph ρ} (h : g.Keyed) {n : Node ρ} {k : NodeKey}
    {s : State} :
    (g.withArrival n).WritesAt k s ↔
      (k = g.freshKey ∧ n.task.writes s = true) ∨ g.WritesAt k s := by
  by_cases hk : k = g.freshKey
  · subst hk
    have hold : ¬g.WritesAt g.freshKey s := fun hw => h.freshKey_not_mem hw.mem
    rw [WritesAt, find?_withArrival_self h]
    simp only [Option.some.injEq, exists_eq_left', true_and, hold, or_false]
    exact Iff.rfl
  · rw [WritesAt, find?_withArrival_of_ne hk]
    simp [hk, WritesAt]

theorem readsAt_withArrival_iff {g : Graph ρ} (h : g.Keyed) {n : Node ρ} {k : NodeKey}
    {s : State} :
    (g.withArrival n).ReadsAt k s ↔
      (k = g.freshKey ∧ n.task.reads s = true) ∨ g.ReadsAt k s := by
  by_cases hk : k = g.freshKey
  · subst hk
    have hold : ¬g.ReadsAt g.freshKey s := by
      rintro ⟨v, hv, _⟩
      exact h.freshKey_not_mem (mem_keys_of_find? hv)
    rw [ReadsAt, find?_withArrival_self h]
    simp only [Option.some.injEq, exists_eq_left', true_and, hold, or_false]
    exact Iff.rfl
  · rw [ReadsAt, find?_withArrival_of_ne hk]
    simp [hk, ReadsAt]

namespace Inserted

theorem keys {g g' : Graph ρ} {n : Node ρ} (h : g.Inserted n g') :
    g'.keys = g.keys ++ [g.freshKey] :=
  (keys_congr h.skeleton).trans (g.keys_withArrival n)

theorem pendingKeys {g g' : Graph ρ} {n : Node ρ} (h : g.Inserted n g') :
    g'.pendingKeys = g.pendingKeys ++ [g.freshKey] :=
  (pendingKeys_congr h.skeleton).trans (g.pendingKeys_withArrival n)

theorem entries {g g' : Graph ρ} {n : Node ρ} (h : g.Inserted n g') :
    g'.entries = g.entries ++ [⟨g.freshKey, n.task⟩] :=
  (entries_congr h.skeleton).trans (g.entries_withArrival n)

theorem bareExecuted {g g' : Graph ρ} {n : Node ρ} (h : g.Inserted n g') :
    g'.executed.map Vertex.bare = g.executed.map Vertex.bare := by
  have hexecuted := bareExecuted_congr (g := g.withArrival n) h.skeleton
  exact hexecuted

theorem initial_key {g g' : Graph ρ} {n : Node ρ} (h : g.Inserted n g') :
    g'.initial.key = g.initial.key := by
  have hinitial := initial_key_congr (g := g.withArrival n) h.skeleton
  exact hinitial

theorem writesAt_iff {g g' : Graph ρ} {n : Node ρ} (h : g.Inserted n g') (hg : g.Keyed)
    {k : NodeKey} {s : State} :
    g'.WritesAt k s ↔ (k = g.freshKey ∧ n.task.writes s = true) ∨ g.WritesAt k s := by
  rw [← writesAt_withArrival_iff hg]
  exact ⟨fun hw => hw.congr h.skeleton.symm, fun hw => hw.congr h.skeleton⟩

theorem readsAt_iff {g g' : Graph ρ} {n : Node ρ} (h : g.Inserted n g') (hg : g.Keyed)
    {k : NodeKey} {s : State} :
    g'.ReadsAt k s ↔ (k = g.freshKey ∧ n.task.reads s = true) ∨ g.ReadsAt k s := by
  rw [← readsAt_withArrival_iff hg]
  exact ⟨fun hw => hw.congr h.skeleton.symm, fun hw => hw.congr h.skeleton⟩

theorem ownerOrInitial {g g' : Graph ρ} {n : Node ρ} (h : g.Inserted n g') (s : State) :
    g'.ownerOrInitial s = if n.task.writes s = true then g.freshKey else g.ownerOrInitial s := by
  rw [Graph.ownerOrInitial, h.owners_get, h.initial_key, Graph.ownerOrInitial]
  split
  · rfl
  · rfl

theorem sound {g g' : Graph ρ} {n : Node ρ} (h : g.Inserted n g') (hg : g.Sound) :
    g'.Sound := by
  refine ⟨(hg.keyed.withArrival n).congr h.skeleton,
    (hg.numbered.withArrival n).congr h.skeleton, ⟨?_, ?_⟩, ⟨?_, ?_, ?_⟩⟩
  · intro u v s
    rw [h.leaves_iff, h.enters_iff, hg.wired.mirrored]
  · intro u v s huv
    rw [h.pendingKeys, List.mem_append, List.mem_singleton]
    rcases (h.enters_iff u v s).mp huv with hold | ⟨hv, _⟩
    · exact Or.inl (hg.wired.target_pending u v s hold)
    · exact Or.inr hv
  · intro s k hk
    rw [h.owners_get] at hk
    rw [h.keys, List.mem_append, List.mem_singleton]
    split at hk
    · cases hk
      exact Or.inr rfl
    · exact Or.inl (hg.owned.owner_mem s k hk)
  · intro s k hk hnot
    rw [h.owners_get] at hk
    rw [h.pendingKeys, List.mem_append, not_or, List.mem_singleton] at hnot
    split at hk
    · cases hk
      exact absurd rfl hnot.right
    · exact (h.writesAt_iff hg.keyed).mpr (Or.inr (hg.owned.executed_writes s k hk hnot.left))
  · intro s k hk
    rw [h.pendingKeys, List.mem_append, List.mem_singleton]
    rcases (h.mem_readers s k).mp hk with ⟨_, hkey⟩ | ⟨_, hold⟩
    · exact Or.inr hkey
    · exact Or.inl (hg.owned.readers_pending s k hold)

theorem aged {g g' : Graph ρ} {n : Node ρ} (h : g.Inserted n g') (hg : g.Aged) : g'.Aged :=
  (hg.withArrival n).congr h.skeleton

theorem awaits_mem {g : Graph ρ} (hg : g.Sound) {t : Task} {s : State} {u : NodeKey}
    (h : g.Awaits t s u) : u ∈ g.keys := by
  rcases h with ⟨_, rfl⟩ | ⟨_, hu⟩
  · exact hg.owned.ownerOrInitial_mem s
  · exact pendingKeys_subset (hg.owned.readers_pending s u hu)

theorem forward {g g' : Graph ρ} {n : Node ρ} (h : g.Inserted n g') (hg : g.Sound)
    (hf : g.Forward) : g'.Forward := by
  intro u v s huv
  rw [h.keys, ComesBefore.append_iff]
  rcases (h.enters_iff u v s).mp huv with hold | ⟨rfl, hawaits⟩
  · exact Or.inl (hf u v s hold)
  · exact Or.inr (Or.inl ⟨awaits_mem hg hawaits, by simp⟩)

theorem consistent {g g' : Graph ρ} {n : Node ρ} (h : g.Inserted n g') (hg : g.Consistent) :
    g'.Consistent := by
  have howner : forall s, g.WritesAt (g.ownerOrInitial s) s :=
    fun s => ownerOrInitial_writes hg.sound (hg.owner_writes s)
  refine ⟨h.sound hg.sound, h.forward hg.sound hg.forward, h.aged hg.aged, ?_, ?_, ?_⟩
  · intro s k hk
    rw [h.writesAt_iff hg.sound.keyed]
    rw [h.owners_get] at hk
    split at hk
    · next hs =>
        cases hk
        exact Or.inl ⟨rfl, hs⟩
    · exact Or.inr (hg.owner_writes s k hk)
  · intro s k hk
    rw [h.ownerOrInitial, h.enters_iff]
    rcases (h.mem_readers s k).mp hk with ⟨hreads, rfl⟩ | ⟨hwrites, hold⟩
    · -- The new node owns what it writes, and reads anything else from the owner.
      split
      · exact Or.inl rfl
      · exact Or.inr (Or.inr ⟨rfl, Or.inl ⟨Or.inl hreads, rfl⟩⟩)
    · rw [if_neg (by simp [hwrites])]
      rcases hg.reader_linked s k hold with heq | hlink
      · exact Or.inl heq
      · exact Or.inr (Or.inl hlink)
  · intro v s hv htouch
    rw [h.pendingKeys, List.mem_append, List.mem_singleton] at hv
    rw [h.readsAt_iff hg.sound.keyed, h.writesAt_iff hg.sound.keyed] at htouch
    have hfresh := hg.sound.keyed.freshKey_not_mem
    rcases hv with hv | rfl
    · have hne : v ≠ g.freshKey := by
        rintro rfl
        exact hfresh (pendingKeys_subset hv)
      simp only [hne, false_and, false_or] at htouch
      rcases hg.sourced v s hv htouch with ⟨u, hu, hw⟩
      exact ⟨u, (h.enters_iff u v s).mpr (Or.inl hu),
        (h.writesAt_iff hg.sound.keyed).mpr (Or.inr hw)⟩
    · have hnoread : ¬g.ReadsAt g.freshKey s := by
        rintro ⟨v, hv, _⟩
        exact hfresh (mem_keys_of_find? hv)
      have hnowrite : ¬g.WritesAt g.freshKey s := fun hw => hfresh hw.mem
      simp only [true_and, hnoread, hnowrite, or_false] at htouch
      exact ⟨g.ownerOrInitial s,
        (h.enters_iff _ _ s).mpr (Or.inr ⟨rfl, Or.inl ⟨htouch, rfl⟩⟩),
        (h.writesAt_iff hg.sound.keyed).mpr (Or.inr (howner s))⟩

/-- In a built graph the tables say what the next entry has to wait for. -/
theorem awaits_iff {g : Graph ρ} {origin : State -> NodeKey} (hg : g.Built origin) {t : Task}
    {k : NodeKey} {s : State} {u : NodeKey} :
    g.Awaits t s u ↔ WaitsFor origin g.entries ⟨k, t⟩ s u := by
  rw [Awaits, WaitsFor, hg.mem_readers]
  constructor
  · rintro (⟨htouch, rfl⟩ | hread)
    · exact Or.inl ⟨htouch, hg.owner_nearest s⟩
    · exact Or.inr hread
  · rintro (⟨htouch, hnear⟩ | hread)
    · exact Or.inl ⟨htouch, hnear.unique (hg.owner_nearest s)⟩
    · exact Or.inr hread

theorem built {g g' : Graph ρ} {n : Node ρ} {origin : State -> NodeKey}
    (h : g.Inserted n g') (hg : g.Built origin) : g'.Built origin := by
  refine ⟨h.sound hg.sound, h.aged hg.aged, ?_, ?_, ?_, ?_, ?_⟩
  · intro u v s
    rw [h.enters_iff, h.entries, callsFor_append_singleton, hg.enters_iff, awaits_iff hg]
  · intro s
    rw [h.entries, nearestWriter_append_singleton, h.ownerOrInitial]
    show (n.task.writes s = true ∧ _) ∨ (n.task.writes s = false ∧ _)
    cases hs : n.task.writes s with
    | true => exact Or.inl ⟨rfl, by simp⟩
    | false => exact Or.inr ⟨rfl, by simpa using hg.owner_nearest s⟩
  · intro s k
    rw [h.mem_readers, h.entries, openReader_append_singleton, hg.mem_readers]
    exact Iff.rfl
  · intro s
    rw [map_congr_of_bare (fun _ => rfl) h.bareExecuted]
    exact hg.origin_executed s
  · intro s
    exact (h.writesAt_iff hg.sound.keyed).mpr (Or.inr (hg.origin_writes s))

end Inserted

end Graph
end LaunchGraph
