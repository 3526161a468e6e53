import LaunchGraph.Graph.Insert
import LaunchGraph.Proofs.Graph.Sound

/-!
# What an insertion does

Inserting a node puts one vertex at the end of the sequence, adds the edges that
the owner and reader tables ask for, and moves the tables on.  The whole effect
is stated once, in `Inserted`; everything else about insertions follows from
it.
-/

namespace LaunchGraph

theorem Task.reads_iff {t : Task} {s : State} : t.reads s = true ↔ s ∈ t.inputs.toList := by
  rw [Task.reads, decide_eq_true_iff]
  exact Iff.rfl

theorem Task.writes_iff {t : Task} {s : State} : t.writes s = true ↔ s ∈ t.outputs.toList := by
  rw [Task.writes, decide_eq_true_iff]
  exact Iff.rfl

namespace Graph

variable {ρ : Type}

theorem ownerOrInitial_congr {g g' : Graph ρ} (h : g'.frame = g.frame) (s : State) :
    g'.ownerOrInitial s = g.ownerOrInitial s := by
  have hinitial := congrArg (fun g => g.initial.key) h
  have hinitial' : g'.initial.key = g.initial.key := hinitial
  rw [ownerOrInitial, ownerOrInitial, owners_congr h, hinitial']

/-!
## The new vertex
-/

def freshKey (g : Graph ρ) : NodeKey := ⟨g.nextStamp⟩

def arrivalVertex (g : Graph ρ) (n : Node ρ) : Vertex ρ :=
  ⟨({ n.disconnected with isInitial := false, seq := g.nextSeq } : Node ρ).renumbered g.size
    (some g.pendingCount), g.freshKey⟩

def withArrival (g : Graph ρ) (n : Node ρ) : Graph ρ :=
  { g with
    pending := g.pending ++ [g.arrivalVertex n]
    nextSeq := g.nextSeq + 1
    nextStamp := g.nextStamp + 1 }

theorem vertices_withArrival (g : Graph ρ) (n : Node ρ) :
    (g.withArrival n).vertices = g.vertices ++ [g.arrivalVertex n] := by
  show g.executed ++ (g.pending ++ [g.arrivalVertex n]) = _
  rw [← List.append_assoc]
  rfl

theorem keys_withArrival (g : Graph ρ) (n : Node ρ) :
    (g.withArrival n).keys = g.keys ++ [g.freshKey] := by
  rw [keys, vertices_withArrival, List.map_append]
  rfl

theorem pendingKeys_withArrival (g : Graph ρ) (n : Node ρ) :
    (g.withArrival n).pendingKeys = g.pendingKeys ++ [g.freshKey] := by
  show (g.pending ++ [g.arrivalVertex n]).map (·.key) = _
  rw [List.map_append]
  rfl

theorem Keyed.freshKey_not_mem {g : Graph ρ} (h : g.Keyed) : g.freshKey ∉ g.keys := by
  intro hmem
  exact Nat.lt_irrefl _ (h.stamp_lt g.freshKey hmem)

theorem Keyed.withArrival {g : Graph ρ} (h : g.Keyed) (n : Node ρ) :
    (g.withArrival n).Keyed := by
  constructor
  · rw [keys_withArrival, List.nodup_append]
    refine ⟨h.nodup, by simp, ?_⟩
    intro a ha b hb
    rw [List.mem_singleton] at hb
    subst hb
    intro he
    subst he
    exact h.freshKey_not_mem ha
  · intro k hk
    rw [keys_withArrival] at hk
    show k.stamp < g.nextStamp + 1
    rcases List.mem_append.mp hk with hk | hk
    · exact Nat.lt_succ_of_lt (h.stamp_lt k hk)
    · rw [List.mem_singleton.mp hk]
      exact Nat.lt_succ_self _

theorem Numbered.withArrival {g : Graph ρ} (h : g.Numbered) (n : Node ρ) :
    (g.withArrival n).Numbered := by
  constructor
  · rw [size, vertices_withArrival, List.map_append, h.nodeIds, List.length_append,
      List.length_singleton, List.range_succ]
    rfl
  · exact h.executedIds
  · show (g.pending ++ [g.arrivalVertex n]).map (·.pendingId)
      = (List.range (g.pending ++ [g.arrivalVertex n]).length).map some
    rw [List.map_append, h.pendingIds, List.length_append, List.length_singleton,
      List.range_succ, List.map_append]
    rfl
  · exact h.initial
  · intro v hv
    have hv' : v ∈ g.history ++ (g.pending ++ [g.arrivalVertex n]) := hv
    rw [← List.append_assoc] at hv'
    rcases List.mem_append.mp hv' with hv' | hv'
    · exact h.later v hv'
    · rw [List.mem_singleton.mp hv']
      rfl

theorem find?_withArrival_of_ne {g : Graph ρ} {n : Node ρ} {k : NodeKey}
    (hk : k ≠ g.freshKey) : (g.withArrival n).find? k = g.find? k := by
  rw [find?, vertices_withArrival, List.find?_append, find?]
  have hnone : [g.arrivalVertex n].find? (·.key == k) = none := by
    rw [List.find?_singleton]
    have hkey : (g.arrivalVertex n).key ≠ k := Ne.symm hk
    simp [hkey]
  rw [hnone, Option.or_none]

theorem find?_withArrival_self {g : Graph ρ} (h : g.Keyed) (n : Node ρ) :
    (g.withArrival n).find? g.freshKey = some (g.arrivalVertex n) := by
  have hmem : g.arrivalVertex n ∈ (g.withArrival n).vertices := by
    rw [vertices_withArrival]
    simp
  exact find?_of_mem (h.withArrival n).nodup hmem

theorem enters_withArrival {g : Graph ρ} (h : g.Keyed) (n : Node ρ) (u v : NodeKey)
    (s : State) : (g.withArrival n).Enters u v s ↔ g.Enters u v s := by
  by_cases hv : v = g.freshKey
  · subst hv
    have hold : ¬g.Enters u g.freshKey s := fun he => h.freshKey_not_mem he.target_mem
    simp only [hold, iff_false]
    rw [Enters, inputsOf_of_find? (find?_withArrival_self h n)]
    exact List.not_mem_nil
  · rw [Enters, Enters, inputsOf, inputsOf, find?_withArrival_of_ne hv]

theorem leaves_withArrival {g : Graph ρ} (h : g.Keyed) (n : Node ρ) (u v : NodeKey)
    (s : State) : (g.withArrival n).Leaves u v s ↔ g.Leaves u v s := by
  by_cases hu : u = g.freshKey
  · subst hu
    have hold : ¬g.Leaves g.freshKey v s := fun he => h.freshKey_not_mem he.source_mem
    simp only [hold, iff_false]
    rw [Leaves, outputsOf_of_find? (find?_withArrival_self h n)]
    exact List.not_mem_nil
  · rw [Leaves, Leaves, outputsOf, outputsOf, find?_withArrival_of_ne hu]

theorem writesAt_withArrival {g : Graph ρ} {n : Node ρ} {k : NodeKey} {s : State}
    (h : g.Keyed) (hk : g.WritesAt k s) : (g.withArrival n).WritesAt k s := by
  have hne : k ≠ g.freshKey := by
    intro he
    subst he
    exact h.freshKey_not_mem hk.mem
  rcases hk with ⟨v, hv, hs⟩
  exact ⟨v, by rw [find?_withArrival_of_ne hne, hv], hs⟩

/-!
## The edges of the new vertex
-/

/-- The nodes that a launch of a task has to wait for on a state. -/
def Awaits (g : Graph ρ) (t : Task) (s : State) (u : NodeKey) : Prop :=
  ((t.reads s = true ∨ t.writes s = true) ∧ u = g.ownerOrInitial s) ∨
  (t.writes s = true ∧ u ∈ g.readers.get s)

structure Inserted (g : Graph ρ) (n : Node ρ) (g' : Graph ρ) : Prop where
  skeleton : g'.skeleton = (g.withArrival n).skeleton
  leaves_iff : forall u v s, g'.Leaves u v s ↔
    g.Leaves u v s ∨ (v = g.freshKey ∧ g.Awaits n.task s u)
  enters_iff : forall u v s, g'.Enters u v s ↔
    g.Enters u v s ∨ (v = g.freshKey ∧ g.Awaits n.task s u)
  owners_get : forall s, g'.owners.get? s =
    if n.task.writes s = true then some g.freshKey else g.owners.get? s
  mem_readers : forall s k, k ∈ g'.readers.get s ↔
    (n.task.reads s = true ∧ k = g.freshKey) ∨
      (n.task.writes s = false ∧ k ∈ g.readers.get s)

theorem connectReads_rewired {g : Graph ρ} {key : NodeKey} (hkey : key ∈ g.keys)
    (howner : forall s, g.ownerOrInitial s ∈ g.keys ∧ g.ownerOrInitial s ≠ key)
    (states : List State) :
    exists g', states.foldlM (fun g s => g.connectRead key s) g = .ok g' ∧
      g.Rewired g'
        (fun u v t => g.Leaves u v t ∨ (t ∈ states ∧ v = key ∧ u = g.ownerOrInitial t))
        (fun u v t => g.Enters u v t ∨ (t ∈ states ∧ v = key ∧ u = g.ownerOrInitial t)) := by
  refine foldlM_ok_of_step
    (fun done g' => g.Rewired g'
      (fun u v t => g.Leaves u v t ∨ (t ∈ done ∧ v = key ∧ u = g.ownerOrInitial t))
      (fun u v t => g.Enters u v t ∨ (t ∈ done ∧ v = key ∧ u = g.ownerOrInitial t))) ?_ ?_
  · intro done s rest g1 _ h1
    have ho : g1.ownerOrInitial s = g.ownerOrInitial s := ownerOrInitial_congr h1.frame s
    have hne := (howner s).right
    have hsource : g.ownerOrInitial s ∈ g1.keys := by
      rw [h1.keys]
      exact (howner s).left
    have htarget : key ∈ g1.keys := by
      rw [h1.keys]
      exact hkey
    rcases insertEdge_rewired hsource htarget s with ⟨g2, hg2, h2⟩
    refine ⟨g2, ?_, h2.frame.trans h1.frame, ?_, ?_⟩
    · rw [connectRead, ho]
      exact hg2
    · intro u v t
      rw [h2.leaves_iff, h1.leaves_iff, List.mem_append, List.mem_singleton]
      grind
    · intro u v t
      rw [h2.enters_iff, h1.enters_iff, List.mem_append, List.mem_singleton]
      grind
  · refine ⟨rfl, ?_, ?_⟩
    · intro u v t
      simp
    · intro u v t
      simp

/-- The graph `g'` is `g` with the node under `key` connected as a writer of the
states in `done`. -/
structure WritesConnected (g : Graph ρ) (key : NodeKey) (done : List State) (g' : Graph ρ) :
    Prop where
  skeleton : g'.skeleton = g.skeleton
  leaves_iff : forall u v t, g'.Leaves u v t ↔
    g.Leaves u v t ∨
      (t ∈ done ∧ v = key ∧ (u = g.ownerOrInitial t ∨ u ∈ g.readers.get t))
  enters_iff : forall u v t, g'.Enters u v t ↔
    g.Enters u v t ∨
      (t ∈ done ∧ v = key ∧ (u = g.ownerOrInitial t ∨ u ∈ g.readers.get t))
  owners_get : forall t, g'.owners.get? t = if t ∈ done then some key else g.owners.get? t
  mem_readers : forall t k, k ∈ g'.readers.get t ↔ t ∉ done ∧ k ∈ g.readers.get t

theorem WritesConnected.nil (g : Graph ρ) (key : NodeKey) : g.WritesConnected key [] g := by
  constructor
  · rfl
  · intro u v t
    simp
  · intro u v t
    simp
  · intro t
    simp
  · intro t k
    simp

theorem initial_key_congr {g g' : Graph ρ} (h : g'.skeleton = g.skeleton) :
    g'.initial.key = g.initial.key := by
  have hinitial := congrArg (fun g => g.initial.key) h
  exact hinitial

theorem WritesConnected.step {g g1 : Graph ρ} {key : NodeKey} {done : List State} {s : State}
    (h1 : g.WritesConnected key done g1) (hfresh : s ∉ done) (hkey : key ∈ g.keys)
    (howner : g.ownerOrInitial s ∈ g.keys ∧ g.ownerOrInitial s ≠ key)
    (hreaders : forall k, k ∈ g.readers.get s -> k ∈ g.keys ∧ k ≠ key) :
    exists g', g1.connectWrite key s = .ok g' ∧ g.WritesConnected key (done ++ [s]) g' := by
  have hkeys : g1.keys = g.keys := keys_congr h1.skeleton
  have ho : g1.ownerOrInitial s = g.ownerOrInitial s := by
    rw [ownerOrInitial, h1.owners_get, if_neg hfresh, initial_key_congr h1.skeleton,
      ownerOrInitial]
  have hr : forall k, k ∈ g1.readers.get s ↔ k ∈ g.readers.get s := by
    intro k
    rw [h1.mem_readers]
    exact ⟨fun h => h.right, fun h => ⟨hfresh, h⟩⟩
  rcases insertEdge_rewired (hkeys.symm ▸ howner.left) (hkeys.symm ▸ hkey) s with ⟨g2, hg2, h2⟩
  -- Taking the readers out of the table changes no edge.
  let g3 : Graph ρ := { g2 with readers := g2.readers.eraseState s }
  have hreaders2 : g2.readers = g1.readers := readers_congr h2.frame
  have hskeleton2 : g2.skeleton = g1.skeleton := skeleton_congr h2.frame
  have howners2 : g2.owners = g1.owners := owners_congr h2.frame
  have hkeys3 : g3.keys = g.keys := (keys_congr hskeleton2).trans hkeys
  have hsources : forall k, k ∈ g2.readers.get s -> k ∈ g3.keys := by
    intro k hk
    rw [hreaders2] at hk
    rw [hkeys3]
    exact (hreaders k ((hr k).mp hk)).left
  have hkey3 : key ∈ g3.keys := by
    rw [hkeys3]
    exact hkey
  rcases insertEdgesInto_rewired hsources hkey3 s with ⟨g4, hg4, h4⟩
  have howners4 : g4.owners = g1.owners := (owners_congr h4.frame).trans howners2
  have hreaders4 : g4.readers = g1.readers.eraseState s := by
    have h := readers_congr h4.frame
    rw [← hreaders2]
    exact h
  have hskeleton4 : g4.skeleton = g1.skeleton :=
    (skeleton_congr h4.frame).trans hskeleton2
  have hleaves3 : forall u v t, g3.Leaves u v t ↔ g2.Leaves u v t := fun _ _ _ => Iff.rfl
  have henters3 : forall u v t, g3.Enters u v t ↔ g2.Enters u v t := fun _ _ _ => Iff.rfl
  refine ⟨{ g4 with owners := g4.owners.set s key }, ?_, ?_, ?_, ?_, ?_, ?_⟩
  · rw [connectWrite, ho, hg2, ok_bind, hg4]
    rfl
  · exact hskeleton4.trans h1.skeleton
  · intro u v t
    show g4.Leaves u v t ↔ _
    rw [h4.leaves_iff, hleaves3, h2.leaves_iff, h1.leaves_iff, List.mem_append,
      List.mem_singleton, hreaders2, hr]
    have hne := howner.right
    have hne' := fun hu => (hreaders u hu).right
    grind
  · intro u v t
    show g4.Enters u v t ↔ _
    rw [h4.enters_iff, henters3, h2.enters_iff, h1.enters_iff, List.mem_append,
      List.mem_singleton, hreaders2, hr]
    have hne := howner.right
    have hne' := fun hu => (hreaders u hu).right
    grind
  · intro t
    show (g4.owners.set s key).get? t = _
    rw [Table.get?_set, howners4, h1.owners_get]
    by_cases ht : t = s
    · simp [ht]
    · simp [ht]
  · intro t k
    show k ∈ g4.readers.get t ↔ _
    rw [hreaders4, Links.mem_get_eraseState, h1.mem_readers, List.mem_append,
      List.mem_singleton]
    grind

theorem connectWrites_ok {g : Graph ρ} {key : NodeKey} {states : List State}
    (hnodup : states.Nodup) (hkey : key ∈ g.keys)
    (howner : forall s, g.ownerOrInitial s ∈ g.keys ∧ g.ownerOrInitial s ≠ key)
    (hreaders : forall s k, k ∈ g.readers.get s -> k ∈ g.keys ∧ k ≠ key) :
    exists g', states.foldlM (fun g s => g.connectWrite key s) g = .ok g' ∧
      g.WritesConnected key states g' := by
  refine foldlM_ok_of_step (fun done g' => g.WritesConnected key done g') ?_
    (WritesConnected.nil g key)
  intro done s rest g1 hsplit h1
  have hfresh : s ∉ done := by
    intro hs
    rw [hsplit, List.nodup_append] at hnodup
    exact hnodup.right.right s hs s (List.mem_cons_self ..) rfl
  exact h1.step hfresh hkey (howner s) (hreaders s)

theorem addReaders_eq (g : Graph ρ) (key : NodeKey) (states : List State) :
    exists readers, states.foldl (fun g s => g.addReader key s) g = { g with readers } ∧
      forall t k, k ∈ readers.get t ↔ k ∈ g.readers.get t ∨ (t ∈ states ∧ k = key) := by
  induction states generalizing g with
  | nil => exact ⟨g.readers, rfl, fun t k => by simp⟩
  | cons s states ih =>
      rcases ih (g.addReader key s) with ⟨readers, heq, hmem⟩
      refine ⟨readers, by rw [List.foldl_cons, heq]; rfl, ?_⟩
      intro t k
      rw [hmem, List.mem_cons]
      have hinsert : k ∈ (g.addReader key s).readers.get t ↔
          k ∈ g.readers.get t ∨ (t = s ∧ k = key) := Links.mem_get_insert
      rw [hinsert]
      grind

/-- The edges from the two loops over a task's states, taken together. -/
theorem awaits_of_loops {g : Graph ρ} {t : Task} {s : State} {u v key : NodeKey} {old : Prop} :
    (old ∨ (t.reads s = true ∧ v = key ∧ u = g.ownerOrInitial s)) ∨
        (t.writes s = true ∧ v = key ∧ (u = g.ownerOrInitial s ∨ u ∈ g.readers.get s)) ↔
      old ∨ (v = key ∧ g.Awaits t s u) := by
  rw [Awaits]
  grind

theorem insertNode_eq (g : Graph ρ) (n : Node ρ) :
    g.insertNode n =
      n.task.inputs.toList.foldlM (fun h s => h.connectRead g.freshKey s) (g.withArrival n)
        >>= fun h => n.task.outputs.toList.foldlM (fun h s => h.connectWrite g.freshKey s) h
        >>= fun h => .ok (n.task.inputs.toList.foldl (fun h s => h.addReader g.freshKey s) h,
          g.freshKey) :=
  rfl

theorem insertNode_ok {g : Graph ρ} (hg : g.Sound) (n : Node ρ) :
    exists g', g.insertNode n = .ok (g', g.freshKey) ∧ g.Inserted n g' := by
  let g1 := g.withArrival n
  have hfresh := hg.keyed.freshKey_not_mem
  have hkeys1 : g1.keys = g.keys ++ [g.freshKey] := g.keys_withArrival n
  have hkey1 : g.freshKey ∈ g1.keys := by
    rw [hkeys1]
    simp
  have howner : forall s, g1.ownerOrInitial s ∈ g1.keys ∧ g1.ownerOrInitial s ≠ g.freshKey := by
    intro s
    have hmem : g.ownerOrInitial s ∈ g.keys := hg.owned.ownerOrInitial_mem s
    constructor
    · rw [hkeys1]
      exact List.mem_append_left _ hmem
    · intro he
      exact hfresh (he ▸ hmem)
  have hreaders : forall s k, k ∈ g1.readers.get s -> k ∈ g1.keys ∧ k ≠ g.freshKey := by
    intro s k hk
    have hmem : k ∈ g.keys := pendingKeys_subset (hg.owned.readers_pending s k hk)
    constructor
    · rw [hkeys1]
      exact List.mem_append_left _ hmem
    · intro he
      exact hfresh (he ▸ hmem)
  rcases connectReads_rewired hkey1 howner n.task.inputs.toList with ⟨g2, hg2, h2⟩
  have hkeys2 : g2.keys = g1.keys := h2.keys
  have howner2 : forall s, g2.ownerOrInitial s = g1.ownerOrInitial s :=
    ownerOrInitial_congr h2.frame
  have hreaders2 : g2.readers = g1.readers := readers_congr h2.frame
  rcases connectWrites_ok (g := g2) n.task.outputs.nodup (hkeys2.symm ▸ hkey1)
      (fun s => by rw [howner2, hkeys2]; exact howner s)
      (fun s k hk => by rw [hreaders2] at hk; rw [hkeys2]; exact hreaders s k hk)
    with ⟨g3, hg3, h3⟩
  rcases addReaders_eq g3 g.freshKey n.task.inputs.toList with ⟨readers, heq, hmem⟩
  refine ⟨{ g3 with readers }, ?_, ?_, ?_, ?_, ?_, ?_⟩
  · rw [insertNode_eq, hg2, ok_bind, hg3, ok_bind, heq]
  · exact h3.skeleton.trans (skeleton_congr h2.frame)
  · intro u v s
    show g3.Leaves u v s ↔ _
    rw [h3.leaves_iff, h2.leaves_iff, leaves_withArrival hg.keyed, howner2, hreaders2,
      ← Task.reads_iff, ← Task.writes_iff]
    exact awaits_of_loops
  · intro u v s
    show g3.Enters u v s ↔ _
    rw [h3.enters_iff, h2.enters_iff, enters_withArrival hg.keyed, howner2, hreaders2,
      ← Task.reads_iff, ← Task.writes_iff]
    exact awaits_of_loops
  · intro s
    show g3.owners.get? s = _
    rw [h3.owners_get, owners_congr h2.frame]
    by_cases hs : n.task.writes s = true
    · rw [if_pos hs, if_pos (Task.writes_iff.mp hs)]
    · rw [if_neg hs, if_neg (fun h => hs (Task.writes_iff.mpr h))]
      rfl
  · intro s k
    show k ∈ readers.get s ↔ _
    rw [hmem, h3.mem_readers, hreaders2, ← Task.reads_iff, ← Task.writes_iff]
    show _ ∧ k ∈ g.readers.get s ∨ _ ↔ _
    grind

end Graph
end LaunchGraph
