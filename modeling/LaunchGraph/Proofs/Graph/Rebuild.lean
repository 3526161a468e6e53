import LaunchGraph.Graph.Rebuild
import LaunchGraph.Proofs.Graph.Order
import LaunchGraph.Proofs.Graph.Writers

/-!
# Rebuilding

Taking the pending nodes out leaves a settled graph: nothing pending, no edges, no
readers.  A settled graph is built, and inserting nodes keeps it so.  Hence a
rebuild turns any sound graph with forward edges into a built one, whatever its
edges were before, and a built graph comes back with the same origins.
-/

namespace LaunchGraph

def Node.launch {ρ : Type} (n : Node ρ) : Option ρ × Task := (n.record, n.task)

/-- What a node keeps when it is put in: its record, its task and its launch id. -/
def Node.ticket {ρ : Type} (n : Node ρ) : Option ρ × TaskHandle × Nat :=
  (n.record, n.handle, n.launchId)

namespace Graph

variable {ρ : Type}

/-!
## Built graphs are consistent
-/

theorem WaitsFor.source {origin : State -> NodeKey} {before : List Entry} {e : Entry}
    {s : State} {u : NodeKey} (h : WaitsFor origin before e s u) :
    u = origin s ∨ u ∈ before.map (·.key) := by
  rcases h with ⟨_, hnear⟩ | ⟨_, hread⟩
  · exact hnear.key_mem
  · exact Or.inr hread.key_mem

theorem Built.nearest_writesAt {g : Graph ρ} {origin : State -> NodeKey} (h : g.Built origin)
    {s : State} {before : List Entry} {u : NodeKey}
    (hbefore : forall e, e ∈ before -> e ∈ g.entries)
    (hu : NearestWriter origin s before u) : g.WritesAt u s := by
  rcases hu with ⟨a, e, b, rfl, rfl, hwrites, _⟩ | ⟨_, rfl⟩
  · exact (h.sound.entry_writes (hbefore e (by simp))).mp hwrites
  · exact h.origin_writes s

theorem Built.origin_not_pending {g : Graph ρ} {origin : State -> NodeKey} (h : g.Built origin)
    {s : State} : origin s ∉ g.pendingKeys := by
  rcases List.mem_map.mp (h.origin_executed s) with ⟨v, hv, hkey⟩
  rw [← hkey]
  exact h.sound.keyed.executed_not_pending hv

theorem Built.forward {g : Graph ρ} {origin : State -> NodeKey} (h : g.Built origin) :
    g.Forward := by
  intro u v s huv
  rcases (h.enters_iff u v s).mp huv with ⟨before, e, after, hsplit, rfl, hwaits⟩
  have hpending : g.pendingKeys = before.map (·.key) ++ e.key :: after.map (·.key) := by
    rw [← map_key_entries, hsplit, List.map_append, List.map_cons]
  rw [keys_eq_append, ComesBefore.append_iff]
  rcases WaitsFor.source hwaits with rfl | hu
  · exact Or.inr (Or.inl ⟨h.origin_executed s, by rw [hpending]; simp⟩)
  · refine Or.inr (Or.inr ?_)
    rw [hpending, ComesBefore.append_iff]
    exact Or.inr (Or.inl ⟨hu, by simp⟩)

theorem Built.consistent {g : Graph ρ} {origin : State -> NodeKey} (h : g.Built origin) :
    g.Consistent := by
  have howner : forall s, g.WritesAt (g.ownerOrInitial s) s :=
    fun s => h.nearest_writesAt (fun _ he => he) (h.owner_nearest s)
  refine ⟨h.sound, h.forward, h.aged, ?_, ?_, ?_⟩
  · intro s k hk
    have heq : g.ownerOrInitial s = k := by
      rw [ownerOrInitial, hk]
      rfl
    rw [← heq]
    exact howner s
  · intro s k hk
    rcases (h.mem_readers s k).mp hk with ⟨a, e, b, hsplit, rfl, hreads, hafter⟩
    have hmem : e ∈ g.entries := by
      rw [hsplit]
      simp
    cases hwrites : e.writes s with
    | true =>
        -- The reader itself is the last writer.
        have hnear : NearestWriter origin s g.entries e.key :=
          Or.inl ⟨a, e, b, hsplit, rfl, hwrites, hafter⟩
        exact Or.inl (hnear.unique (h.owner_nearest s))
    | false =>
        refine Or.inr ((h.enters_iff _ _ s).mpr ⟨a, e, b, hsplit, rfl, Or.inl ⟨Or.inl hreads, ?_⟩⟩)
        rcases exists_nearestWriter origin s a with ⟨u, hu⟩
        have hall : NearestWriter origin s g.entries u := by
          rw [hsplit]
          exact hu.append_of_not_writes (by
            intro x hx
            rcases List.mem_cons.mp hx with rfl | hx
            · exact hwrites
            · exact hafter x hx)
        rw [(h.owner_nearest s).unique hall]
        exact hu
  · intro v s hv htouch
    rcases exists_entry hv with ⟨a, e, b, hsplit, rfl⟩
    have hmem : e ∈ g.entries := by
      rw [hsplit]
      simp
    rw [← h.sound.entry_reads hmem, ← h.sound.entry_writes hmem] at htouch
    rcases exists_nearestWriter origin s a with ⟨u, hu⟩
    refine ⟨u, (h.enters_iff _ _ s).mpr ⟨a, e, b, hsplit, rfl, Or.inl ⟨htouch, hu⟩⟩, ?_⟩
    refine h.nearest_writesAt (fun x hx => ?_) hu
    rw [hsplit]
    exact List.mem_append_left _ hx

/-!
## Settled graphs
-/

/-- Nothing is pending, and nothing is left of what was. -/
structure Settled (g : Graph ρ) : Prop where
  sound : g.Sound
  pending_nil : g.pending = []
  no_edges : forall u v s, ¬g.Enters u v s
  no_readers : forall s k, k ∉ g.readers.get s

theorem Settled.entries_nil {g : Graph ρ} (h : g.Settled) : g.entries = [] := by
  rw [entries, h.pending_nil]
  rfl

theorem Settled.keys_eq {g : Graph ρ} (h : g.Settled) : g.keys = g.executed.map (·.key) := by
  rw [keys_eq_append, pendingKeys, h.pending_nil, List.map_nil, List.append_nil]

theorem Settled.owner_writesAt {g : Graph ρ} (h : g.Settled) (s : State) :
    g.WritesAt (g.ownerOrInitial s) s := by
  refine ownerOrInitial_writes h.sound ?_
  intro k hk
  refine h.sound.owned.executed_writes s k hk ?_
  rw [pendingKeys, h.pending_nil]
  exact List.not_mem_nil

theorem Settled.built {g : Graph ρ} (h : g.Settled) : g.Built g.ownerOrInitial := by
  refine ⟨h.sound, ⟨?_, ?_⟩, ?_, ?_, ?_, ?_, h.owner_writesAt⟩
  · rw [h.pending_nil]
    exact List.Pairwise.nil
  · intro v hv
    rw [h.pending_nil] at hv
    cases hv
  · intro u v s
    rw [h.entries_nil]
    simp only [h.no_edges, false_iff]
    rintro ⟨before, e, after, hsplit, _⟩
    simp at hsplit
  · intro s
    rw [h.entries_nil, nearestWriter_nil]
  · intro s k
    rw [h.entries_nil]
    simp only [h.no_readers, openReader_nil]
  · intro s
    rw [← h.keys_eq]
    exact h.sound.owned.ownerOrInitial_mem s

theorem not_enters_of_inputs {g : Graph ρ}
    (h : forall v, v ∈ g.vertices -> forall s k, k ∉ v.inputs.get s) :
    forall u v s, ¬g.Enters u v s := by
  intro u v s huv
  rcases exists_find? huv.target_mem with ⟨w, hw⟩
  rw [Enters, inputsOf_of_find? hw] at huv
  exact h w (mem_of_find? hw) s u huv

theorem not_leaves_of_outputs {g : Graph ρ}
    (h : forall v, v ∈ g.vertices -> forall s k, k ∉ v.outputs.get s) :
    forall u v s, ¬g.Leaves u v s := by
  intro u v s huv
  rcases exists_find? huv.source_mem with ⟨w, hw⟩
  rw [Leaves, outputsOf_of_find? hw] at huv
  exact h w (mem_of_find? hw) s v huv

theorem Wired.executed_inputs {g : Graph ρ} (h : g.Wired) (hk : g.Keyed) {v : Vertex ρ}
    (hv : v ∈ g.executed) (s : State) (k : NodeKey) : k ∉ v.inputs.get s := by
  intro hin
  have henters : g.Enters k v.key s := by
    rw [Enters, inputsOf_of_find? (find?_of_mem hk.nodup (mem_vertices_of_executed hv))]
    exact hin
  exact hk.executed_not_pending hv (h.target_pending k v.key s henters)

theorem Wired.outputs_pending {g : Graph ρ} (h : g.Wired) (hk : g.Keyed) {v : Vertex ρ}
    (hv : v ∈ g.vertices) {s : State} {k : NodeKey} (hout : k ∈ v.outputs.get s) :
    k ∈ g.pendingKeys := by
  have hleaves : g.Leaves v.key k s := by
    rw [Leaves, outputsOf_of_find? (find?_of_mem hk.nodup hv)]
    exact hout
  exact h.target_pending v.key k s ((h.mirrored v.key k s).mp hleaves)

/-!
## Taking pending nodes out
-/

def counts (g : Graph ρ) : Table String Nat × OrderedSet SNodeId × Nat × FusionWindow :=
  (g.launches, g.currentLists, g.nextSerial, g.window)

/-- The graph `base` is `g` with its pending nodes taken out. -/
structure Extracted (g base : Graph ρ) : Prop where
  settled : base.Settled
  bareExecuted : base.executed.map Vertex.bare = g.executed.map Vertex.bare
  nextStamp : base.nextStamp = g.nextStamp
  counts : base.counts = g.counts
  owners : g.OwnersLeft g.pendingKeys base.owners

def withoutPending (g : Graph ρ) (owners : Table State NodeKey) : Graph ρ :=
  { g with
    initial := dropOutputsTo g.pendingKeys g.initial
    history := g.history.map (dropOutputsTo g.pendingKeys)
    pending := []
    owners
    readers := g.readers.filter fun _ k => k ∉ g.pendingKeys }

section WithoutPending

variable {g : Graph ρ} (owners : Table State NodeKey)

theorem executed_withoutPending :
    (g.withoutPending owners).executed = g.executed.map (dropOutputsTo g.pendingKeys) := rfl

theorem vertices_withoutPending :
    (g.withoutPending owners).vertices = g.executed.map (dropOutputsTo g.pendingKeys) :=
  List.append_nil _

theorem keys_withoutPending : (g.withoutPending owners).keys = g.executed.map (·.key) := by
  rw [keys, vertices_withoutPending, List.map_map]
  rfl

theorem Keyed.withoutPending (h : g.Keyed) : (g.withoutPending owners).Keyed := by
  have hnodup := h.nodup
  have hlt := h.stamp_lt
  rw [keys_eq_append] at hnodup hlt
  rw [List.nodup_append] at hnodup
  refine ⟨by rw [keys_withoutPending]; exact hnodup.left, ?_⟩
  intro k hk
  rw [keys_withoutPending] at hk
  exact hlt k (List.mem_append_left _ hk)

theorem Numbered.withoutPending (h : g.Numbered) : (g.withoutPending owners).Numbered := by
  constructor
  · rw [size, vertices_withoutPending, List.map_map, List.length_map]
    exact h.executed_nodeIds
  · intro v hv
    rw [executed_withoutPending] at hv
    rcases List.mem_map.mp hv with ⟨w, hw, rfl⟩
    exact h.executedIds w hw
  · rfl
  · exact h.initial
  · intro v hv
    have hv' : v ∈ g.history.map (dropOutputsTo g.pendingKeys) ++ [] := hv
    rw [List.append_nil] at hv'
    rcases List.mem_map.mp hv' with ⟨w, hw, rfl⟩
    exact h.later w (List.mem_append_left _ hw)

theorem Sound.not_enters_withoutPending (h : g.Sound) (u v : NodeKey) (s : State) :
    ¬(g.withoutPending owners).Enters u v s := by
  refine not_enters_of_inputs ?_ u v s
  intro v hv s k
  rw [vertices_withoutPending] at hv
  rcases List.mem_map.mp hv with ⟨w, hw, rfl⟩
  exact h.wired.executed_inputs h.keyed hw s k

theorem Sound.not_leaves_withoutPending (h : g.Sound) (u v : NodeKey) (s : State) :
    ¬(g.withoutPending owners).Leaves u v s := by
  refine not_leaves_of_outputs ?_ u v s
  intro v hv s k hk
  rw [vertices_withoutPending] at hv
  rcases List.mem_map.mp hv with ⟨w, hw, rfl⟩
  have hget : k ∈ (w.outputs.filter fun _ k => decide (k ∉ g.pendingKeys)).get s := hk
  rw [Links.get_filter, List.mem_filter, decide_eq_true_iff] at hget
  exact hget.right (h.wired.outputs_pending h.keyed (mem_vertices_of_executed hw) hget.left)

theorem Sound.not_reads_withoutPending (h : g.Sound) (s : State) (k : NodeKey) :
    k ∉ (g.withoutPending owners).readers.get s := by
  intro hk
  have hget : k ∈ (g.readers.filter fun _ k => decide (k ∉ g.pendingKeys)).get s := hk
  rw [Links.get_filter, List.mem_filter, decide_eq_true_iff] at hget
  exact hget.right (h.owned.readers_pending s k hget.left)

theorem WritesAt.withoutPending {k : NodeKey} {s : State} (h : g.WritesAt k s) (hg : g.Keyed)
    (hk : k ∉ g.pendingKeys) : (g.withoutPending owners).WritesAt k s := by
  rcases h with ⟨v, hv, hs⟩
  have hkey := key_of_find? hv
  have hmem : v ∈ g.executed := by
    rcases List.mem_append.mp (mem_of_find? hv) with hx | hp
    · exact hx
    · exact absurd (hkey ▸ List.mem_map_of_mem hp) hk
  have hbase : dropOutputsTo g.pendingKeys v ∈ (g.withoutPending owners).vertices := by
    rw [vertices_withoutPending]
    exact List.mem_map_of_mem hmem
  rw [← hkey]
  exact (writesAt_iff (hg.withoutPending owners) hbase).mpr hs

end WithoutPending

theorem extractPending_ok {g : Graph ρ} (hg : g.Sound) (hf : g.Forward) :
    exists base, g.extractPending = .ok (base, g.pending.map (·.disconnected)) ∧
      g.Extracted base := by
  rcases ownersWithout_ok hg hf g.pendingKeys with ⟨owners, howners, hleft⟩
  have hrun : g.extractPending
      = .ok (g.withoutPending owners, g.pending.map (·.disconnected)) := by
    rw [extractPending, howners]
    rfl
  have hbare : (g.withoutPending owners).executed.map Vertex.bare = g.executed.map Vertex.bare := by
    rw [executed_withoutPending, List.map_map]
    rfl
  have hno := hg.not_enters_withoutPending owners
  have hno' := hg.not_leaves_withoutPending owners
  have hreaders := hg.not_reads_withoutPending owners
  have hwrites : forall s k, owners.get? s = some k -> (g.withoutPending owners).WritesAt k s := by
    intro s k hk
    rcases hleft.cases hg hg.keyed.initial_not_pending hk with ⟨hnot, ho | hw⟩
    · exact (hg.owned.executed_writes s k ho hnot).withoutPending owners hg.keyed hnot
    · exact hw.withoutPending owners hg.keyed hnot
  refine ⟨_, hrun, ⟨⟨hg.keyed.withoutPending owners, hg.numbered.withoutPending owners, ⟨?_, ?_⟩,
    ⟨?_, ?_, ?_⟩⟩, rfl, hno, hreaders⟩, hbare, rfl, rfl, hleft⟩
  · intro u v s
    simp only [hno, hno']
  · intro u v s huv
    exact absurd huv (hno u v s)
  · exact fun s k hk => (hwrites s k hk).mem
  · exact fun s k hk _ => hwrites s k hk
  · intro s k hk
    exact absurd hk (hreaders s k)

theorem initial_key_of_bareExecuted {g g' : Graph ρ}
    (h : g'.executed.map Vertex.bare = g.executed.map Vertex.bare) :
    g'.initial.key = g.initial.key :=
  Vertex.key_eq_of_bare_eq (List.cons.inj h).left

/-!
## Where states come from
-/

/-- Owners write what they own, and every pending node has an edge from a writer of each state
that it touches. -/
structure Supplied (g : Graph ρ) : Prop where
  owner_writes : forall s k, g.owners.get? s = some k -> g.WritesAt k s
  sourced : forall v s, v ∈ g.pendingKeys -> g.ReadsAt v s ∨ g.WritesAt v s ->
    exists u, g.Enters u v s ∧ g.WritesAt u s

theorem Consistent.supplied {g : Graph ρ} (h : g.Consistent) : g.Supplied :=
  ⟨h.owner_writes, h.sourced⟩

/-- Where a state does not come from a pending node, it comes from `origin`. -/
structure Rooted (g : Graph ρ) (origin : State -> NodeKey) : Prop where
  source : forall u v s, g.Enters u v s -> u ∉ g.pendingKeys -> u = origin s
  owner : forall s, g.ownerOrInitial s ∉ g.pendingKeys -> g.ownerOrInitial s = origin s

theorem Built.rooted {g : Graph ρ} {origin : State -> NodeKey} (h : g.Built origin) :
    g.Rooted origin := by
  constructor
  · intro u v s huv hu
    rcases (h.enters_iff u v s).mp huv with ⟨before, e, after, hsplit, rfl, hwaits⟩
    rcases WaitsFor.source hwaits with heq | hmem
    · exact heq
    · refine absurd ?_ hu
      rw [← map_key_entries, hsplit, List.map_append]
      exact List.mem_append_left _ hmem
  · intro s hs
    rcases (h.owner_nearest s).key_mem with heq | hmem
    · exact heq
    · rw [map_key_entries] at hmem
      exact absurd hmem hs

/-- The way back from a pending node, past all pending nodes, ends at the origin of the
state. -/
theorem Rooted.chain_eq_origin {g : Graph ρ} {origin : State -> NodeKey} (h : g.Rooted origin)
    (hg : g.Supplied) {s : State} {k w : NodeKey} (hk : k ∈ g.pendingKeys)
    (htouch : g.ReadsAt k s ∨ g.WritesAt k s) (hchain : WriterChain g s g.pendingKeys k w) :
    w = origin s := by
  induction hchain with
  | root none =>
      rcases hg.sourced _ s hk htouch with ⟨u, hu, hw⟩
      exact absurd hw (none u hu)
  | stop source out => exact h.source _ _ s source.enters out
  | pass source skipped rest ih => exact ih skipped (Or.inr source.writes)

theorem Extracted.origin {g base : Graph ρ} {origin : State -> NodeKey}
    (h : g.Extracted base) (hg : g.Sound) (hsupplied : g.Supplied) (hrooted : g.Rooted origin) :
    base.ownerOrInitial = origin := by
  have hinitial := initial_key_of_bareExecuted h.bareExecuted
  funext s
  cases ho : g.owners.get? s with
  | none =>
      have howner : g.ownerOrInitial s = g.initial.key := by
        rw [ownerOrInitial, ho]
        rfl
      have heq := hrooted.owner s (by
        rw [howner]
        exact hg.keyed.initial_not_pending)
      rw [← heq, howner, ownerOrInitial, h.owners.none s ho, hinitial]
      rfl
  | some k =>
      have howner : g.ownerOrInitial s = k := by
        rw [ownerOrInitial, ho]
        rfl
      by_cases hk : k ∈ g.pendingKeys
      · rcases h.owners.fallen s k ho hk with ⟨w, hw, hchain⟩
        rw [ownerOrInitial, hw, Option.getD_some]
        exact hrooted.chain_eq_origin hsupplied hk (Or.inr (hsupplied.owner_writes s k ho)) hchain
      · have heq := hrooted.owner s (by rw [howner]; exact hk)
        rw [← heq, howner, ownerOrInitial, h.owners.kept s k ho hk]
        rfl

/-!
## Putting nodes in
-/

structure Extended (g : Graph ρ) (nodes : List (Node ρ)) (g' : Graph ρ) : Prop where
  bareExecuted : g'.executed.map Vertex.bare = g.executed.map Vertex.bare
  tickets : g'.pending.map (·.ticket) = g.pending.map (·.ticket) ++ nodes.map (·.ticket)
  counts : g'.counts = g.counts

theorem Inserted.extended {g g' : Graph ρ} {n : Node ρ} (h : g.Inserted n g') :
    g.Extended [n] g' := by
  have hpending := barePending_congr h.skeleton
  have hsplit : (g.withArrival n).pending = g.pending ++ [g.arrivalVertex n] := rfl
  have hcounts : g'.skeleton.counts = (g.withArrival n).skeleton.counts :=
    congrArg counts h.skeleton
  refine ⟨h.bareExecuted, ?_, hcounts⟩
  rw [map_congr_of_bare (f := fun v => v.ticket) (fun _ => rfl) hpending, hsplit, List.map_append]
  rfl

theorem Extended.refl (g : Graph ρ) : g.Extended [] g := ⟨rfl, by simp, rfl⟩

theorem Extended.trans {g g1 g2 : Graph ρ} {nodes more : List (Node ρ)}
    (h1 : g.Extended nodes g1) (h2 : g1.Extended more g2) : g.Extended (nodes ++ more) g2 := by
  refine ⟨h2.bareExecuted.trans h1.bareExecuted, ?_, h2.counts.trans h1.counts⟩
  rw [h2.tickets, h1.tickets, List.map_append, List.append_assoc]

theorem Extended.map_pending {β : Type} {g g' : Graph ρ} {nodes : List (Node ρ)}
    (h : g.Extended nodes g') (f : Option ρ × TaskHandle × Nat -> β) :
    g'.pending.map (fun v => f v.ticket)
      = g.pending.map (fun v => f v.ticket) ++ nodes.map (fun n => f n.ticket) := by
  have hmap := congrArg (List.map f) h.tickets
  rw [List.map_append, List.map_map, List.map_map, List.map_map] at hmap
  exact hmap

theorem Extended.launches {g g' : Graph ρ} {nodes : List (Node ρ)} (h : g.Extended nodes g') :
    g'.pending.map (·.launch) = g.pending.map (·.launch) ++ nodes.map (·.launch) :=
  h.map_pending fun t => (t.1, t.2.1.task)

theorem Extended.launchIds {g g' : Graph ρ} {nodes : List (Node ρ)} (h : g.Extended nodes g') :
    g'.pending.map (·.launchId) = g.pending.map (·.launchId) ++ nodes.map (·.launchId) :=
  h.map_pending fun t => t.2.2

theorem insertNodes_built {g : Graph ρ} {origin : State -> NodeKey} (hg : g.Built origin)
    (nodes : List (Node ρ)) :
    exists g', g.insertNodes nodes = .ok g' ∧ g'.Built origin ∧ g.Extended nodes g' := by
  refine foldlM_ok_of_step (fun done g' => g'.Built origin ∧ g.Extended done g') ?_
    ⟨hg, Extended.refl g⟩
  intro done n rest g1 _ h1
  rcases insertNode_ok h1.left.sound n with ⟨g2, hg2, h2⟩
  refine ⟨g2, ?_, h2.built h1.left, h1.right.trans h2.extended⟩
  rw [hg2]
  rfl

theorem rebuild_eq_insertNodes {g : Graph ρ} (hg : g.Sound) (hf : g.Forward) :
    exists base, g.Extracted base ∧
      g.rebuild false = base.insertNodes (g.pending.map (·.disconnected)) := by
  rcases extractPending_ok hg hf with ⟨base, hbase, hextracted⟩
  refine ⟨base, hextracted, ?_⟩
  show (g.extractPending >>= fun r => r.1.insertNodes r.2) = _
  rw [hbase]
  rfl

/-- Sorting changes nothing in a consistent graph, so that both kinds of rebuild agree. -/
theorem Consistent.rebuild_eq {g : Graph ρ} (hg : g.Consistent) (sort : Bool) :
    g.rebuild sort = g.rebuild false := by
  cases sort with
  | false => rfl
  | true =>
      rw [rebuild, if_pos rfl, sortPending_eq hg.sound hg.forward hg.aged]
      rfl

theorem Extracted.extended {g base g' : Graph ρ} (h : g.Extracted base)
    (h' : base.Extended (g.pending.map (·.disconnected)) g') : g.Extended [] g' := by
  refine ⟨h'.bareExecuted.trans h.bareExecuted, ?_, h'.counts.trans h.counts⟩
  rw [h'.tickets, h.settled.pending_nil, List.map_map, List.map_nil, List.map_nil, List.append_nil]
  rfl

/-- A rebuild in the present order leaves a built graph with the same nodes. -/
theorem rebuild_built {g : Graph ρ} (hg : g.Sound) (hf : g.Forward) :
    exists g' base, g.rebuild false = .ok g' ∧ g.Extracted base ∧
      g'.Built base.ownerOrInitial ∧
      g'.executed.map Vertex.bare = g.executed.map Vertex.bare ∧
      g'.pending.map (·.launch) = g.pending.map (·.launch) ∧
      g'.pending.map (·.launchId) = g.pending.map (·.launchId) := by
  rcases rebuild_eq_insertNodes hg hf with ⟨base, hextracted, hrun⟩
  rcases insertNodes_built hextracted.settled.built (g.pending.map (·.disconnected))
    with ⟨g', hg', hbuilt, hextended⟩
  have hsame := hextracted.extended hextended
  refine ⟨g', base, hrun.trans hg', hextracted, hbuilt, hsame.bareExecuted, ?_, ?_⟩
  · rw [hsame.launches, List.map_nil, List.append_nil]
  · rw [hsame.launchIds, List.map_nil, List.append_nil]

theorem rebuild_extended {g g' : Graph ρ} (hg : g.Sound) (hf : g.Forward)
    (hrun : g.rebuild false = .ok g') : g.Extended [] g' := by
  rcases rebuild_eq_insertNodes hg hf with ⟨base, hextracted, heq⟩
  rcases insertNodes_built hextracted.settled.built (g.pending.map (·.disconnected))
    with ⟨g1, hg1, _, hextended⟩
  rw [heq, hg1] at hrun
  cases hrun
  exact hextracted.extended hextended

theorem Consistent.rebuild_extended {g : Graph ρ} (hg : g.Consistent) (sort : Bool) :
    exists g', g.rebuild sort = .ok g' ∧ g'.Sound ∧ g.Extended [] g' := by
  rcases rebuild_eq_insertNodes hg.sound hg.forward with ⟨base, hextracted, hrun⟩
  rcases insertNodes_built hextracted.settled.built (g.pending.map (·.disconnected))
    with ⟨g', hg', hbuilt, hextended⟩
  exact ⟨g', (hg.rebuild_eq sort).trans (hrun.trans hg'), hbuilt.sound,
    hextracted.extended hextended⟩

end Graph
end LaunchGraph
