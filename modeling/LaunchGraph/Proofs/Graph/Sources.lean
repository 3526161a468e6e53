import LaunchGraph.Proofs.Graph.Rebuild

/-!
# The writers that states come from

While a graph is built up, exactly one of all edges into a node on a state that the node touches
comes from a writer of the state: from the nearest one.  Two pending nodes are connected exactly
if they conflict and no node between them writes the state.
-/

namespace LaunchGraph

variable {ρ : Type}

/-!
## Sequences
-/

theorem OpenReader.nearestWriter {origin : State -> NodeKey} {s : State} {l : List Entry}
    {u : NodeKey} (h : OpenReader s l u)
    (hwrites : forall e, e ∈ l -> e.key = u -> e.writes s = true) : NearestWriter origin s l u := by
  rcases h with ⟨a, e, b, rfl, hkey, _, hafter⟩
  exact Or.inl ⟨a, e, b, rfl, hkey, hwrites e (by simp) hkey, hafter⟩

theorem NearestWriter.filter {origin : State -> NodeKey} {s : State} {l : List Entry}
    {u : NodeKey} (h : NearestWriter origin s l u) {p : Entry -> Bool}
    (hu : forall e, e ∈ l -> e.key = u -> p e = true) :
    NearestWriter origin s (l.filter p) u := by
  cases h with
  | inl hlast =>
      rcases hlast with ⟨a, e, b, rfl, hkey, hwrites, hafter⟩
      refine Or.inl ⟨a.filter p, e, b.filter p, ?_, hkey, hwrites, ?_⟩
      · rw [List.filter_append, List.filter_cons_of_pos (hu e (by simp) hkey)]
      · intro x hx
        exact hafter x (List.mem_filter.mp hx).left
  | inr hnone =>
      refine Or.inr ⟨?_, hnone.right⟩
      intro x hx
      exact hnone.left x (List.mem_filter.mp hx).left

theorem NearestWriter.filter_last {origin : State -> NodeKey} {s : State} {a b : List Entry}
    {e : Entry} {u : NodeKey} {p : Entry -> Bool} (h : NearestWriter origin s (a.filter p) u)
    (he : p e = false) (hafter : forall x, x ∈ b -> x.writes s = false) :
    NearestWriter origin s ((a ++ e :: b).filter p) u := by
  rw [List.filter_append, List.filter_cons_of_neg (by simp [he])]
  apply h.append_of_not_writes
  intro x hx
  exact hafter x (List.mem_filter.mp hx).left

theorem NearestWriter.quiet_after {origin : State -> NodeKey} {t : State} {l : List Entry}
    {e x : Entry} (h : NearestWriter origin t l e.key) (hl : (l.map (·.key)).Nodup)
    (hex : ComesBefore l e x) : x.writes t = false := by
  rcases h with ⟨a, y, b, hsplit, hkey, _, hafter⟩ | ⟨hnone, _⟩
  · rcases hex.exists_split with ⟨c, d, f, hsplit'⟩
    have hfront : a = c := prefix_eq_of_nodup hl hsplit hsplit' hkey
    rw [hsplit, hfront] at hsplit'
    apply hafter
    rw [(List.cons.inj (List.append_cancel_left hsplit')).right]
    simp
  · exact hnone x hex.right_mem

namespace Graph

/-!
## The writer among the sources
-/

/-- Of all nodes with an edge into `v` on a state, `u` is the one that writes it. -/
structure WriterOf (g : Graph ρ) (v : NodeKey) (s : State) (u : NodeKey) : Prop where
  enters : g.Enters u v s
  writes : g.WritesAt u s
  only : forall w, g.Enters w v s -> g.WritesAt w s -> w = u

theorem WriterOf.of_sources {g : Graph ρ} {u v : NodeKey} {s : State}
    (hsources : (g.inputsOf v).get s = [u]) (hwrites : g.WritesAt u s) : g.WriterOf v s u := by
  refine ⟨?_, hwrites, ?_⟩
  · rw [Enters, hsources]
    exact List.mem_singleton.mpr rfl
  · intro w hw _
    rw [Enters, hsources] at hw
    exact List.mem_singleton.mp hw

theorem entries_split {g : Graph ρ} {before after : List (Vertex ρ)} {v : Vertex ρ}
    (h : g.pending = before ++ v :: after) :
    g.entries = before.map Vertex.entry ++ v.entry :: after.map Vertex.entry := by
  rw [entries, h, List.map_append, List.map_cons]

/-- In a built graph the nearest writer before a node is its only writer. -/
theorem Built.writerOf {g : Graph ρ} {origin : State -> NodeKey} (hg : g.Built origin)
    {before after : List Entry} {e : Entry} (hsplit : g.entries = before ++ e :: after)
    {s : State} (htouch : e.reads s = true ∨ e.writes s = true) {u : NodeKey}
    (hnearest : NearestWriter origin s before u) : g.WriterOf e.key s u := by
  have hin : forall x, x ∈ before -> x ∈ g.entries := by
    intro x hx
    rw [hsplit]
    exact List.mem_append_left _ hx
  refine ⟨?_, hg.nearest_writesAt hin hnearest, ?_⟩
  · exact (hg.enters_iff ..).mpr ⟨_, _, _, hsplit, rfl, Or.inl ⟨htouch, hnearest⟩⟩
  · intro w hw hwrites
    rcases (hg.enters_iff ..).mp hw with ⟨a, x, b, hsplit', hkey, hwaits⟩
    have hsame : a = before := by
      have hnodup := hg.sound.keyed.nodup_pending
      rw [← map_key_entries] at hnodup
      exact prefix_eq_of_nodup hnodup hsplit' hsplit hkey
    subst hsame
    rcases hwaits with ⟨_, hnear⟩ | ⟨_, hopen⟩
    · exact hnear.unique hnearest
    · refine (hopen.nearestWriter fun y hy hyw => ?_).unique hnearest
      rw [hg.sound.entry_writes (hin y hy), hyw]
      exact hwrites

theorem Built.last_of_pending {g : Graph ρ} {origin : State -> NodeKey} (hg : g.Built origin)
    {s : State} {l : List Entry} {u : NodeKey} (h : NearestWriter origin s l u)
    (hu : u ∈ g.pendingKeys) :
    exists a e b, l = a ++ e :: b ∧ e.key = u ∧ e.writes s = true ∧
      forall x, x ∈ b -> x.writes s = false := by
  cases h with
  | inl hlast => exact hlast
  | inr hnone =>
      rw [hnone.right] at hu
      exact absurd hu hg.origin_not_pending

/-!
## Edges between pending nodes
-/

/-- In a built graph two pending nodes have an edge on a state exactly if they conflict on it
and no node between them writes it. -/
theorem Built.enters_pending_iff {ι : Type} {g : Graph ρ} {origin : State -> NodeKey}
    (hg : g.Built origin) {done : List (Vertex ρ)} {items : List ι} {f : ι -> Vertex ρ}
    (hpending : g.pending = done ++ items.map f) {q r : ι} (hq : q ∈ items) (hr : r ∈ items)
    (s : State) :
    g.Enters (f q).key (f r).key s ↔ exists a b c, items = a ++ q :: (b ++ r :: c) ∧
      Conflict (f q).entry (f r).entry s ∧ forall z, z ∈ b -> (f z).task.writes s = false := by
  have hentries : g.entries = done.map Vertex.entry ++ items.map fun z => (f z).entry := by
    rw [entries, hpending, List.map_append, List.map_map]
    rfl
  have hnodup : (g.entries.map (·.key)).Nodup := by
    rw [map_key_entries]
    exact hg.sound.keyed.nodup_pending
  have hmem : forall z, z ∈ items -> (f z).entry ∈ g.entries := by
    intro z hz
    rw [hentries]
    exact List.mem_append_right _ (List.mem_map_of_mem hz)
  constructor
  · intro henters
    have hcalls : CallsFor origin g.entries (f q).entry.key (f r).entry.key s :=
      (hg.enters_iff ..).mp henters
    have horigin : (f q).entry.key ≠ origin s := by
      intro heq
      apply hg.origin_not_pending (s := s)
      rw [← heq, ← map_key_entries]
      exact List.mem_map_of_mem (hmem q hq)
    rcases hcalls.conflict hnodup (hmem q hq) (hmem r hr) horigin
      with ⟨a, b, c, hsplit, hconflict, hnone⟩
    rw [hentries] at hnodup hsplit
    rcases split_of_append_map hnodup hq hr hsplit with ⟨a', b', c', hitems, rfl⟩
    exact ⟨a', b', c', hitems, hconflict, fun z hz => hnone _ (List.mem_map_of_mem hz)⟩
  · rintro ⟨a, b, c, rfl, hconflict, hnone⟩
    have hsplit : g.entries = (done.map Vertex.entry ++ a.map fun z => (f z).entry) ++
        (f q).entry :: ((b.map fun z => (f z).entry) ++
          (f r).entry :: c.map fun z => (f z).entry) := by
      rw [hentries]
      simp
    apply (hg.enters_iff ..).mpr
    apply callsFor_of_conflict hsplit hconflict
    intro z hz
    rcases List.mem_map.mp hz with ⟨w, hw, rfl⟩
    exact hnone w hw

end Graph
end LaunchGraph
