import LaunchGraph.Proofs.Graph.Delete
import LaunchGraph.Proofs.Graph.Execute
import LaunchGraph.Proofs.Graph.Grow

/-!
# What the last execution left

Whatever nodes come and go, the states that pending nodes take from outside come from the
executed nodes that owned them when the last execution was over.  The executed nodes
themselves do not change, apart from the edges that leave them.  So taking all pending
nodes out brings back the graph that the last execution left.
-/

namespace LaunchGraph

namespace Vertex

variable {ρ : Type}

theorem eq_of_core_eq {v w : Vertex ρ} (hcore : w.core = v.core) (hnodeId : w.nodeId = v.nodeId)
    (hpendingId : w.pendingId = v.pendingId) (hinputs : w.inputs = v.inputs)
    (houtputs : w.outputs = v.outputs) : w = v := by
  have hback : forall x : Vertex ρ, x = x.core.update fun n =>
      { n with nodeId := x.nodeId, pendingId := x.pendingId, inputs := x.inputs,
               outputs := x.outputs } := fun _ => rfl
  rw [hback w, hback v, hcore, hnodeId, hpendingId, hinputs, houtputs]

end Vertex

namespace Graph

variable {ρ : Type}

/-!
## Settled graphs
-/

theorem Settled.readers_eq {g : Graph ρ} (h : g.Settled) : g.readers = ∅ :=
  Links.eq_empty_of_forall_not_mem h.no_readers

theorem Settled.no_links {g : Graph ρ} (h : g.Settled) {v : Vertex ρ} (hv : v ∈ g.executed) :
    v.inputs = ∅ ∧ v.outputs = ∅ := by
  constructor
  · exact Links.eq_empty_of_forall_not_mem (h.sound.wired.executed_inputs h.sound.keyed hv)
  · apply Links.eq_empty_of_forall_not_mem
    intro s k hk
    have hpending := h.sound.wired.outputs_pending h.sound.keyed (mem_vertices_of_executed hv) hk
    rw [pendingKeys, h.pending_nil] at hpending
    cases hpending

theorem Settled.vertices_eq {g : Graph ρ} (h : g.Settled) : g.vertices = g.executed := by
  rw [vertices, h.pending_nil, List.append_nil]

theorem Settled.executed_eq {g g' : Graph ρ} (h : g.Settled) (h' : g'.Settled)
    (hcore : g'.executed.map Vertex.core = g.executed.map Vertex.core) :
    g'.executed = g.executed := by
  have hlength : g'.executed.length = g.executed.length := length_eq_of_map_eq hcore
  have hids : g'.executed.map (·.nodeId) = g.executed.map (·.nodeId) := by
    rw [h'.sound.numbered.executed_nodeIds, h.sound.numbered.executed_nodeIds, hlength]
  apply List.ext_getElem hlength
  intro i hi' hi
  have hmem' := List.getElem_mem hi'
  have hmem := List.getElem_mem hi
  have hcoreAt : (g'.executed[i]).core = (g.executed[i]).core := by
    have hget := congrArg (fun l => l[i]?) hcore
    rw [List.getElem?_map, List.getElem?_map, List.getElem?_eq_getElem hi',
      List.getElem?_eq_getElem hi] at hget
    exact Option.some.inj hget
  have hidAt : (g'.executed[i]).nodeId = (g.executed[i]).nodeId := by
    have hget := congrArg (fun l => l[i]?) hids
    rw [List.getElem?_map, List.getElem?_map, List.getElem?_eq_getElem hi',
      List.getElem?_eq_getElem hi] at hget
    exact Option.some.inj hget
  have hpendingId : (g'.executed[i]).pendingId = (g.executed[i]).pendingId := by
    rw [h'.sound.numbered.executedIds _ hmem', h.sound.numbered.executedIds _ hmem]
  apply Vertex.eq_of_core_eq hcoreAt hidAt hpendingId
  · rw [(h'.no_links hmem').left, (h.no_links hmem).left]
  · rw [(h'.no_links hmem').right, (h.no_links hmem).right]

/-!
## Nodes that come and go
-/

section Changes

variable {g g' : Graph ρ} {origin : State -> NodeKey}

theorem Rooted.withCounts (h : g.Rooted origin) (launches : Table String Nat)
    (currentLists : OrderedSet SNodeId) (nextSerial : Nat) (window : FusionWindow) :
    (g.withCounts launches currentLists nextSerial window).Rooted origin :=
  ⟨h.source, h.owner⟩

theorem Inserted.rooted {n : Node ρ} (h : g.Inserted n g') (hg : g.Sound)
    (hr : g.Rooted origin) : g'.Rooted origin := by
  have hpending : forall k, k ∉ g'.pendingKeys -> k ∉ g.pendingKeys ∧ k ≠ g.freshKey := by
    intro k hk
    rw [h.pendingKeys, List.mem_append, List.mem_singleton, not_or] at hk
    exact hk
  constructor
  · intro u v s huv hu
    cases (h.enters_iff u v s).mp huv with
    | inl hold => exact hr.source u v s hold (hpending u hu).left
    | inr hnew =>
        cases hnew.right with
        | inl howner =>
            rw [howner.right] at hu ⊢
            exact hr.owner s (hpending _ hu).left
        | inr hreader =>
            have hmem := hg.owned.readers_pending s u hreader.right
            exact absurd hmem (hpending u hu).left
  · intro s hs
    rw [h.ownerOrInitial] at hs ⊢
    split at hs
    · exact absurd rfl (hpending _ hs).right
    · next hwrites =>
        rw [if_neg hwrites]
        exact hr.owner s (hpending _ hs).left

theorem Via.enters_first {doomed : List NodeKey} {s : State} {u v : NodeKey}
    (h : g.Via doomed s u v) : exists k, g.Enters u k s := by
  induction h with
  | edge enters => exact ⟨_, enters⟩
  | step _ _ _ ih => exact ih

theorem Deleted.supplied {doomed : List NodeKey} (h : g.Deleted doomed g')
    (hdoomed : forall k, k ∈ doomed -> k ∈ g.pendingKeys) (hg : g.Sound) (hf : g.Forward)
    (hs : g.Supplied) : g'.Supplied :=
  ⟨h.owner_writes hg (fun hin => hg.keyed.initial_not_pending (hdoomed _ hin)) hs.owner_writes,
    h.sourced hg hf hdoomed hs.sourced⟩

theorem Deleted.rooted {doomed : List NodeKey} (h : g.Deleted doomed g')
    (hdoomed : forall k, k ∈ doomed -> k ∈ g.pendingKeys) (hg : g.Sound)
    (hsupplied : g.Supplied) (hr : g.Rooted origin) : g'.Rooted origin := by
  have hinitial : g.initial.key ∉ doomed := by
    intro hin
    exact hg.keyed.initial_not_pending (hdoomed _ hin)
  have hpending : forall k, k ∉ doomed -> k ∉ g'.pendingKeys -> k ∉ g.pendingKeys := by
    intro k hk hnot hin
    exact hnot (h.mem_pendingKeys.mpr ⟨hin, hk⟩)
  constructor
  · intro u v s huv hu
    rcases (h.enters_iff u v s).mp huv with ⟨hud, _, hvia⟩
    rcases hvia.enters_first with ⟨k, hk⟩
    exact hr.source u k s hk (hpending u hud hu)
  · intro s hs
    cases ho : g.owners.get? s with
    | none =>
        have howner : g'.ownerOrInitial s = g.ownerOrInitial s := by
          rw [ownerOrInitial, h.owners.none s ho, h.initial_key, ownerOrInitial, ho]
        rw [howner]
        apply hr.owner
        rw [ownerOrInitial, ho]
        exact hg.keyed.initial_not_pending
    | some k =>
        by_cases hk : k ∈ doomed
        · -- The state falls back along a way of edges, whose first one leaves the origin.
          rcases h.owners.fallen s k ho hk with ⟨w, hw, hchain⟩
          have howner : g'.ownerOrInitial s = w := by
            rw [ownerOrInitial, hw]
            rfl
          rw [howner] at hs ⊢
          have hvia := hchain.via hsupplied.sourced hdoomed (hdoomed k hk)
            (Or.inr (hsupplied.owner_writes s k ho))
          rcases hvia.enters_first with ⟨x, hx⟩
          exact hr.source w x s hx (hpending w (hchain.not_mem_skip hinitial) hs)
        · have howner : g'.ownerOrInitial s = g.ownerOrInitial s := by
            rw [ownerOrInitial, h.owners.kept s k ho hk, ownerOrInitial, ho]
            rfl
          have hkey : g'.ownerOrInitial s = k := by
            rw [ownerOrInitial, h.owners.kept s k ho hk]
            rfl
          rw [hkey] at hs
          rw [howner]
          apply hr.owner
          rw [ownerOrInitial, ho]
          exact hpending k hk hs

end Changes

/-!
## Nodes in another order
-/

namespace Sorted

variable {g g' : Graph ρ} {order : List (Vertex ρ)} {origin : State -> NodeKey}

theorem ownerOrInitial (h : g.Sorted order g') (s : State) :
    g'.ownerOrInitial s = g.ownerOrInitial s := by
  have hinitial : g'.initial = g.initial := (List.cons.inj h.executed).left
  rw [Graph.ownerOrInitial, h.owners, hinitial, Graph.ownerOrInitial]

theorem rooted (h : g.Sorted order g') (hg : g.Keyed) (hr : g.Rooted origin) :
    g'.Rooted origin := by
  have hsame := h.sameNodes hg
  constructor
  · intro u v s huv hu
    rw [h.mem_pendingKeys] at hu
    exact hr.source u v s ((hsame.enters_iff u v s).mp huv) hu
  · intro s hs
    rw [h.mem_pendingKeys] at hs
    rw [h.ownerOrInitial] at hs ⊢
    exact hr.owner s hs

theorem supplied (h : g.Sorted order g') (hg : g.Keyed) (hs : g.Supplied) : g'.Supplied := by
  have hsame := h.sameNodes hg
  constructor
  · intro s k hk
    rw [h.owners] at hk
    exact hsame.writesAt (hs.owner_writes s k hk)
  · intro v s hv htouch
    rw [h.mem_pendingKeys] at hv
    have htouch' : g.ReadsAt v s ∨ g.WritesAt v s :=
      htouch.imp (fun hr => hsame.symm.readsAt hr) (fun hw => hsame.symm.writesAt hw)
    rcases hs.sourced v s hv htouch' with ⟨u, hu, hw⟩
    exact ⟨u, (hsame.enters_iff u v s).mpr hu, hsame.writesAt hw⟩

end Sorted

/-!
## Graphs since the last execution
-/

/-- The graph `g` has nothing that the settled graph `g0` has not, apart from pending nodes
and from what follows from them. -/
structure Since (g0 g : Graph ρ) : Prop where
  consistent : g.Consistent
  rooted : g.Rooted g0.ownerOrInitial
  executed : g.executed.map Vertex.core = g0.executed.map Vertex.core

theorem Settled.since {g : Graph ρ} (h : g.Settled) : g.Since g :=
  ⟨h.built.consistent, h.built.rooted, rfl⟩

namespace Since

variable {g0 g g' : Graph ρ}

theorem withCounts (h : g0.Since g) (launches : Table String Nat)
    (currentLists : OrderedSet SNodeId) (nextSerial : Nat) (window : FusionWindow) :
    g0.Since (g.withCounts launches currentLists nextSerial window) :=
  ⟨h.consistent.withCounts .., h.rooted.withCounts .., h.executed⟩

theorem inserted (h : g0.Since g) {n : Node ρ} (hi : g.Inserted n g') : g0.Since g' :=
  ⟨hi.consistent h.consistent, hi.rooted h.consistent.sound h.rooted,
    (map_core_congr hi.bareExecuted).trans h.executed⟩

theorem grown {bank : Bank ρ} {records : List ρ} (h : g0.Since g)
    (hgrown : Grown bank g records g') : g0.Since g' := by
  induction hgrown with
  | start => exact h
  | recount _ launches currentLists nextSerial ih =>
      exact ih.withCounts launches currentLists nextSerial _
  | insert _ _ _ inserted ih => exact ih.inserted inserted

theorem deleted {doomed : List NodeKey} (h : g0.Since g) (hd : g.Deleted doomed g')
    (hdoomed : forall k, k ∈ doomed -> k ∈ g.pendingKeys) : g0.Since g' :=
  ⟨hd.consistent hdoomed h.consistent, hd.rooted hdoomed h.consistent.sound h.consistent.supplied h.rooted,
    hd.executed.trans h.executed⟩

theorem built (h : g0.Since g) (hb : g'.Built g0.ownerOrInitial)
    (hexecuted : g'.executed.map Vertex.core = g.executed.map Vertex.core) : g0.Since g' :=
  ⟨hb.consistent, hb.rooted, hexecuted.trans h.executed⟩

/-- The owners that are left when all pending nodes go are those that the last execution
left. -/
theorem origin_extracted {base : Graph ρ} (h : g0.Since g) (he : g.Extracted base) :
    base.ownerOrInitial = g0.ownerOrInitial :=
  he.origin h.consistent.sound h.consistent.supplied h.rooted

theorem executed_extracted {base : Graph ρ} (h : g0.Since g) (h0 : g0.Settled)
    (he : g.Extracted base) : base.executed = g0.executed :=
  h0.executed_eq he.settled ((map_core_congr he.bareExecuted).trans h.executed)

theorem rebuilt (h : g0.Since g) (sort : Bool) :
    exists g', g.rebuild sort = .ok g' ∧ g0.Since g' := by
  rcases rebuild_built h.consistent.sound h.consistent.forward
    with ⟨g', base, hrun, hextracted, hbuilt, hbare, _⟩
  rw [h.origin_extracted hextracted] at hbuilt
  exact ⟨g', (h.consistent.rebuild_eq sort).trans hrun, h.built hbuilt (map_core_congr hbare)⟩

end Since

end Graph
end LaunchGraph
