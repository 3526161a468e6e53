import LaunchGraph.Proofs.Graph.Renaming
import LaunchGraph.Proofs.Rollback

/-!
# Building anew

Nodes come and go one at a time, and a rebuild derives what they leave behind anew.  It has
to undo all bridges and all owners that deletions fell back to, down to the order in which
edges are kept.  What comes out is the graph that the last execution left with the present
nodes put in one after another, except that the nodes have other keys and other ages.
-/

namespace LaunchGraph

open Relator

variable {ρ : Type}

namespace Graph

/-!
## Settled graphs side by side
-/

/-- Two settled graphs with the same executed nodes and the same owners differ at most in the
keys that they hand out next. -/
theorem Settled.parallel {g h : Graph ρ} (hg : g.Settled) (hh : h.Settled)
    (hexecuted : g.executed = h.executed) (howner : g.ownerOrInitial = h.ownerOrInitial) :
    exists R, BiUnique R ∧ g.Parallel R h := by
  have hkeys : g.keys = h.keys := by rw [hg.keys_eq, hh.keys_eq, hexecuted]
  have hself : forall v, v ∈ g.executed ->
      v.Matches (Shifted g.keys g.nextStamp h.nextStamp) v := by
    intro v hv
    have hmem : v.key ∈ g.keys := key_mem_keys (mem_vertices_of_executed hv)
    refine ⟨Or.inl ⟨rfl, hmem⟩, rfl, rfl, rfl, rfl, rfl, rfl, ?_, ?_⟩
    · rw [(hg.no_links hv).left]
      exact .empty
    · rw [(hg.no_links hv).right]
      exact .empty
  rcases List.cons.inj hexecuted with ⟨hinitial, hhistory⟩
  refine ⟨Shifted g.keys g.nextStamp h.nextStamp, ?_, ⟨?_, ?_, ?_, ?_, ?_⟩, ?_⟩
  · apply Shifted.biUnique hg.sound.keyed.stamp_lt
    rw [hkeys]
    exact hh.sound.keyed.stamp_lt
  · rw [← hinitial]
    exact hself _ List.mem_cons_self
  · rw [← hhistory]
    exact List.forall₂_same.mpr fun v hv => hself v (List.mem_cons_of_mem _ hv)
  · rw [hg.pending_nil, hh.pending_nil]
    exact .nil
  · rw [hg.readers_eq, hh.readers_eq]
    exact .empty
  · intro s
    rw [← howner]
    exact Or.inl ⟨rfl, hg.sound.owned.ownerOrInitial_mem s⟩
  · intro i
    exact Or.inr ⟨i, rfl, rfl⟩

/-!
## Graphs that could have been built anew
-/

/-- The graph `g` is what comes out when its pending nodes are put into `g0`, except for keys
and ages. -/
def Retraces (g0 g : Graph ρ) : Prop :=
  exists scratch R, BiUnique R ∧
    g0.insertNodes (g.pending.map (·.disconnected)) = .ok scratch ∧ g.Parallel R scratch

theorem Settled.retraces {g : Graph ρ} (h : g.Settled) : g.Retraces g := by
  rcases h.parallel h rfl rfl with ⟨R, hR, hparallel⟩
  refine ⟨g, R, hR, ?_, hparallel⟩
  rw [h.pending_nil]
  rfl

section Retracing

variable {g0 g g' : Graph ρ}

theorem Retraces.withCounts (h : g0.Retraces g) (launches : Table String Nat)
    (currentLists : OrderedSet SNodeId) (nextSerial : Nat) (window : FusionWindow) :
    g0.Retraces (g.withCounts launches currentLists nextSerial window) := by
  rcases h with ⟨scratch, R, hR, hrun, hparallel⟩
  exact ⟨scratch, R, hR, hrun, { hparallel with }⟩

theorem Retraces.inserted (h : g0.Retraces g) {n : Node ρ}
    (hrun : g.insertNode n = .ok (g', g.freshKey)) (hi : g.Inserted n g') : g0.Retraces g' := by
  rcases h with ⟨scratch, R, hR, hscratch, hparallel⟩
  rcases hparallel.insertNode hR n _ hrun with ⟨⟨scratch', key⟩, hrun', hparallel'⟩
  refine ⟨scratch', R, hR, ?_, hparallel'⟩
  have htickets : (g'.pending.map (·.disconnected)).map (·.ticket)
      = (g.pending.map (·.disconnected) ++ [n]).map (·.ticket) := by
    rw [List.map_map, List.map_append, List.map_map]
    exact hi.extended.tickets
  rw [g0.insertNodes_congr htickets, insertNodes_append, hscratch, ok_bind, hrun', ok_bind]

theorem Retraces.grown {bank : Bank ρ} {records : List ρ} (h : g0.Retraces g)
    (hgrown : Grown bank g records g') : g0.Retraces g' := by
  induction hgrown with
  | start => exact h
  | recount _ launches currentLists nextSerial ih =>
      exact ih.withCounts launches currentLists nextSerial _
  | insert _ _ ran inserted ih => exact ih.inserted ran inserted

theorem Since.rebuild_parallel (h : g0.Since g) (h0 : g0.Settled) (sort : Bool) :
    exists g' scratch R, g.rebuild sort = .ok g' ∧
      g0.insertNodes (g.pending.map (·.disconnected)) = .ok scratch ∧ BiUnique R ∧
      g'.Parallel R scratch ∧ g'.pending.map (·.ticket) = g.pending.map (·.ticket) ∧
      g'.counts = g.counts := by
  rcases rebuild_eq_insertNodes h.consistent.sound h.consistent.forward
    with ⟨base, hextracted, hrebuild⟩
  have hbase := hextracted.settled
  rcases hbase.parallel h0 (h.executed_extracted h0 hextracted) (h.origin_extracted hextracted)
    with ⟨R, hR, hparallel⟩
  rcases insertNodes_built hbase.built (g.pending.map (·.disconnected))
    with ⟨g', hrun, _, hextended⟩
  rcases hparallel.insertNodes hR _ g' hrun with ⟨scratch, hscratch, hparallel'⟩
  have hsame := hextracted.extended hextended
  refine ⟨g', scratch, R, ?_, hscratch, hR, hparallel', ?_, hsame.counts⟩
  · rw [h.consistent.rebuild_eq, hrebuild, hrun]
  · rw [hsame.tickets, List.map_nil, List.append_nil]

theorem Since.retraces (h : g0.Since g) (h0 : g0.Settled) {sort : Bool}
    (hrun : g.rebuild sort = .ok g') : g0.Retraces g' := by
  rcases h.rebuild_parallel h0 sort with ⟨g1, scratch, R, hrun', hscratch, hR, hparallel, htickets, _⟩
  rw [hrun'] at hrun
  cases hrun
  refine ⟨scratch, R, hR, ?_, hparallel⟩
  have hsame : (g'.pending.map (·.disconnected)).map (·.ticket)
      = (g.pending.map (·.disconnected)).map (·.ticket) := by
    rw [List.map_map, List.map_map]
    exact htickets
  rw [g0.insertNodes_congr hsame, hscratch]

theorem Retraces.rebuild_same (h : g0.Retraces g) (hg : g0.Since g) (h0 : g0.Settled)
    (sort : Bool) : exists g', g.rebuild sort = .ok g' ∧ g.SameUpToKeys g' ∧
      g'.counts = g.counts := by
  rcases h with ⟨scratch, R, hR, hscratch, hparallel⟩
  rcases hg.rebuild_parallel h0 sort with ⟨g', scratch', S, hrun, hscratch', hS, hparallel', _, hcounts⟩
  rw [hscratch] at hscratch'
  cases hscratch'
  have hthere : g.SameUpToKeys scratch := ⟨R, hR, hparallel.toMatches⟩
  have hback : g'.SameUpToKeys scratch := ⟨S, hS, hparallel'.toMatches⟩
  exact ⟨g', hrun, hthere.trans hback.symm, hcounts⟩

end Retracing

end Graph

namespace Session

variable {bank : Bank ρ} {g0 : Graph ρ} {s0 s : Session ρ}

theorem Added.retraces {g g' : Graph ρ} (h : Added bank g g') (hg : g0.Since g)
    (h0 : g0.Settled) (hr : g0.Retraces g) : g0.Retraces g' := by
  cases h with
  | grow grown => exact hr.grown grown
  | recount launches currentLists nextSerial window => exact hr.withCounts ..
  | insert ran inserted => exact hr.inserted ran inserted
  | rebuild ran => exact hg.retraces h0 ran

/-- As long as nothing is deleted, the graph could have been built anew. -/
theorem Follows.retraces {s1 : Session ρ}
    (h : Follows bank (fun s a => s.Allowed a ∧ Action.Adds a) s1 s) (h0 : g0.Settled)
    (h1 : g0.Since s1.graph) (hr : g0.Retraces s1.graph) : g0.Retraces s.graph := by
  have hkept : g0.Since s.graph ∧ g0.Retraces s.graph := by
    apply h.keeps ⟨h1, hr⟩
    intro s a hs ha
    rcases added hs.left.consistent ha.right with ⟨s', hrun, hadded⟩
    exact ⟨s', hrun, hadded.since hs.left, hadded.retraces hs.left h0 hs.right⟩
  exact hkept.right

/-- A rebuild gives what comes out when the pending nodes are put, in their present order, into
the graph in which the session last rested.  Doing it again changes nothing, and neither does
doing it the first time if nothing was deleted since the session rested or was rebuilt. -/
theorem rebuild_from_scratch (h0 : Rested bank s0)
    (h : Follows bank (fun s a => s.Allowed a ∧ Action.Edits a) s0 s) (sort : Bool) :
    exists g scratch, s.graph.rebuild sort = .ok g ∧ g.counts = s.graph.counts ∧
      s0.graph.insertNodes (s.graph.pending.map (·.disconnected)) = .ok scratch ∧
      g.SameUpToKeys scratch ∧
      (forall again, exists g', g.rebuild again = .ok g' ∧ g.SameUpToKeys g' ∧
        g'.counts = g.counts) ∧
      forall s1, (s1 = s0 ∨ exists s' before,
          Follows bank (fun s a => s.Allowed a ∧ Action.Edits a) s0 s' ∧
          s'.perform bank (.rebuild before) = .ok s1) ->
        Follows bank (fun s a => s.Allowed a ∧ Action.Adds a) s1 s -> s.graph.SameUpToKeys g := by
  have hsettled := h0.settled
  have hsince := h0.since_edited h
  rcases hsince.rebuild_parallel hsettled sort
    with ⟨g, scratch, R, hrun, hscratch, hR, hparallel, _, hcounts⟩
  refine ⟨g, scratch, hrun, hcounts, hscratch, ⟨R, hR, hparallel.toMatches⟩, ?_, ?_⟩
  · intro again
    rcases hsince.rebuilt sort with ⟨g1, hrun1, hsince1⟩
    rw [hrun] at hrun1
    cases hrun1
    exact (hsince.retraces hsettled hrun).rebuild_same hsince1 hsettled again
  · intro s1 hs1 hadds
    have hstart : s0.graph.Since s1.graph ∧ s0.graph.Retraces s1.graph := by
      cases hs1 with
      | inl hsame =>
          subst hsame
          exact ⟨hsettled.since, hsettled.retraces⟩
      | inr hrebuilt =>
          rcases hrebuilt with ⟨s', before, hfollows, hperformed⟩
          have hsince' := h0.since_edited hfollows
          rcases hsince'.rebuilt before with ⟨g1, hrun1, hsince1⟩
          rw [perform, hrun1] at hperformed
          cases hperformed
          exact ⟨hsince1, hsince'.retraces hsettled hrun1⟩
    have hretraces := hadds.retraces hsettled hstart.left hstart.right
    rcases hretraces.rebuild_same hsince hsettled sort with ⟨g', hrun', hsame, _⟩
    rw [hrun] at hrun'
    cases hrun'
    exact hsame

theorem rebuild_from_scratch_resumed :
    exists s1 s g scratch, Sample.resumed.perform Sample.bank (.rebuild false) = .ok s1 ∧
      s1.perform Sample.bank (.insertTasks false [Sample.copy]) = .ok s ∧
      s.graph.rebuild true = .ok g ∧
      Sample.rested.graph.insertNodes (s.graph.pending.map (·.disconnected)) = .ok scratch ∧
      g.SameUpToKeys scratch ∧ s.graph.SameUpToKeys g := by
  have hresumed := Sample.resumed_follows
  have hconsistent := (Sample.rested_rested.since_edited hresumed).consistent
  rcases perform_ok Sample.bank hconsistent (a := .rebuild false) trivial
    with ⟨s1, hrebuilt, _⟩
  have hfollows1 := hresumed.step (a := .rebuild false) ⟨trivial, Or.inl trivial⟩ hrebuilt
  have hconsistent1 := (Sample.rested_rested.since_edited hfollows1).consistent
  rcases perform_ok Sample.bank hconsistent1 (a := .insertTasks false [Sample.copy]) trivial
    with ⟨s, hinserted, _⟩
  have hfollows := hfollows1.step (a := .insertTasks false [Sample.copy])
    ⟨trivial, Or.inl trivial⟩ hinserted
  rcases rebuild_from_scratch Sample.rested_rested hfollows true
    with ⟨g, scratch, hrun, _, hscratch, hsame, _, hidentity⟩
  refine ⟨s1, s, g, scratch, hrebuilt, hinserted, hrun, hscratch, hsame, ?_⟩
  exact hidentity s1 (Or.inr ⟨Sample.resumed, false, hresumed, hrebuilt⟩)
    (.step (a := .insertTasks false [Sample.copy]) .refl ⟨trivial, trivial⟩ hinserted)

end Session

end LaunchGraph
