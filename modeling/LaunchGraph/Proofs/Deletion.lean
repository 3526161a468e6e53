import LaunchGraph.Proofs.Hazards
import LaunchGraph.Proofs.Rollback

/-!
# What a deletion leaves

Deleting pending nodes eliminates them on every state: between nodes that are left, ways of edges
on the state are neither broken nor made, and nothing speaks of deleted nodes any more.  A state
that one of them owned falls back to the last pending node that writes it, or to the node that
owned it when the session last rested.  This holds however many nodes were deleted before.

Executed nodes are not deleted.  The lookup of the nodes finds out, before anything is changed.
-/

namespace LaunchGraph

open Relation

variable {ρ : Type}

namespace Graph

/-!
## Elimination
-/

/-- The graph `g'` is `g` without the pending nodes in `doomed`.  What is left is connected as
before, and states that were owned by deleted nodes fall back, at last to `origin`. -/
structure Eliminates (g : Graph ρ) (doomed : List NodeKey) (origin : State -> NodeKey)
    (g' : Graph ρ) : Prop where
  executed : g'.executed.map Vertex.core = g.executed.map Vertex.core
  pending : g'.pending.map Vertex.core
    = (g.pending.filter fun v => decide (v.key ∉ doomed)).map Vertex.core
  numbered : g'.Numbered
  way_iff : forall t u v, u ∉ doomed -> v ∉ doomed ->
    (TransGen (g'.Along t) u v ↔ TransGen (g.Along t) u v)
  edges : forall v t k, v ∈ g'.vertices -> k ∈ v.inputs.get t ∨ k ∈ v.outputs.get t -> k ∉ doomed
  owners : forall t k, g'.owners.get? t = some k -> k ∉ doomed
  readers : forall t k, k ∈ g'.readers.get t -> k ∉ doomed
  owner_kept : forall t, g.ownerOrInitial t ∉ doomed -> g'.owners.get? t = g.owners.get? t
  owner_fallen : forall t, g.ownerOrInitial t ∈ doomed ->
    NearestWriter origin t g'.entries (g'.ownerOrInitial t)

section Elimination

variable {g g' : Graph ρ} {doomed : List NodeKey} {origin : State -> NodeKey}

theorem Deleted.owner_kept (h : g.Deleted doomed g') {t : State}
    (ht : g.ownerOrInitial t ∉ doomed) : g'.owners.get? t = g.owners.get? t := by
  cases ho : g.owners.get? t with
  | none => exact h.owners.none t ho
  | some k =>
      apply h.owners.kept t k ho
      rw [ownerOrInitial, ho] at ht
      exact ht

theorem Deleted.eliminates (h : g.Deleted doomed g')
    (hdoomed : forall k, k ∈ doomed -> k ∈ g.pendingKeys) (hg : g.Threaded origin) :
    g.Eliminates doomed origin g' := by
  have hsound := hg.consistent.sound
  have hinitial : g.initial.key ∉ doomed :=
    fun hin => hsound.keyed.initial_not_pending (hdoomed _ hin)
  refine ⟨h.executed, h.pending, h.sound.numbered, fun t u v hu hv => h.way_iff hu hv, ?_, ?_, ?_,
    fun t => h.owner_kept, ?_⟩
  · intro v t k hv hk
    have hfind := find?_of_mem h.sound.keyed.nodup hv
    cases hk with
    | inl hin =>
        have henters : g'.Enters k v.key t := by
          rw [Enters, inputsOf_of_find? hfind]
          exact hin
        exact ((h.enters_iff k v.key t).mp henters).left
    | inr hout =>
        have hleaves : g'.Leaves v.key k t := by
          rw [Leaves, outputsOf_of_find? hfind]
          exact hout
        exact ((h.enters_iff v.key k t).mp ((h.sound.wired.mirrored _ _ t).mp hleaves)).right.left
  · intro t k hk
    exact (h.owners.cases hsound hinitial hk).left
  · intro t k hk
    exact ((h.mem_readers t k).mp hk).right
  · intro t _
    exact (h.threaded hdoomed hg).owner_nearest t

theorem Eliminates.congr (h : g.Eliminates doomed origin g') {doomed' : List NodeKey}
    (hsame : forall k, k ∈ doomed' ↔ k ∈ doomed) : g.Eliminates doomed' origin g' := by
  refine ⟨h.executed, ?_, h.numbered, ?_, ?_, ?_, ?_, ?_, ?_⟩
  · rw [h.pending]
    simp only [hsame]
  · intro t u v hu hv
    rw [hsame] at hu hv
    exact h.way_iff t u v hu hv
  · intro v t k hv hk
    rw [hsame]
    exact h.edges v t k hv hk
  · intro t k hk
    rw [hsame]
    exact h.owners t k hk
  · intro t k hk
    rw [hsame]
    exact h.readers t k hk
  · intro t ht
    rw [hsame] at ht
    exact h.owner_kept t ht
  · intro t ht
    rw [hsame] at ht
    exact h.owner_fallen t ht

end Elimination

/-!
## Executed nodes
-/

theorem Numbered.mem_executed_nodeIds {g : Graph ρ} (hg : g.Numbered) {p : Nat} :
    (exists w, w ∈ g.executed ∧ w.nodeId = p) ↔ p < g.firstPending := by
  rw [← List.mem_map, hg.executed_nodeIds, List.mem_range]
  rfl

/-- Executed nodes come first, so that the lookup meets one of them first. -/
theorem deleteNodes_executed {g : Graph ρ} (hg : g.Numbered) {positions : OrderedSet Nat}
    (hexecuted : exists v, v ∈ g.executed ∧ v.nodeId ∈ positions) :
    exists w, w ∈ g.executed ∧ w.nodeId ∈ positions ∧
      (forall p, p ∈ positions -> w.nodeId ≤ p) ∧
      positions.toList.mapM g.deletableAt = .error (.deleteExecuted w.label) ∧
      g.deleteNodes positions = .error (.deleteExecuted w.label) := by
  rcases hexecuted with ⟨v, hv, hmem⟩
  cases hlist : positions.toList with
  | nil =>
      rw [OrderedSet.mem_def, hlist] at hmem
      cases hmem
  | cons p rest =>
      have hincreasing := positions.increasing
      rw [hlist, List.pairwise_cons] at hincreasing
      have hfirst : forall q, q ∈ positions -> p ≤ q := by
        intro q hq
        rw [OrderedSet.mem_def, hlist] at hq
        rcases List.mem_cons.mp hq with rfl | hq
        · exact Nat.le_refl _
        · exact Nat.le_of_lt (hincreasing.left q hq)
      have hbefore : p < g.firstPending :=
        Nat.lt_of_le_of_lt (hfirst _ hmem) (hg.mem_executed_nodeIds.mp ⟨v, hv, rfl⟩)
      rcases hg.mem_executed_nodeIds.mpr hbefore with ⟨w, hw, rfl⟩
      have hat : g.deletableAt w.nodeId = .error (.deleteExecuted w.label) := by
        have hnot : w.isPending = false := by
          rw [Node.isPending, hg.executedIds w hw]
          rfl
        rw [deletableAt, hg.vertexAt_nodeId (mem_vertices_of_executed hw), ok_bind, hnot]
        rfl
      have hlookup : (w.nodeId :: rest).mapM g.deletableAt
          = .error (.deleteExecuted w.label) := by
        rw [List.mapM_cons, hat]
        rfl
      have hempty : positions.isEmpty = false := by
        rw [OrderedSet.isEmpty, hlist]
        rfl
      refine ⟨w, hw, ?_, hfirst, hlookup, ?_⟩
      · rw [OrderedSet.mem_def, hlist]
        exact List.mem_cons_self ..
      · rw [deleteNodes, hempty, if_neg Bool.false_ne_true, hlist, hlookup]
        rfl

end Graph

namespace Session

/-!
## All sessions
-/

section Directness

variable {bank : Bank ρ} {s s' : Session ρ} {a : Action ρ}

theorem Added.direct {g g' : Graph ρ} (h : Added bank g g') (hg : g.Consistent)
    (hd : g.Direct) : g'.Direct := by
  cases h with
  | grow grown => exact grown.direct hg.sound hd
  | recount launches currentLists nextSerial window => exact hd.withCounts ..
  | insert _ inserted => exact inserted.direct hg.sound hd
  | @rebuild sort _ ran =>
      rcases Graph.rebuild_ok hg sort with ⟨g1, _, hrun, _, hbuilt, _⟩
      rw [hrun] at ran
      cases ran
      exact hbuilt.direct

/-- Whatever the caller does, no edge passes over a writer. -/
theorem Reachable.direct (h : Reachable bank Allowed s) : s.graph.Direct := by
  induction h with
  | start => exact Graph.new_settled.built.direct
  | @step s s' a before allowed performed ih =>
      have hs := before.consistent fun _ _ h => h.deletable
      have hadds : Action.Adds a -> s'.graph.Direct := by
        intro ha
        rcases added hs ha with ⟨s1, hrun, hadded⟩
        rw [hrun] at performed
        cases performed
        exact hadded.direct hs ih
      have hrests : Action.Rests a -> s'.graph.Direct := by
        intro ha
        exact (Rested.rest before ha performed).settled.built.direct
      cases a with
      | runPass pass =>
          rcases Graph.run_ok bank hs pass with ⟨g', changed, hrun, hrebuilt, _⟩
          rw [perform_runPass_eq hrun] at performed
          cases performed
          rcases hrebuilt with rfl | ⟨origin, hbuilt⟩
          · exact ih
          · exact hbuilt.direct
      | deleteNodes positions =>
          rcases Graph.deleteNodes_ok hs.sound hs.forward allowed
            with ⟨doomed, g', hrun, hkeysAt, hdeleted⟩
          rw [perform, hrun] at performed
          cases performed
          exact hdeleted.direct (fun k hk => hkeysAt.pending hk) hs ih
      | extractPending =>
          rcases Graph.extractPending_ok hs.sound hs.forward with ⟨base, hrun, hextracted⟩
          rw [perform, hrun] at performed
          cases performed
          exact hextracted.settled.built.direct
      | insertTasks filter records => exact hadds trivial
      | newNode record => exact hadds trivial
      | insertNode n => exact hadds trivial
      | setWindow size => exact hadds trivial
      | rebuild sort => exact hadds trivial
      | sortPending => exact hadds trivial
      | markExecuted => exact hrests trivial
      | extractToExecute => exact hrests trivial
      | clear => exact hrests trivial

end Directness

/-- Adding, deleting and executing in any order is adding and deleting since the session last
rested. -/
theorem Reachable.exists_rested {bank : Bank ρ} {s : Session ρ}
    (h : Reachable bank (fun s a => s.Allowed a ∧ (Action.Edits a ∨ Action.Rests a)) s) :
    exists s0, Rested bank s0 ∧ Follows bank (fun s a => s.Allowed a ∧ Action.Edits a) s0 s := by
  induction h with
  | start => exact ⟨_, .new, .refl⟩
  | @step s s' a before allowed performed ih =>
      cases allowed.right with
      | inl edits =>
          rcases ih with ⟨s0, h0, hfollows⟩
          exact ⟨s0, h0, hfollows.step ⟨allowed.left, edits⟩ performed⟩
      | inr rests =>
          exact ⟨s', .rest (before.mono fun _ _ h => h.left) rests performed, .refl⟩

/-- Pending nodes are eliminated state by state.  Where a position is that of an executed node,
the lookup stops at the first such node, and nothing is deleted. -/
theorem deletion_exact {bank : Bank ρ} {s0 s : Session ρ} (h0 : Rested bank s0)
    (h : Follows bank (fun s a => s.Allowed a ∧ Action.Edits a) s0 s)
    (positions : OrderedSet Nat) :
    (s.Allowed (.deleteNodes positions) ->
      exists g', s.perform bank (.deleteNodes positions) = .ok { s with graph := g' } ∧
        s.graph.Eliminates (s.graph.keysAt positions) s0.graph.ownerOrInitial g') ∧
    ((exists v, v ∈ s.graph.executed ∧ v.nodeId ∈ positions) ->
      exists w, w ∈ s.graph.executed ∧ w.nodeId ∈ positions ∧
        (forall p, p ∈ positions -> w.nodeId ≤ p) ∧
        positions.toList.mapM s.graph.deletableAt = .error (.deleteExecuted w.label) ∧
        s.perform bank (.deleteNodes positions) = .error (.deleteExecuted w.label) ∧
        (Fault.deleteExecuted w.label).message = "cannot delete executed node " ++ w.label) := by
  have hsince := h0.since_edited h
  have hdirect := (h0.reachable.follow h fun _ _ may => may.left).direct
  have hthreaded : s.graph.Threaded s0.graph.ownerOrInitial :=
    ⟨hsince.consistent, hsince.rooted, hdirect⟩
  have hsound := hsince.consistent.sound
  constructor
  · intro hallowed
    rcases Graph.deleteNodes_ok hsound hsince.consistent.forward hallowed
      with ⟨doomed, g', hrun, hkeysAt, hdeleted⟩
    refine ⟨g', ?_, ?_⟩
    · rw [perform, hrun]
      rfl
    · exact (hdeleted.eliminates (fun k hk => hkeysAt.pending hk) hthreaded).congr hkeysAt.mem_iff
  · intro hexecuted
    rcases Graph.deleteNodes_executed hsound.numbered hexecuted
      with ⟨w, hw, hin, hfirst, hlookup, hrun⟩
    refine ⟨w, hw, hin, hfirst, hlookup, ?_, rfl⟩
    rw [perform, hrun]
    rfl

end Session

namespace Sample

def stacked : Session (Program Task) :=
  match rested.perform bank (.insertTasks false [fill, fill, fill, copy]) with
  | .ok s => s
  | .error _ => .new

end Sample

namespace Session

theorem deletion_exact_stacked :
    exists s', Sample.stacked.perform Sample.bank (.deleteNodes (.ofList [3, 4])) = .ok s' ∧
      TransGen (s'.graph.Along (Sample.cell 0)) ⟨2⟩ ⟨5⟩ ∧
      NearestWriter Sample.rested.graph.ownerOrInitial (Sample.cell 0) s'.graph.entries
        (s'.graph.ownerOrInitial (Sample.cell 0)) ∧
      exists w, Sample.stacked.perform Sample.bank (.deleteNodes (.ofList [1, 9]))
        = .error (.deleteExecuted w) := by
  have hstacked : Follows Sample.bank (fun s a => s.Allowed a ∧ Action.Edits a)
      Sample.rested Sample.stacked :=
    .step (a := .insertTasks false [Sample.fill, Sample.fill, Sample.fill, Sample.copy]) .refl
      ⟨trivial, Or.inl trivial⟩ rfl
  have hallowed : Sample.stacked.Allowed (.deleteNodes (.ofList [3, 4])) := by
    intro p hp
    rw [OrderedSet.mem_ofList] at hp
    revert p
    decide +kernel
  rcases (deletion_exact Sample.rested_rested hstacked (.ofList [3, 4])).left hallowed
    with ⟨g', hrun, heliminates⟩
  rcases (deletion_exact Sample.rested_rested hstacked (.ofList [1, 9])).right
    (by decide +kernel) with ⟨w, _, _, _, _, hfault, _⟩
  have enters : forall n m : Nat, ⟨n⟩ ∈ (Sample.stacked.graph.inputsOf ⟨m⟩).get (Sample.cell 0) ->
      Sample.stacked.graph.Along (Sample.cell 0) ⟨n⟩ ⟨m⟩ := fun _ _ h => h
  refine ⟨_, hrun, ?_, heliminates.owner_fallen _ (by decide +kernel), w.label, hfault⟩
  apply (heliminates.way_iff _ ⟨2⟩ ⟨5⟩ (by decide +kernel) (by decide +kernel)).mpr
  exact .tail (.tail (.single (enters 2 3 (by decide +kernel))) (enters 3 4 (by decide +kernel)))
    (enters 4 5 (by decide +kernel))

end Session
end LaunchGraph
