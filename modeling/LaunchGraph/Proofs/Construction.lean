import LaunchGraph.Proofs.Session

/-!
# What construction builds

A session that only launches, rebuilds, executes and clears has exactly the edges,
owners and readers that follow from its pending nodes and from the log of what it
executed.  The log stands for the nodes that are gone: each state comes from the last
one in it that wrote the state, and from the initial node if there is none.
-/

namespace LaunchGraph

variable {ρ : Type}

theorem Graph.Built.rebuild {g : Graph ρ} {origin : State -> NodeKey} (hg : g.Built origin)
    (sort : Bool) : exists g', g.rebuild sort = .ok g' ∧ g'.Built origin ∧
      g'.initial.key = g.initial.key := by
  have hconsistent := hg.consistent
  rcases Graph.rebuild_ok hconsistent sort with ⟨g', base, hrun, hextracted, hbuilt, hbare, _⟩
  rw [hextracted.origin hg.sound hconsistent.supplied hg.rooted] at hbuilt
  exact ⟨g', hrun, hbuilt, Graph.initial_key_of_bareExecuted hbare⟩

namespace Session

/-- The actions that build a graph up, as opposed to those that rewrite what is in it. -/
def Action.Constructs : Action ρ -> Prop
  | .insertTasks _ _ => True
  | .newNode _ => True
  | .insertNode _ => True
  | .rebuild _ => True
  | .markExecuted => True
  | .extractToExecute => True
  | .clear => True
  | _ => False

def origin (s : Session ρ) : State -> NodeKey := lastWriter s.graph.initial.key s.log

def Constructed (s : Session ρ) : Prop := s.graph.Built s.origin

theorem new_constructed : (new : Session ρ).Constructed := Graph.new_settled.built

theorem Constructed.executed {s : Session ρ} (hs : s.Constructed) {g : Graph ρ}
    (hsettled : g.Settled) (hinitial : g.initial.key = s.graph.initial.key)
    (howner : g.ownerOrInitial = s.graph.ownerOrInitial) :
    Constructed { s with graph := g, log := s.log ++ s.graph.entries } := by
  have horigin : g.ownerOrInitial = lastWriter g.initial.key (s.log ++ s.graph.entries) := by
    funext t
    rw [howner, hinitial]
    exact (hs.owner_nearest t).eq_lastWriter.symm
  rw [Constructed, origin]
  show g.Built (lastWriter g.initial.key (s.log ++ s.graph.entries))
  rw [← horigin]
  exact hsettled.built

theorem Constructed.with_graph {s : Session ρ} {g : Graph ρ} (hbuilt : g.Built s.origin)
    (hinitial : g.initial.key = s.graph.initial.key) (held : List (Node ρ)) :
    Constructed { s with graph := g, held } := by
  show g.Built (lastWriter g.initial.key s.log)
  rw [hinitial]
  exact hbuilt

theorem perform_constructed (bank : Bank ρ) {s : Session ρ} {a : Action ρ} (hs : s.Constructed)
    (ha : Action.Constructs a) : exists s', s.perform bank a = .ok s' ∧ s'.Constructed := by
  have hconsistent := hs.consistent
  cases a with
  | insertTasks filter records =>
      rcases Graph.insertTasks_ok bank hs.sound filter records with ⟨g', kept, hrun, hgrown, _⟩
      refine ⟨{ s with graph := g' }, ?_, .with_graph (hgrown.built hs) hgrown.initial_key _⟩
      rw [perform, hrun]
      rfl
  | newNode record =>
      rcases perform_newNode_eq bank s record with ⟨launches, serial, n, hrun, _⟩
      exact ⟨_, hrun, .with_graph (hs.withCounts launches _ serial _) rfl _⟩
  | insertNode n =>
      rcases Graph.insertNode_ok hs.sound n with ⟨g', hrun, hinserted⟩
      refine ⟨{ s with graph := g' }, ?_,
        .with_graph (hinserted.built hs) hinserted.initial_key _⟩
      rw [perform, hrun]
      rfl
  | rebuild sort =>
      rcases hs.rebuild sort with ⟨g', hrun, hbuilt, hinitial⟩
      refine ⟨{ s with graph := g' }, ?_, .with_graph hbuilt hinitial _⟩
      rw [perform, hrun]
      rfl
  | markExecuted => exact ⟨_, rfl, hs.executed hconsistent.markExecuted rfl rfl⟩
  | extractToExecute =>
      rcases hconsistent.extractToExecute with ⟨g', hrun, hsettled, hinitial, howner⟩
      refine ⟨_, ?_, hs.executed hsettled hinitial howner⟩
      rw [perform, Graph.sortPending_eq hs.sound hs.forward hs.aged, hrun]
      rfl
  | clear => exact ⟨_, rfl, (Graph.clear_settled hs.sound).built⟩
  | runPass pass => exact ha.elim
  | setWindow size => exact ha.elim
  | sortPending => exact ha.elim
  | deleteNodes positions => exact ha.elim
  | extractPending => exact ha.elim

theorem Reachable.constructed {bank : Bank ρ} {s : Session ρ}
    (h : Reachable bank (fun _ a => Action.Constructs a) s) : s.Constructed := by
  induction h with
  | start => exact new_constructed
  | step _ allowed performed ih =>
      rcases perform_constructed bank ih allowed with ⟨s', hrun, hconstructed⟩
      rw [hrun] at performed
      cases performed
      exact hconstructed

/-- The edges, owners and readers of a graph under construction, read off its sequence.
An edge is there at both of its ends or at none. -/
theorem construction_spec {bank : Bank ρ} {s : Session ρ}
    (h : Reachable bank (fun _ a => Action.Constructs a) s) :
    (forall a, Action.Constructs a -> exists s', s.perform bank a = .ok s') ∧
    (forall u v t, (s.graph.Enters u v t ↔ v ≠ u ∧ CallsFor s.origin s.graph.entries u v t) ∧
      (s.graph.Leaves u v t ↔ v ≠ u ∧ CallsFor s.origin s.graph.entries u v t)) ∧
    (forall t, NearestWriter s.origin t s.graph.entries (s.graph.ownerOrInitial t)) ∧
    (forall t, (s.graph.readers.get t).Nodup ∧
      forall u, u ∈ s.graph.readers.get t ↔ OpenReader t s.graph.entries u) := by
  have hs := h.constructed
  have henters : forall u v t,
      s.graph.Enters u v t ↔ v ≠ u ∧ CallsFor s.origin s.graph.entries u v t := by
    intro u v t
    rw [← hs.enters_iff]
    constructor
    · intro huv
      exact ⟨((hs.forward u v t huv).ne hs.sound.keyed.nodup).symm, huv⟩
    · intro huv
      exact huv.right
  refine ⟨?_, ?_, hs.owner_nearest, ?_⟩
  · intro a ha
    rcases perform_constructed bank hs ha with ⟨s', hrun, _⟩
    exact ⟨s', hrun⟩
  · intro u v t
    exact ⟨henters u v t, (hs.sound.wired.mirrored u v t).trans (henters u v t)⟩
  · intro t
    exact ⟨Links.nodup_get _ t, fun u => hs.mem_readers t u⟩

theorem construction_spec_inserted :
    (exists s', Sample.inserted.perform Sample.bank .extractToExecute = .ok s') ∧
    (Sample.inserted.graph.Enters ⟨1⟩ ⟨2⟩ (Sample.cell 0) ↔
      (⟨2⟩ : NodeKey) ≠ ⟨1⟩ ∧ CallsFor Sample.inserted.origin Sample.inserted.graph.entries
        ⟨1⟩ ⟨2⟩ (Sample.cell 0)) ∧
    NearestWriter Sample.inserted.origin (Sample.cell 1) Sample.inserted.graph.entries
      (Sample.inserted.graph.ownerOrInitial (Sample.cell 1)) := by
  have hinserted : Reachable Sample.bank (fun _ a => Action.Constructs a) Sample.inserted :=
    .step (a := .insertTasks true [Sample.fill, Sample.copy]) .start trivial rfl
  rcases construction_spec hinserted with ⟨hperform, hedges, howners, _⟩
  exact ⟨hperform .extractToExecute trivial, (hedges ⟨1⟩ ⟨2⟩ _).left, howners _⟩

end Session

end LaunchGraph
