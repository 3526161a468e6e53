import LaunchGraph.Proofs.FusionRoots

/-!
# Going back to the last execution

A session rests while nothing is pending: when its graph is new, was just cleared, or has
just been executed.  From there the caller puts nodes in, deletes them, puts them in order
and fuses them.  Taking the pending nodes out undoes all of this: the graph is the one in
which the session rested.
-/

namespace LaunchGraph

variable {ρ : Type}

namespace Session

/-!
## Sessions that follow a session
-/

def Action.Rests : Action ρ -> Prop
  | .markExecuted => True
  | .extractToExecute => True
  | .clear => True
  | _ => False

/-- A session that has just begun, or executed or dropped all pending nodes. -/
inductive Rested (bank : Bank ρ) : Session ρ -> Prop where
  | new : Rested bank new
  | rest {s s' : Session ρ} {a : Action ρ} (before : Reachable bank Allowed s)
      (rests : Action.Rests a) (performed : s.perform bank a = .ok s') : Rested bank s'

inductive Follows (bank : Bank ρ) (may : Session ρ -> Action ρ -> Prop) (s0 : Session ρ) :
    Session ρ -> Prop where
  | refl : Follows bank may s0 s0
  | step {s s' : Session ρ} {a : Action ρ} (before : Follows bank may s0 s) (allowed : may s a)
      (performed : s.perform bank a = .ok s') : Follows bank may s0 s'

def Action.Adds : Action ρ -> Prop
  | .insertTasks _ _ => True
  | .newNode _ => True
  | .insertNode _ => True
  | .setWindow _ => True
  | .rebuild _ => True
  | .sortPending => True
  | _ => False

/-- Adding, and deleting what is pending. -/
def Action.Edits (a : Action ρ) : Prop :=
  Action.Adds a ∨ exists positions, a = .deleteNodes positions

def Action.Arranges (a : Action ρ) : Prop := Action.Edits a ∨ a = .runPass .fusion

section Following

variable {bank : Bank ρ} {may : Session ρ -> Action ρ -> Prop} {s0 s s' : Session ρ}

theorem Reachable.follow (h0 : Reachable bank Allowed s0) (h : Follows bank may s0 s)
    (hmay : forall s a, may s a -> s.Allowed a) : Reachable bank Allowed s := by
  induction h with
  | refl => exact h0
  | step _ allowed performed ih => exact ih.step (hmay _ _ allowed) performed

theorem Follows.mono {may' : Session ρ -> Action ρ -> Prop} (h : Follows bank may s0 s)
    (hmay : forall s a, may s a -> may' s a) : Follows bank may' s0 s := by
  induction h with
  | refl => exact .refl
  | step _ allowed performed ih => exact ih.step (hmay _ _ allowed) performed

theorem Follows.keeps {P : Session ρ -> Prop} (h : Follows bank may s0 s) (h0 : P s0)
    (hstep : forall s a, P s -> may s a -> exists s', s.perform bank a = .ok s' ∧ P s') : P s := by
  induction h with
  | refl => exact h0
  | step _ allowed performed ih =>
      rcases hstep _ _ ih allowed with ⟨s', hrun, hkept⟩
      rw [hrun] at performed
      cases performed
      exact hkept

theorem Action.Rests.allowed {a : Action ρ} (h : Action.Rests a) (s : Session ρ) :
    s.Allowed a := by
  cases a with
  | deleteNodes positions => exact h.elim
  | insertNode n => exact h.elim
  | _ => trivial

theorem Rested.reachable (h : Rested bank s) : Reachable bank Allowed s := by
  cases h with
  | new => exact .start
  | rest before rests performed => exact before.step (rests.allowed _) performed

theorem Rested.settled (h : Rested bank s) : s.graph.Settled := by
  cases h with
  | new => exact Graph.new_settled
  | @rest s1 s a before rests performed =>
      have hs := before.consistent fun _ _ h => h.deletable
      cases a with
      | markExecuted =>
          cases performed
          exact hs.markExecuted
      | extractToExecute =>
          rcases hs.extractToExecute with ⟨g', hrun, hsettled, _⟩
          rw [perform, Graph.sortPending_eq hs.sound hs.forward hs.aged, ok_bind, hrun] at performed
          cases performed
          exact hsettled
      | clear =>
          cases performed
          exact Graph.clear_settled hs.sound
      | _ => exact rests.elim

end Following

/-!
## What editing and fusing keep
-/

section Keeping

variable {bank : Bank ρ} {g0 : Graph ρ} {s : Session ρ} {a : Action ρ}

inductive Added (bank : Bank ρ) (g : Graph ρ) : Graph ρ -> Prop where
  | grow {records : List ρ} {g' : Graph ρ} (grown : Graph.Grown bank g records g') :
      Added bank g g'
  | recount (launches : Table String Nat) (currentLists : OrderedSet SNodeId)
      (nextSerial : Nat) (window : FusionWindow) :
      Added bank g (g.withCounts launches currentLists nextSerial window)
  | insert {n : Node ρ} {g' : Graph ρ} (ran : g.insertNode n = .ok (g', g.freshKey))
      (inserted : g.Inserted n g') : Added bank g g'
  | rebuild {sort : Bool} {g' : Graph ρ} (ran : g.rebuild sort = .ok g') : Added bank g g'

theorem added (hs : s.graph.Consistent) (ha : Action.Adds a) :
    exists s', s.perform bank a = .ok s' ∧ Added bank s.graph s'.graph := by
  cases a with
  | insertTasks filter records =>
      rcases Graph.insertTasks_ok bank hs.sound filter records with ⟨g', kept, hrun, hgrown, _⟩
      refine ⟨{ s with graph := g' }, ?_, .grow hgrown⟩
      rw [perform, hrun]
      rfl
  | newNode record =>
      rcases perform_newNode_eq bank s record with ⟨launches, serial, n, hrun, _⟩
      exact ⟨_, hrun, .recount launches _ serial _⟩
  | insertNode n =>
      rcases Graph.insertNode_ok hs.sound n with ⟨g', hrun, hinserted⟩
      refine ⟨{ s with graph := g' }, ?_, .insert hrun hinserted⟩
      rw [perform, hrun]
      rfl
  | setWindow size => exact ⟨_, rfl, .recount ..⟩
  | rebuild sort =>
      rcases Graph.rebuild_ok hs sort with ⟨g', _, hrun, _⟩
      refine ⟨{ s with graph := g' }, ?_, .rebuild hrun⟩
      rw [perform, hrun]
      rfl
  | sortPending =>
      refine ⟨s, ?_, .recount s.graph.launches s.graph.currentLists s.graph.nextSerial
        s.graph.window⟩
      rw [perform, Graph.sortPending_eq hs.sound hs.forward hs.aged]
      rfl
  | _ => exact ha.elim

theorem Added.since {g g' : Graph ρ} (h : Added bank g g') (hg : g0.Since g) : g0.Since g' := by
  cases h with
  | grow grown => exact hg.grown grown
  | recount launches currentLists nextSerial window => exact hg.withCounts ..
  | insert _ inserted => exact hg.inserted inserted
  | @rebuild sort _ ran =>
      rcases hg.rebuilt sort with ⟨g1, hrun, hsince⟩
      rw [hrun] at ran
      cases ran
      exact hsince

/-- Whatever is put in and deleted, the graph has grown out of the same settled graph. -/
theorem edited (h : g0.Since s.graph) (ha : Action.Edits a) (hd : s.Deletable a) :
    exists s', s.perform bank a = .ok s' ∧ g0.Since s'.graph := by
  cases ha with
  | inl hadds =>
      rcases added h.consistent hadds with ⟨s', hrun, hadded⟩
      exact ⟨s', hrun, hadded.since h⟩
  | inr hdeletes =>
      rcases hdeletes with ⟨positions, rfl⟩
      rcases Graph.deleteNodes_ok h.consistent.sound h.consistent.forward hd
        with ⟨doomed, g', hrun, hkeysAt, hdeleted⟩
      refine ⟨{ s with graph := g' }, ?_, h.deleted hdeleted fun k hk => hkeysAt.pending hk⟩
      rw [perform, hrun]
      rfl

theorem arranged (hbank : bank.UnitesStates) (h : g0.Since s.graph) (ha : Action.Arranges a)
    (hd : s.Deletable a) (hdescribed : s.graph.Described bank) :
    exists s', s.perform bank a = .ok s' ∧ g0.Since s'.graph := by
  cases ha with
  | inl hedits => exact edited h hedits hd
  | inr hfusion =>
      subst hfusion
      rcases h.fused hbank hdescribed with ⟨g', changed, hrun, hsince⟩
      exact ⟨{ s with graph := g' }, perform_runPass_eq hrun, hsince⟩

theorem Rested.since_edited {s0 : Session ρ} (h0 : Rested bank s0)
    (h : Follows bank (fun s a => s.Allowed a ∧ Action.Edits a) s0 s) :
    s0.graph.Since s.graph := by
  apply h.keeps h0.settled.since
  intro s a hs ha
  exact edited hs ha.right ha.left.deletable

theorem Rested.since_arranged {s0 : Session ρ} (hbank : bank.UnitesStates)
    (h0 : Rested bank s0)
    (h : Follows bank (fun s a => s.Allowed a ∧ Action.Arranges a) s0 s) :
    s0.graph.Since s.graph := by
  have hkept : Reachable bank Allowed s ∧ s0.graph.Since s.graph := by
    apply h.keeps ⟨h0.reachable, h0.settled.since⟩
    intro s a hs ha
    rcases arranged hbank hs.right ha.right ha.left.deletable hs.left.described.left
      with ⟨s', hrun, hsince⟩
    exact ⟨s', hrun, hs.left.step ha.left hrun, hsince⟩
  exact hkept.right

end Keeping

/-- Taking the pending nodes out hands them over in order and without edges, and leaves the
graph in which the session last rested. -/
theorem extractPending_rolls_back {bank : Bank ρ} (hbank : bank.UnitesStates)
    {s0 s : Session ρ} (h0 : Rested bank s0)
    (h : Follows bank (fun s a => s.Allowed a ∧ Action.Arranges a) s0 s) :
    exists g, s.graph.extractPending = .ok (g, s.graph.pending.map (·.disconnected)) ∧
      g.vertices = s0.graph.vertices ∧ g.pending = [] ∧
      (forall v, v ∈ g.vertices -> v.inputs = ∅ ∧ v.outputs = ∅) ∧
      g.readers = ∅ ∧ forall t, g.ownerOrInitial t = s0.graph.ownerOrInitial t := by
  have hsince := h0.since_arranged hbank h
  rcases Graph.extractPending_ok hsince.consistent.sound hsince.consistent.forward
    with ⟨g, hrun, hextracted⟩
  have hsettled := hextracted.settled
  have hexecuted := hsince.executed_extracted h0.settled hextracted
  refine ⟨g, hrun, ?_, hsettled.pending_nil, ?_, hsettled.readers_eq, ?_⟩
  · rw [hsettled.vertices_eq, h0.settled.vertices_eq, hexecuted]
  · intro v hv
    rw [hsettled.vertices_eq] at hv
    exact hsettled.no_links hv
  · intro t
    rw [hsince.origin_extracted hextracted]

end Session

namespace Sample

def rested : Session (Program Task) :=
  match [.insertTasks false [fill], .extractToExecute].foldlM (Session.perform bank) .new with
  | .ok s => s
  | .error _ => .new

def resumed : Session (Program Task) :=
  match [.insertTasks false [copy, fill, copy], .deleteNodes (.ofList [3])].foldlM
    (Session.perform bank) rested with
  | .ok s => s
  | .error _ => .new

theorem rested_rested : Session.Rested bank rested :=
  .rest (a := .extractToExecute) (.step (a := .insertTasks false [fill]) .start trivial rfl)
    trivial rfl

theorem resumed_follows :
    Session.Follows bank (fun s a => s.Allowed a ∧ Session.Action.Edits a) rested resumed := by
  apply Session.Follows.step (a := .deleteNodes (.ofList [3]))
    (.step (a := .insertTasks false [copy, fill, copy]) .refl ⟨trivial, Or.inl trivial⟩ rfl)
  · refine ⟨?_, Or.inr ⟨_, rfl⟩⟩
    intro p hp
    rw [OrderedSet.mem_ofList, List.mem_singleton] at hp
    subst hp
    decide +kernel
  · rfl

theorem bank_unitesStates : bank.UnitesStates := by
  have hfaithful := Program.meaning_faithful Bank.tally
  exact ⟨hfaithful.fuse_inputs, hfaithful.fuse_outputs⟩

end Sample

namespace Session

theorem extractPending_rolls_back_resumed :
    exists s g, Sample.resumed.perform Sample.bank (.runPass .fusion) = .ok s ∧
      s.graph.extractPending = .ok (g, s.graph.pending.map (·.disconnected)) ∧
      g.vertices = Sample.rested.graph.vertices ∧
      g.ownerOrInitial (Sample.cell 0) = Sample.rested.graph.ownerOrInitial (Sample.cell 0) ∧
      g.ownerOrInitial (Sample.cell 1) = Sample.rested.graph.initial.key := by
  have hresumed : Follows Sample.bank (fun s a => s.Allowed a ∧ Action.Arranges a)
      Sample.rested Sample.resumed :=
    Sample.resumed_follows.mono fun s a ha => ⟨ha.left, Or.inl ha.right⟩
  have hreachable := Sample.rested_rested.reachable.follow hresumed fun _ _ may => may.left
  have hconsistent := hreachable.consistent fun _ _ h => h.deletable
  rcases perform_ok Sample.bank hconsistent (a := .runPass .fusion) trivial with ⟨s, hfused, _⟩
  have hall := hresumed.step (a := .runPass .fusion) ⟨trivial, Or.inr rfl⟩ hfused
  rcases extractPending_rolls_back Sample.bank_unitesStates Sample.rested_rested hall
    with ⟨g, hrun, hvertices, _, _, _, howner⟩
  exact ⟨s, g, hfused, hrun, hvertices, howner _, (howner _).trans rfl⟩

end Session

end LaunchGraph
