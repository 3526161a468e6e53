import LaunchGraph.Scheduler
import LaunchGraph.Proofs.Graph.Execute
import LaunchGraph.Proofs.Graph.Verify
import LaunchGraph.Proofs.Pass.DeadStores
import LaunchGraph.Proofs.Pass.Demotion
import LaunchGraph.Proofs.Pass.Fusion
import LaunchGraph.Proofs.Pass.Listgen
import LaunchGraph.Proofs.Program

/-!
# Sessions

A session is what a caller does with one graph: actions one after another, each on the
graph that the one before left.  Beside the graph it keeps the nodes that were handed
to the caller, which may be put in later, and a log of the nodes that were executed
since the graph was last cleared.

Whatever the caller does in which order, no action stops with a fault, and the graph
passes every check after each of them.
-/

namespace LaunchGraph

variable {ρ : Type}

/-- What a caller may ask of a graph. -/
inductive Action (ρ : Type) where
  | insertTasks (filter : Bool) (records : List ρ)
  | newNode (record : ρ)
  | insertNode (n : Node ρ)
  | runPass (pass : Pass)
  | setWindow (size : Nat)
  | rebuild (sort : Bool)
  | sortPending
  | deleteNodes (positions : OrderedSet Nat)
  | extractPending
  | markExecuted
  | extractToExecute
  | clear

structure Session (ρ : Type) where
  graph : Graph ρ
  /-- The nodes that the caller was handed. -/
  held : List (Node ρ)
  /-- The nodes executed since the graph was last cleared, first to last. -/
  log : List Entry

namespace Session

def new : Session ρ := ⟨.new, [], []⟩

def perform (bank : Bank ρ) (s : Session ρ) : Action ρ -> Outcome (Session ρ)
  | .insertTasks filter records => do
      let (graph, _) ← s.graph.insertTasks bank filter records
      return { s with graph }
  | .newNode record =>
      let (graph, n) := s.graph.newNode bank record
      return { s with graph, held := s.held ++ [n] }
  | .insertNode n => do
      let (graph, _) ← s.graph.insertNode n
      return { s with graph }
  | .runPass pass => do
      let (graph, _) ← pass.run bank s.graph
      return { s with graph }
  | .setWindow size => return { s with graph := s.graph.setWindow size }
  | .rebuild sort => do return { s with graph := ← s.graph.rebuild sort }
  | .sortPending => do return { s with graph := ← s.graph.sortPending }
  | .deleteNodes positions => do return { s with graph := ← s.graph.deleteNodes positions }
  | .extractPending => do
      let (graph, nodes) ← s.graph.extractPending
      return { s with graph, held := s.held ++ nodes }
  | .markExecuted =>
      return { s with graph := s.graph.markExecuted, log := s.log ++ s.graph.entries }
  | .extractToExecute => do
      let sorted ← s.graph.sortPending
      let (graph, _) ← s.graph.extractToExecute
      return { s with graph, log := s.log ++ sorted.entries }
  | .clear => return { s with graph := s.graph.clear, log := [] }

/-- What the caller keeps to: only pending nodes are deleted, and only nodes that were
handed out are put in. -/
def Allowed (s : Session ρ) : Action ρ -> Prop
  | .deleteNodes positions =>
      forall p, p ∈ positions -> exists v, v ∈ s.graph.pending ∧ v.nodeId = p
  | .insertNode n => n ∈ s.held
  | _ => True

inductive Reachable (bank : Bank ρ) (may : Session ρ -> Action ρ -> Prop) : Session ρ -> Prop where
  | start : Reachable bank may new
  | step {s s' : Session ρ} {a : Action ρ} (before : Reachable bank may s) (allowed : may s a)
      (performed : s.perform bank a = .ok s') : Reachable bank may s'

end Session

/-!
## Tasks of records
-/

theorem Node.DescribedBy.congr {bank : Bank ρ} {m n : Node ρ} (hn : n.DescribedBy bank)
    (h : m.launch = n.launch) : m.DescribedBy bank := by
  intro record hrecord
  rcases Prod.mk.inj h with ⟨hfst, hsnd⟩
  exact hsnd.trans (hn record (hfst.symm.trans hrecord))

theorem Node.DescribedBy.of_launchOf {bank : Bank ρ} {n : Node ρ} {record : ρ}
    (h : n.launch = Graph.launchOf bank record) : n.DescribedBy bank := by
  intro record' hrecord'
  rcases Prod.mk.inj h with ⟨hfst, hsnd⟩
  rw [hrecord'] at hfst
  cases hfst
  exact hsnd

namespace Graph

theorem Renews.described {bank : Bank ρ} {g g' : Graph ρ} (h : g.Renews bank g')
    (hg : g.Described bank) : g'.Described bank := by
  intro v hv
  rcases h v hv with ⟨w, hw, heq⟩ | ⟨record, hrecord, htask⟩
  · exact (hg w hw).congr heq.symm
  · exact .of_launchOf (Prod.ext hrecord htask)

theorem Described.of_launches {bank : Bank ρ} {g g' : Graph ρ} {nodes : List (Node ρ)}
    (h : g'.pending.map (·.launch) = g.pending.map (·.launch) ++ nodes.map (·.launch))
    (hg : g.Described bank) (hnodes : forall n, n ∈ nodes -> n.DescribedBy bank) :
    g'.Described bank := by
  intro v hv
  have hmem : v.launch ∈ g'.pending.map (·.launch) := List.mem_map_of_mem hv
  rw [h, List.mem_append, List.mem_map, List.mem_map] at hmem
  rcases hmem with ⟨w, hw, heq⟩ | ⟨n, hn, heq⟩
  · exact (hg w hw).congr heq.symm
  · exact (hnodes n hn).congr heq.symm

theorem Described.congr {bank : Bank ρ} {g g' : Graph ρ}
    (h : g'.pending.map (·.launch) = g.pending.map (·.launch)) (hg : g.Described bank) :
    g'.Described bank := by
  have hrenews : g.Renews bank g' := by
    refine Renews.of_launches ?_
    intro p hp
    rw [h] at hp
    exact hp
  exact hrenews.described hg

theorem Grown.described {bank : Bank ρ} {g g' : Graph ρ} {records : List ρ}
    (h : Grown bank g records g') (hg : g.Described bank) : g'.Described bank := by
  induction h with
  | start => exact hg
  | recount _ _ _ _ ih => exact ih
  | insert _ launch _ inserted ih =>
      refine ih.of_launches inserted.extended.launches ?_
      intro n hn
      rw [List.mem_singleton.mp hn]
      exact .of_launchOf launch

theorem Settled.described {g : Graph ρ} (h : g.Settled) (bank : Bank ρ) : g.Described bank := by
  intro v hv
  rw [h.pending_nil] at hv
  cases hv

theorem Deleted.described {bank : Bank ρ} {g g' : Graph ρ} {doomed : List NodeKey}
    (h : g.Deleted doomed g') (hg : g.Described bank) : g'.Described bank := by
  intro v hv
  have hmem : v.launch ∈ g'.pending.map (·.launch) := List.mem_map_of_mem hv
  rw [h.map_pending fun _ => rfl] at hmem
  rcases List.mem_map.mp hmem with ⟨w, hw, heq⟩
  exact (hg w (List.mem_filter.mp hw).left).congr heq.symm

/-!
## Passes and rebuilds
-/

theorem run_ok {g : Graph ρ} (bank : Bank ρ) (hg : g.Consistent) (pass : Pass) :
    exists g' changed, pass.run bank g = .ok (g', changed) ∧ g.Rebuilt g' ∧
      g.Renews bank g' := by
  cases pass with
  | listgen =>
      rcases optimizeListgen_ok hg with ⟨g', changed, hrun, hrebuilt, hrelisted⟩
      exact ⟨g', changed, hrun, hrebuilt, hrelisted.renews bank⟩
  | deadStores =>
      rcases eliminateDeadStores_ok bank hg.sound hg.forward
        with ⟨g', changed, hrun, hrebuilt, hswept⟩
      exact ⟨g', changed, hrun, hrebuilt, hswept.renews⟩
  | demotion =>
      rcases demoteActivations_ok bank hg.sound hg.forward
        with ⟨g', changed, hrun, hrebuilt, hdemoted⟩
      exact ⟨g', changed, hrun, hrebuilt, hdemoted.renews⟩
  | fusion =>
      rcases fuse_ok bank hg.sound hg.forward
        with ⟨g', changed, groups, hrun, hrebuilt, hregrouped⟩
      exact ⟨g', changed, hrun, hrebuilt, hregrouped.renews⟩

theorem rebuild_ok {g : Graph ρ} (hg : g.Consistent) (sort : Bool) :
    exists g' base, g.rebuild sort = .ok g' ∧ g.Extracted base ∧
      g'.Built base.ownerOrInitial ∧
      g'.executed.map Vertex.bare = g.executed.map Vertex.bare ∧
      g'.pending.map (·.launch) = g.pending.map (·.launch) := by
  rcases rebuild_built hg.sound hg.forward
    with ⟨g', base, hrun, hextracted, hbuilt, hbare, hlaunches, _⟩
  exact ⟨g', base, (hg.rebuild_eq sort).trans hrun, hextracted, hbuilt, hbare, hlaunches⟩

end Graph

/-!
## One action
-/

namespace Session

def Described (bank : Bank ρ) (s : Session ρ) : Prop :=
  s.graph.Described bank ∧ forall n, n ∈ s.held -> n.DescribedBy bank

def Deletable (s : Session ρ) : Action ρ -> Prop
  | .deleteNodes positions =>
      forall p, p ∈ positions -> exists v, v ∈ s.graph.pending ∧ v.nodeId = p
  | _ => True

def Action.Described (bank : Bank ρ) : Action ρ -> Prop
  | .insertNode n => n.DescribedBy bank
  | _ => True

/-- Only a deletion leaves edges that the sequence does not call for. -/
def Action.Builds : Action ρ -> Prop
  | .deleteNodes _ => False
  | _ => True

structure Stepped (bank : Bank ρ) (s : Session ρ) (a : Action ρ) (s' : Session ρ) : Prop where
  consistent : s'.graph.Consistent
  built : Action.Builds a -> (exists origin, s.graph.Built origin) ->
    exists origin, s'.graph.Built origin
  described : Action.Described bank a -> s.Described bank -> s'.Described bank

section Steps

variable {bank : Bank ρ} {s s' : Session ρ} {a : Action ρ}

theorem Stepped.of_built {origin : State -> NodeKey} (hbuilt : s'.graph.Built origin)
    (hdescribed : Action.Described bank a -> s.Described bank -> s'.Described bank) :
    Stepped bank s a s' :=
  ⟨hbuilt.consistent, fun _ _ => ⟨origin, hbuilt⟩, hdescribed⟩

theorem Stepped.of_settled (hsettled : s'.graph.Settled)
    (hheld : forall n, n ∈ s'.held -> n ∈ s.held) : Stepped bank s a s' :=
  .of_built hsettled.built fun _ hs =>
    ⟨hsettled.described bank, fun n hn => hs.right n (hheld n hn)⟩

theorem perform_insertTasks_ok (hs : s.graph.Consistent) (filter : Bool) (records : List ρ) :
    exists s', s.perform bank (.insertTasks filter records) = .ok s' ∧
      Stepped bank s (.insertTasks filter records) s' := by
  rcases Graph.insertTasks_ok bank hs.sound filter records with ⟨g', kept, hrun, hgrown, _⟩
  refine ⟨{ s with graph := g' }, ?_, hgrown.consistent hs, ?_, ?_⟩
  · rw [perform, hrun]
    rfl
  · rintro _ ⟨origin, hbuilt⟩
    exact ⟨origin, hgrown.built hbuilt⟩
  · intro _ hdescribed
    exact ⟨hgrown.described hdescribed.left, hdescribed.right⟩

theorem perform_newNode_eq (bank : Bank ρ) (s : Session ρ) (record : ρ) :
    exists launches serial n, s.perform bank (.newNode record) = .ok { s with
        graph := s.graph.withCounts launches s.graph.currentLists serial s.graph.window,
        held := s.held ++ [n] } ∧
      n.launch = Graph.launchOf bank record := by
  rcases s.graph.newNodeOf_eq record (bank.describe record)
    with ⟨launches, serial, n, hrun, _, hlaunch⟩
  refine ⟨launches, serial, n, ?_, hlaunch⟩
  show (let r := s.graph.newNodeOf record (bank.describe record)
    pure { s with graph := r.1, held := s.held ++ [r.2] }) = _
  rw [hrun]
  rfl

theorem perform_newNode_ok (hs : s.graph.Consistent) (record : ρ) :
    exists s', s.perform bank (.newNode record) = .ok s' ∧
      Stepped bank s (.newNode record) s' := by
  rcases perform_newNode_eq bank s record with ⟨launches, serial, n, hrun, hlaunch⟩
  refine ⟨_, hrun, hs.withCounts .., ?_, ?_⟩
  · rintro _ ⟨origin, hbuilt⟩
    exact ⟨origin, hbuilt.withCounts ..⟩
  · intro _ hdescribed
    refine ⟨hdescribed.left, ?_⟩
    intro m hm
    rcases List.mem_append.mp hm with hm | hm
    · exact hdescribed.right m hm
    · rw [List.mem_singleton.mp hm]
      exact .of_launchOf hlaunch

theorem perform_insertNode_ok (hs : s.graph.Consistent) (n : Node ρ) :
    exists s', s.perform bank (.insertNode n) = .ok s' ∧ Stepped bank s (.insertNode n) s' := by
  rcases Graph.insertNode_ok hs.sound n with ⟨g', hrun, hinserted⟩
  refine ⟨{ s with graph := g' }, ?_, hinserted.consistent hs, ?_, ?_⟩
  · rw [perform, hrun]
    rfl
  · rintro _ ⟨origin, hbuilt⟩
    exact ⟨origin, hinserted.built hbuilt⟩
  · intro hn hdescribed
    refine ⟨hdescribed.left.of_launches hinserted.extended.launches ?_, hdescribed.right⟩
    intro m hm
    rw [List.mem_singleton.mp hm]
    exact hn

theorem perform_runPass_eq {pass : Pass} {g' : Graph ρ} {changed : Bool}
    (hrun : pass.run bank s.graph = .ok (g', changed)) :
    s.perform bank (.runPass pass) = .ok { s with graph := g' } := by
  rw [perform, hrun]
  rfl

theorem perform_runPass_ok (hs : s.graph.Consistent) (pass : Pass) :
    exists s', s.perform bank (.runPass pass) = .ok s' ∧ Stepped bank s (.runPass pass) s' := by
  rcases Graph.run_ok bank hs pass with ⟨g', changed, hrun, hrebuilt, hrenews⟩
  refine ⟨{ s with graph := g' }, perform_runPass_eq hrun, hrebuilt.consistent hs, ?_, ?_⟩
  · intro _ hbuilt
    rcases hrebuilt with rfl | hbuilt'
    · exact hbuilt
    · exact hbuilt'
  · intro _ hdescribed
    exact ⟨hrenews.described hdescribed.left, hdescribed.right⟩

theorem perform_rebuild_ok (hs : s.graph.Consistent) (sort : Bool) :
    exists s', s.perform bank (.rebuild sort) = .ok s' ∧ Stepped bank s (.rebuild sort) s' := by
  rcases Graph.rebuild_ok hs sort with ⟨g', base, hrun, _, hbuilt, _, hlaunches⟩
  refine ⟨{ s with graph := g' }, ?_, .of_built hbuilt ?_⟩
  · rw [perform, hrun]
    rfl
  · intro _ hdescribed
    exact ⟨hdescribed.left.congr hlaunches, hdescribed.right⟩

theorem perform_deleteNodes_ok (hs : s.graph.Consistent) {positions : OrderedSet Nat}
    (hpositions : s.Deletable (.deleteNodes positions)) :
    exists s', s.perform bank (.deleteNodes positions) = .ok s' ∧
      Stepped bank s (.deleteNodes positions) s' := by
  rcases Graph.deleteNodes_ok hs.sound hs.forward hpositions
    with ⟨doomed, g', hrun, hkeysAt, hdeleted⟩
  refine ⟨{ s with graph := g' }, ?_,
    hdeleted.consistent (fun k hk => hkeysAt.pending hk) hs, fun hb => hb.elim, ?_⟩
  · rw [perform, hrun]
    rfl
  · intro _ hdescribed
    exact ⟨hdeleted.described hdescribed.left, hdescribed.right⟩

theorem perform_extractPending_ok (hs : s.graph.Consistent) :
    exists s', s.perform bank .extractPending = .ok s' ∧ Stepped bank s .extractPending s' := by
  rcases Graph.extractPending_ok hs.sound hs.forward with ⟨base, hrun, hextracted⟩
  refine ⟨{ s with graph := base, held := s.held ++ s.graph.pending.map (·.disconnected) }, ?_,
    .of_built hextracted.settled.built ?_⟩
  · rw [perform, hrun]
    rfl
  · intro _ hdescribed
    refine ⟨hextracted.settled.described bank, ?_⟩
    intro n hn
    rcases List.mem_append.mp hn with hn | hn
    · exact hdescribed.right n hn
    · rcases List.mem_map.mp hn with ⟨v, hv, rfl⟩
      exact (hdescribed.left v hv).congr rfl

/-- Every action goes through in a consistent graph, and leaves one. -/
theorem perform_ok (bank : Bank ρ) (hs : s.graph.Consistent) (ha : s.Deletable a) :
    exists s', s.perform bank a = .ok s' ∧ Stepped bank s a s' := by
  have hsort := Graph.sortPending_eq hs.sound hs.forward hs.aged
  cases a with
  | insertTasks filter records => exact perform_insertTasks_ok hs filter records
  | newNode record => exact perform_newNode_ok hs record
  | insertNode n => exact perform_insertNode_ok hs n
  | runPass pass => exact perform_runPass_ok hs pass
  | setWindow size =>
      refine ⟨_, rfl, hs.withCounts .., ?_, fun _ hdescribed => hdescribed⟩
      rintro _ ⟨origin, hbuilt⟩
      exact ⟨origin, hbuilt.withCounts ..⟩
  | rebuild sort => exact perform_rebuild_ok hs sort
  | sortPending =>
      refine ⟨s, ?_, hs, fun _ hbuilt => hbuilt, fun _ hdescribed => hdescribed⟩
      rw [perform, hsort]
      rfl
  | deleteNodes positions => exact perform_deleteNodes_ok hs ha
  | extractPending => exact perform_extractPending_ok hs
  | markExecuted => exact ⟨_, rfl, .of_settled hs.markExecuted fun n hn => hn⟩
  | extractToExecute =>
      rcases hs.extractToExecute with ⟨g', hrun, hsettled, _, _⟩
      refine ⟨{ s with graph := g', log := s.log ++ s.graph.entries }, ?_,
        .of_settled hsettled fun n hn => hn⟩
      rw [perform, hsort, hrun]
      rfl
  | clear => exact ⟨_, rfl, .of_settled (Graph.clear_settled hs.sound) fun n hn => hn⟩

theorem perform_stepped (hs : s.graph.Consistent) (ha : s.Deletable a)
    (hrun : s.perform bank a = .ok s') : Stepped bank s a s' := by
  rcases perform_ok bank hs ha with ⟨s1, hrun1, hstepped⟩
  rw [hrun1] at hrun
  cases hrun
  exact hstepped

end Steps

/-!
## All sessions
-/

theorem Allowed.deletable {s : Session ρ} {a : Action ρ} (h : s.Allowed a) : s.Deletable a := by
  cases a with
  | deleteNodes positions => exact h
  | _ => trivial

theorem Allowed.described {bank : Bank ρ} {s : Session ρ} {a : Action ρ} (h : s.Allowed a)
    (hs : s.Described bank) : Action.Described bank a := by
  cases a with
  | insertNode n => exact hs.right n h
  | _ => trivial

theorem new_described (bank : Bank ρ) : (new : Session ρ).Described bank := by
  refine ⟨Graph.new_settled.described bank, ?_⟩
  intro n hn
  cases hn

theorem Reachable.mono {bank : Bank ρ} {may may' : Session ρ -> Action ρ -> Prop} {s : Session ρ}
    (h : Reachable bank may s) (hmay : forall s a, may s a -> may' s a) :
    Reachable bank may' s := by
  induction h with
  | start => exact .start
  | step _ allowed performed ih => exact .step ih (hmay _ _ allowed) performed

theorem Reachable.run {bank : Bank ρ} {may : Session ρ -> Action ρ -> Prop} {s s' : Session ρ}
    (h : Reachable bank may s) {actions : List (Action ρ)}
    (hmay : forall a, a ∈ actions -> forall s, may s a)
    (hrun : actions.foldlM (perform bank) s = .ok s') : Reachable bank may s' := by
  induction actions generalizing s with
  | nil =>
      cases hrun
      exact h
  | cons a actions ih =>
      rw [List.foldlM_cons] at hrun
      cases hperform : s.perform bank a with
      | error e =>
          rw [hperform] at hrun
          cases hrun
      | ok s1 =>
          rw [hperform, ok_bind] at hrun
          exact ih (h.step (hmay a (List.mem_cons_self ..) s) hperform)
            (fun b hb => hmay b (List.mem_cons_of_mem _ hb)) hrun

theorem Reachable.consistent {bank : Bank ρ} {may : Session ρ -> Action ρ -> Prop}
    {s : Session ρ} (h : Reachable bank may s) (hmay : forall s a, may s a -> s.Deletable a) :
    s.graph.Consistent := by
  induction h with
  | start => exact Graph.new_settled.built.consistent
  | step _ allowed performed ih =>
      exact (perform_stepped ih (hmay _ _ allowed) performed).consistent

theorem Reachable.described {bank : Bank ρ} {s : Session ρ} (h : Reachable bank Allowed s) :
    s.Described bank := by
  induction h with
  | start => exact new_described bank
  | step before allowed performed ih =>
      have hconsistent := before.consistent fun _ _ h => h.deletable
      have hstepped := perform_stepped hconsistent allowed.deletable performed
      exact hstepped.described (allowed.described ih) ih

/-- Whatever actions came before, the next one goes through, and leaves a graph that
passes every check. -/
theorem reachable_verified {bank : Bank ρ} {s : Session ρ} (h : Reachable bank Allowed s)
    {a : Action ρ} (ha : s.Allowed a) :
    exists s', s.perform bank a = .ok s' ∧ s'.graph.verify bank false = .ok () ∧
      (bank.Agrees -> s'.graph.verify bank true = .ok ()) := by
  have hconsistent := h.consistent fun _ _ h => h.deletable
  rcases perform_ok bank hconsistent ha.deletable with ⟨s', hrun, hstepped⟩
  refine ⟨s', hrun, Graph.verify_ok bank hstepped.consistent, ?_⟩
  intro hbank
  have hdescribed := hstepped.described (ha.described h.described) h.described
  exact Graph.verify_tasks_ok hstepped.consistent hbank hdescribed.left

end Session

namespace Sample

def held : Session (Program Task) :=
  ⟨(Graph.new.newNode bank fill).1, [(Graph.new.newNode bank fill).2], []⟩

def inserted : Session (Program Task) :=
  match Session.new.perform bank (.insertTasks true [fill, copy]) with
  | .ok s => s
  | .error _ => .new

end Sample

namespace Session

theorem reachable_verified_held :
    exists n s', n ∈ Sample.held.held ∧ Sample.held.perform Sample.bank (.insertNode n) = .ok s' ∧
      s'.graph.verify Sample.bank false = .ok () ∧ s'.graph.verify Sample.bank true = .ok () := by
  have hheld : Reachable Sample.bank Allowed Sample.held :=
    .step (a := .newNode Sample.fill) .start trivial rfl
  have hagrees : Sample.bank.Agrees := by
    intro record task h
    cases h
    exact ⟨rfl, rfl⟩
  have hmem : (Graph.new.newNode Sample.bank Sample.fill).2 ∈ Sample.held.held :=
    List.mem_singleton.mpr rfl
  rcases reachable_verified hheld (a := .insertNode _) hmem with ⟨s', hrun, hplain, htasks⟩
  exact ⟨_, s', hmem, hrun, hplain, htasks hagrees⟩

end Session

end LaunchGraph
