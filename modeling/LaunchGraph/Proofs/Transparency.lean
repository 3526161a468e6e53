import LaunchGraph.Proofs.Construction
import LaunchGraph.Proofs.Rollback
import LaunchGraph.Proofs.Graph.Lockstep
import LaunchGraph.Proofs.Graph.Sources

/-!
# Execution is transparent

A caller who executes what is pending now and then loses most of the executed nodes, all edges
between them and all readers, but none of the writers that nodes to come will read from.  Next
to a caller who does the same and executes nothing, the pending nodes come from the same
writers, and two of them have the same edges.
-/

namespace LaunchGraph

variable {ρ : Type}

/-!
## Last writers by title
-/

def lastTitle (otherwise : TaskHandle × Nat) (titles : List (TaskHandle × Nat)) (s : State) :
    TaskHandle × Nat :=
  (titles.reverse.find? (·.1.task.writes s)).getD otherwise

theorem lastTitle_append_singleton (otherwise : TaskHandle × Nat)
    (l : List (TaskHandle × Nat)) (x : TaskHandle × Nat) (s : State) :
    lastTitle otherwise (l ++ [x]) s
      = if x.1.task.writes s = true then x else lastTitle otherwise l s := by
  rw [lastTitle, List.reverse_append, List.reverse_singleton, List.singleton_append,
    List.find?_cons]
  cases x.1.task.writes s with
  | true => rfl
  | false => rfl

theorem lastTitle_append (otherwise : TaskHandle × Nat) (l m : List (TaskHandle × Nat))
    (s : State) : lastTitle otherwise (l ++ m) s = lastTitle (lastTitle otherwise l s) m s := by
  induction m using List.reverseRecOn with
  | nil => rw [List.append_nil, lastTitle, lastTitle]; rfl
  | append_singleton m x ih =>
      rw [← List.append_assoc, lastTitle_append_singleton, lastTitle_append_singleton, ih]

theorem NearestWriter.mark_mem {origin : State -> NodeKey} {s : State} {l : List (Vertex ρ)}
    {u : NodeKey} {otherwise : TaskHandle × Nat} {before : List (NodeKey × TaskHandle × Nat)}
    (h : NearestWriter origin s (l.map Vertex.entry) u) (horigin : (origin s, otherwise) ∈ before) :
    (u, lastTitle otherwise (l.map (·.title)) s) ∈ before ++ l.map Vertex.mark := by
  induction l using List.reverseRecOn generalizing u with
  | nil =>
      rw [nearestWriter_nil.mp h]
      exact List.mem_append_left _ horigin
  | append_singleton l x ih =>
      rw [List.map_append, List.map_singleton, nearestWriter_append_singleton] at h
      rw [List.map_append, List.map_singleton, List.map_append, List.map_singleton,
        lastTitle_append_singleton, ← List.append_assoc]
      rcases h with ⟨hwrites, rfl⟩ | ⟨hskips, h⟩
      · have hwrites' : x.title.1.task.writes s = true := hwrites
        rw [if_pos hwrites']
        exact List.mem_append_right _ (List.mem_singleton.mpr rfl)
      · have hskips' : ¬x.title.1.task.writes s = true := by
          show ¬x.entry.writes s = true
          rw [hskips]
          exact Bool.false_ne_true
        rw [if_neg hskips']
        exact List.mem_append_left _ (ih h)

namespace Graph

theorem map_mark_vertices (g : Graph ρ) :
    g.vertices.map Vertex.mark = g.executed.map Vertex.mark ++ g.pending.map Vertex.mark :=
  List.map_append

theorem Built.writer_title {g : Graph ρ} {origin : State -> NodeKey} (hg : g.Built origin)
    {before after : List (Vertex ρ)} {v : Vertex ρ} (hsplit : g.pending = before ++ v :: after)
    {s : State} (htouch : v.task.reads s = true ∨ v.task.writes s = true)
    {otherwise : TaskHandle × Nat}
    (horigin : (origin s, otherwise) ∈ g.executed.map Vertex.mark) :
    exists w, w ∈ g.vertices ∧ g.WriterOf v.key s w.key ∧
      w.title = lastTitle otherwise (before.map (·.title)) s := by
  rcases exists_nearestWriter origin s (before.map Vertex.entry) with ⟨u, hu⟩
  have hmark : (u, lastTitle otherwise (before.map (·.title)) s) ∈ g.vertices.map Vertex.mark := by
    rw [map_mark_vertices, hsplit, List.map_append, ← List.append_assoc]
    exact List.mem_append_left _ (hu.mark_mem horigin)
  rcases List.mem_map.mp hmark with ⟨w, hw, heq⟩
  rcases Prod.mk.inj heq with ⟨rfl, htitle⟩
  exact ⟨w, hw, hg.writerOf (entries_split hsplit) htouch hu, htitle⟩

end Graph

namespace Session

/-!
## Two runs
-/

def Action.executes : Action ρ -> Bool
  | .markExecuted => true
  | .extractToExecute => true
  | _ => false

/-- One caller executed nodes of the titles `done`.  The other one did the same apart from
that, and has them pending. -/
structure Twin (m p : Session ρ) (done : List (TaskHandle × Nat)) : Prop where
  constructed : m.Constructed ∧ p.Constructed
  held : m.held = p.held
  counts : m.graph.counts = p.graph.counts
  titles : p.graph.pending.map (·.title) = done ++ m.graph.pending.map (·.title)
  logged : m.log.map (·.task) = done.map (·.1.task)
  unlogged : p.log = []
  source : forall s, (m.origin s, lastTitle p.graph.initial.title done s)
    ∈ m.graph.executed.map Vertex.mark

theorem new_twin : Twin (new : Session ρ) new [] where
  constructed := ⟨new_constructed, new_constructed⟩
  held := rfl
  counts := rfl
  titles := rfl
  logged := rfl
  unlogged := rfl
  source _ := List.mem_singleton.mpr rfl

/-!
## Adding
-/

section Adding

variable {bank : Bank ρ} {m p : Session ρ} {a : Action ρ} {done : List (TaskHandle × Nat)}

theorem Added.built {g g' : Graph ρ} {origin : State -> NodeKey} (h : Added bank g g')
    (hg : g.Built origin) : g'.Built origin ∧ g'.initial.key = g.initial.key := by
  cases h with
  | grow grown => exact ⟨grown.built hg, grown.initial_key⟩
  | recount launches currentLists nextSerial window => exact ⟨hg.withCounts .., rfl⟩
  | insert _ inserted => exact ⟨inserted.built hg, inserted.initial_key⟩
  | @rebuild sort _ ran =>
      rcases hg.rebuild sort with ⟨g1, hrun, hbuilt⟩
      rw [hrun] at ran
      cases ran
      exact hbuilt

/-- The sessions `m'` and `p'`, which were `m` and `p`, handed out the same nodes and gained
nodes with the same titles. -/
structure InStep (m p m' p' : Session ρ) : Prop where
  graphs : Graph.InStep m.graph p.graph m'.graph p'.graph
  held : exists more, m'.held = m.held ++ more ∧ p'.held = p.held ++ more
  logs : m'.log = m.log ∧ p'.log = p.log

theorem InStep.of_graphs {g h : Graph ρ} (hs : Graph.InStep m.graph p.graph g h) :
    InStep m p { m with graph := g } { p with graph := h } :=
  ⟨hs, ⟨[], (List.append_nil _).symm, (List.append_nil _).symm⟩, rfl, rfl⟩

theorem perform_inStep (bank : Bank ρ) (hm : m.graph.Consistent) (hp : p.graph.Consistent)
    (hcounts : m.graph.counts = p.graph.counts) (ha : Action.Adds a) :
    exists m' p', m.perform bank a = .ok m' ∧ p.perform bank a = .ok p' ∧ InStep m p m' p' := by
  have hstart : Graph.InStep m.graph p.graph m.graph p.graph := .refl hm.sound hp.sound hcounts
  cases a with
  | insertTasks filter records =>
      rcases Graph.insertTasks_ok bank hm.sound filter records with ⟨g, kept, hrun, _⟩
      rcases hstart.insertTasks bank filter records _ hrun with ⟨⟨h, count⟩, hrun', hs⟩
      refine ⟨_, _, ?_, ?_, .of_graphs hs⟩
      · rw [perform, hrun]
        rfl
      · rw [perform, hrun']
        rfl
  | newNode record =>
      rcases Graph.newNodeOf_congr hcounts record (bank.describe record)
        with ⟨launches, serial, n, hrun, hrun'⟩
      have hs := hstart.withCounts launches m.graph.currentLists serial m.graph.window
      refine ⟨{ m with graph := _, held := m.held ++ [n] },
        { p with graph := _, held := p.held ++ [n] }, ?_, ?_, hs, ⟨[n], rfl, rfl⟩, rfl, rfl⟩
      · rw [perform, Graph.newNode, hrun]
        rfl
      · rw [perform, Graph.newNode, hrun']
        rfl
  | insertNode n =>
      rcases hstart.insertNode n with ⟨g, h, hrun, hrun', hs⟩
      refine ⟨_, _, ?_, ?_, .of_graphs hs⟩
      · rw [perform, hrun]
        rfl
      · rw [perform, hrun']
        rfl
  | setWindow size => exact ⟨_, _, rfl, rfl, .of_graphs (hstart.setWindow size)⟩
  | rebuild sort =>
      rcases Graph.InStep.rebuild hm hp hcounts sort with ⟨g, h, hrun, hrun', hs⟩
      refine ⟨_, _, ?_, ?_, .of_graphs hs⟩
      · rw [perform, hrun]
        rfl
      · rw [perform, hrun']
        rfl
  | sortPending =>
      refine ⟨_, _, ?_, ?_, .of_graphs hstart⟩
      · rw [perform, Graph.sortPending_eq hm.sound hm.forward hm.aged]
        rfl
      · rw [perform, Graph.sortPending_eq hp.sound hp.forward hp.aged]
        rfl
  | _ => exact ha.elim

theorem Constructed.added {s s' : Session ρ} (hs : s.Constructed) (ha : Action.Adds a)
    (hrun : s.perform bank a = .ok s') (hlog : s'.log = s.log) : s'.Constructed := by
  have hadds : exists s1, s.perform bank a = .ok s1 ∧ Added bank s.graph s1.graph :=
    Session.added hs.consistent ha
  rcases hadds with ⟨s1, hrun1, hadded⟩
  rw [hrun] at hrun1
  cases hrun1
  rcases hadded.built hs with ⟨hbuilt, hinitial⟩
  rw [Constructed, origin, hlog, hinitial]
  exact hbuilt

theorem Twin.added (bank : Bank ρ) (h : Twin m p done) (ha : Action.Adds a) :
    exists m' p', m.perform bank a = .ok m' ∧ p.perform bank a = .ok p' ∧ Twin m' p' done := by
  rcases perform_inStep bank h.constructed.left.consistent h.constructed.right.consistent h.counts
    ha with ⟨m', p', hm, hp, hs⟩
  rcases hs.graphs.gained with ⟨titles, hgained, hgained'⟩
  rcases hs.held with ⟨more, hheld, hheld'⟩
  refine ⟨m', p', hm, hp, ?_, ?_, hs.graphs.counts, ?_, ?_, ?_, ?_⟩
  · exact ⟨h.constructed.left.added ha hm hs.logs.left,
      h.constructed.right.added ha hp hs.logs.right⟩
  · rw [hheld, hheld', h.held]
  · rw [hgained'.pending, hgained.pending, h.titles, List.append_assoc]
  · rw [hs.logs.left, h.logged]
  · rw [hs.logs.right, h.unlogged]
  · intro s
    have horigin : m'.origin s = m.origin s := by
      rw [origin, origin, hs.logs.left, hgained.initial_key]
    rw [horigin, hgained'.initial_title, hgained.executed]
    exact h.source s

end Adding

/-!
## Executing
-/

section Executing

variable {bank : Bank ρ} {m p : Session ρ} {a : Action ρ} {done : List (TaskHandle × Nat)}

theorem perform_executes (bank : Bank ρ) (hm : m.graph.Consistent)
    (ha : Action.executes a = true) :
    exists g, m.perform bank a = .ok { m with graph := g, log := m.log ++ m.graph.entries } ∧
      m.graph.Retires g := by
  cases a with
  | markExecuted => exact ⟨_, rfl, hm.markExecuted_retires⟩
  | extractToExecute =>
      rcases hm.extractToExecute_retires with ⟨g, hrun, hretires⟩
      refine ⟨g, ?_, hretires⟩
      rw [perform, Graph.sortPending_eq hm.sound hm.forward hm.aged, ok_bind, hrun]
      rfl
  | _ => cases ha

/-- Executing on one side only keeps two sessions twins: whatever a node to come will read from
is among the executed nodes that are kept. -/
theorem Twin.executed (h : Twin m p done) {g : Graph ρ} (hg : m.graph.Retires g) :
    Twin { m with graph := g, log := m.log ++ m.graph.entries } p
      (done ++ m.graph.pending.map (·.title)) := by
  have hm := h.constructed.left
  have hconstructed := hm.executed hg.settled hg.initial_key hg.ownerOrInitial
  refine ⟨⟨hconstructed, h.constructed.right⟩, h.held, ?_, ?_, ?_, h.unlogged, ?_⟩
  · exact hg.counts.trans h.counts
  · rw [h.titles]
    show _ = _ ++ g.pending.map _
    rw [hg.settled.pending_nil, List.map_nil, List.append_nil]
  · rw [List.map_append, List.map_append, h.logged, Graph.entries, List.map_map, List.map_map]
    rfl
  · intro s
    have horigin : lastWriter g.initial.key (m.log ++ m.graph.entries) s
        = m.graph.ownerOrInitial s := by
      rw [hg.initial_key]
      exact (hm.owner_nearest s).eq_lastWriter
    show (lastWriter g.initial.key (m.log ++ m.graph.entries) s, _) ∈ _
    rw [horigin, lastTitle_append]
    -- What was pending wrote the state, or it still comes from where it came from before.
    have hmark := (hm.owner_nearest s).mark_mem (h.source s)
    rw [← Graph.map_mark_vertices] at hmark
    rcases List.mem_map.mp hmark with ⟨v, hv, heq⟩
    rw [← heq, ← hg.settled.vertices_eq]
    exact hg.owner_kept hm.sound.keyed hv (congrArg Prod.fst heq).symm

def written (s : Session ρ) : List State :=
  (s.log ++ s.graph.entries).flatMap (·.task.outputs.toList)

theorem mem_written {s : Session ρ} {t : State} :
    t ∈ s.written ↔ exists e, e ∈ s.log ++ s.graph.entries ∧ e.writes t = true := by
  rw [written, List.mem_flatMap]
  constructor
  · rintro ⟨e, he, ht⟩
    exact ⟨e, he, Task.writes_iff.mpr ht⟩
  · rintro ⟨e, he, ht⟩
    exact ⟨e, he, Task.writes_iff.mp ht⟩

theorem Constructed.size_le (hm : m.Constructed) {g : Graph ρ} (hg : m.graph.Retires g) :
    g.size ≤ 1 + m.written.dedup.length := by
  apply hg.size_le hm.sound.keyed
  intro s k howner hne
  have hlast : lastWriter m.graph.initial.key (m.log ++ m.graph.entries) s = k := by
    rw [(hm.owner_nearest s).eq_lastWriter, Graph.ownerOrInitial, howner]
    rfl
  rw [← hlast] at hne
  exact mem_written.mpr (exists_writes_of_lastWriter_ne hne)

end Executing

/-!
## Whole runs
-/

section Runs

variable {bank : Bank ρ} {m p : Session ρ} {done : List (TaskHandle × Nat)}

theorem Twin.run (bank : Bank ρ) (h : Twin m p done) {actions : List (Action ρ)}
    (hactions : forall a, a ∈ actions -> Action.Adds a ∨ Action.executes a = true) :
    exists m' p' done', actions.foldlM (perform bank) m = .ok m' ∧
      (actions.filter fun a => !Action.executes a).foldlM (perform bank) p = .ok p' ∧
      Twin m' p' done' := by
  induction actions generalizing m p done with
  | nil => exact ⟨m, p, done, rfl, rfl, h⟩
  | cons a actions ih =>
      have hrest : forall b, b ∈ actions -> Action.Adds b ∨ Action.executes b = true :=
        fun b hb => hactions b (List.mem_cons_of_mem _ hb)
      rw [List.foldlM_cons, List.filter_cons]
      cases hexecutes : Action.executes a with
      | true =>
          rcases perform_executes bank h.constructed.left.consistent hexecutes
            with ⟨g, hrun, hretires⟩
          rw [hrun, ok_bind]
          exact ih (h.executed hretires) hrest
      | false =>
          have hadds : Action.Adds a := by
            rcases hactions a List.mem_cons_self with hadds | hexecutes'
            · exact hadds
            · rw [hexecutes] at hexecutes'
              cases hexecutes'
          rcases h.added bank hadds with ⟨m1, p1, hm, hp, h1⟩
          rcases ih h1 hrest with ⟨m', p', done', hm', hp', h'⟩
          refine ⟨m', p', done', ?_, ?_, h'⟩
          · rw [hm, ok_bind, hm']
          · show (a :: _).foldlM _ _ = _
            rw [List.foldlM_cons, hp, ok_bind, hp']

/-- The pending nodes of one session are the last ones of the other.  The nodes `before` them
were executed on one side.  A state comes from nodes of the same title on both sides, and
there are the same edges between nodes that are pending on both sides. -/
structure Carries (m p : Session ρ) (before : List (Vertex ρ))
    (pairs : List (Vertex ρ × Vertex ρ)) : Prop where
  marked : m.graph.pending = pairs.map (·.1)
  unmarked : p.graph.pending = before ++ pairs.map (·.2)
  logged : m.log.map (·.task) = before.map (·.task)
  titles : forall q, q ∈ pairs -> q.2.title = q.1.title
  writers : forall q, q ∈ pairs ->
    forall s, q.1.task.reads s = true ∨ q.1.task.writes s = true ->
      exists w w', w ∈ m.graph.vertices ∧ w' ∈ p.graph.vertices ∧
        m.graph.WriterOf q.1.key s w.key ∧ p.graph.WriterOf q.2.key s w'.key ∧
        w'.title = w.title
  edges : forall q, q ∈ pairs -> forall r, r ∈ pairs ->
    forall s, p.graph.Enters q.2.key r.2.key s ↔ m.graph.Enters q.1.key r.1.key s

/-- Node by node, the last pending nodes of the one session stand beside those of the other. -/
theorem Twin.aligned (h : Twin m p done) :
    exists (before : List (Vertex ρ)) (pairs : List (Vertex ρ × Vertex ρ)),
      m.graph.pending = pairs.map (·.1) ∧ p.graph.pending = before ++ pairs.map (·.2) ∧
      before.map (·.title) = done ∧ forall q, q ∈ pairs -> q.2.title = q.1.title := by
  rcases List.map_eq_append_iff.mp h.titles with ⟨before, rest, hsplit, hbefore, hrest⟩
  rcases exists_pairs_of_map_eq hrest.symm with ⟨pairs, hfirst, hsecond, htitles⟩
  refine ⟨before, pairs, hfirst.symm, ?_, hbefore, fun q hq => (htitles q hq).symm⟩
  rw [hsecond, hsplit]

section Aligned

variable {before : List (Vertex ρ)} {pairs : List (Vertex ρ × Vertex ρ)}
  (h : Twin m p (before.map (·.title))) (hmarked : m.graph.pending = pairs.map (·.1))
  (hunmarked : p.graph.pending = before ++ pairs.map (·.2))
  (htitles : forall q, q ∈ pairs -> q.2.title = q.1.title)

include h hmarked hunmarked htitles

theorem Twin.writers {q : Vertex ρ × Vertex ρ} (hq : q ∈ pairs) {s : State}
    (htouch : q.1.task.reads s = true ∨ q.1.task.writes s = true) :
    exists w w', w ∈ m.graph.vertices ∧ w' ∈ p.graph.vertices ∧
      m.graph.WriterOf q.1.key s w.key ∧ p.graph.WriterOf q.2.key s w'.key ∧
      w'.title = w.title := by
  rcases h.constructed with ⟨hm, hp⟩
  rcases List.append_of_mem hq with ⟨a, b, hpairs⟩
  have hsplit : m.graph.pending = a.map (·.1) ++ q.1 :: b.map (·.1) := by
    rw [hmarked, hpairs, List.map_append, List.map_cons]
  have hsplit' : p.graph.pending = (before ++ a.map (·.2)) ++ q.2 :: b.map (·.2) := by
    rw [hunmarked, hpairs, List.map_append, List.map_cons, List.append_assoc]
  have htouch' : q.2.task.reads s = true ∨ q.2.task.writes s = true := by
    have htask : q.2.task = q.1.task := congrArg (·.1.task) (htitles q hq)
    rw [htask]
    exact htouch
  -- The session that executed nothing takes every state from its initial node.
  have hinitial : (p.origin s, p.graph.initial.title) ∈ p.graph.executed.map Vertex.mark := by
    rw [origin, h.unlogged]
    exact List.mem_cons_self
  have hsame : a.map (·.2.title) = a.map (·.1.title) := by
    apply List.map_congr_left
    intro r hr
    exact htitles r (hpairs ▸ List.mem_append_left _ hr)
  rcases hm.writer_title hsplit htouch (h.source s) with ⟨w, hw, hwriter, htitle⟩
  rcases hp.writer_title hsplit' htouch' hinitial with ⟨w', hw', hwriter', htitle'⟩
  refine ⟨w, w', hw, hw', hwriter, hwriter', ?_⟩
  rw [htitle', htitle, List.map_append, lastTitle_append, List.map_map, List.map_map]
  exact congrArg (lastTitle _ · s) hsame

/-- Nodes that are pending on both sides have the same edges, since these depend on the tasks of
the two nodes and of those between them. -/
theorem Twin.edges {q r : Vertex ρ × Vertex ρ} (hq : q ∈ pairs) (hr : r ∈ pairs) (s : State) :
    p.graph.Enters q.2.key r.2.key s ↔ m.graph.Enters q.1.key r.1.key s := by
  rcases h.constructed with ⟨hm, hp⟩
  have htask : forall z, z ∈ pairs -> z.2.task = z.1.task :=
    fun z hz => congrArg (·.1.task) (htitles z hz)
  have hall : m.graph.pending = [] ++ pairs.map (·.1) := hmarked
  rw [hm.enters_pending_iff hall hq hr, hp.enters_pending_iff hunmarked hq hr]
  refine exists_congr fun a => exists_congr fun b => exists_congr fun c =>
    and_congr_right fun hpairs => and_congr ?_ ?_
  · exact conflict_congr (htask q hq) (htask r hr) s
  · apply forall₂_congr
    intro z hz
    rw [htask z (by simp [hpairs, hz])]

end Aligned

theorem Twin.carries (h : Twin m p done) : exists before pairs, Carries m p before pairs := by
  rcases h.aligned with ⟨before, pairs, hmarked, hunmarked, rfl, htitles⟩
  refine ⟨before, pairs, hmarked, hunmarked, ?_, htitles, ?_, ?_⟩
  · rw [h.logged, List.map_map]
    rfl
  · intro q hq s htouch
    exact h.writers hmarked hunmarked htitles hq htouch
  · intro q hq r hr s
    exact h.edges hmarked hunmarked htitles hq hr s

end Runs

/-- Executing what is pending, at any points of a run, leaves alone where the states of pending
nodes come from, and the edges between them.  All that is kept of the executed nodes are
those that own a state, without edges. -/
theorem execution_transparent {bank : Bank ρ} {actions : List (Action ρ)}
    (h : forall a, a ∈ actions -> Action.Adds a ∨ Action.executes a = true) :
    exists m p before pairs, actions.foldlM (perform bank) new = .ok m ∧
      (actions.filter fun a => !Action.executes a).foldlM (perform bank) new = .ok p ∧
      m.held = p.held ∧ Carries m p before pairs ∧
      forall a, Action.executes a = true -> exists m', m.perform bank a = .ok m' ∧
        m.graph.Retires m'.graph ∧ m'.graph.size ≤ 1 + m.written.dedup.length := by
  rcases new_twin.run bank h with ⟨m, p, done, hm, hp, htwin⟩
  rcases htwin.carries with ⟨before, pairs, hcarries⟩
  refine ⟨m, p, before, pairs, hm, hp, htwin.held, hcarries, ?_⟩
  intro a ha
  rcases perform_executes bank htwin.constructed.left.consistent ha with ⟨g, hrun, hretires⟩
  exact ⟨_, hrun, hretires, htwin.constructed.left.size_le hretires⟩

end Session

namespace Sample

def interrupted : List (Action (Program Task)) :=
  [.insertTasks false [fill], .extractToExecute, .insertTasks false [copy], .rebuild true]

end Sample

namespace Session

theorem execution_transparent_interrupted :
    exists m p before pairs, Sample.interrupted.foldlM (perform Sample.bank) new = .ok m ∧
      [.insertTasks false [Sample.fill], .insertTasks false [Sample.copy], .rebuild true].foldlM
        (perform Sample.bank) new = .ok p ∧
      Carries m p before pairs ∧ before.length = 1 ∧ pairs.length = 1 ∧
      exists m', m.perform Sample.bank .markExecuted = .ok m' ∧ m.graph.Retires m'.graph ∧
        m'.graph.size ≤ 1 + m.written.dedup.length := by
  have hactions : forall a, a ∈ Sample.interrupted -> Action.Adds a ∨ Action.executes a = true := by
    intro a ha
    simp only [Sample.interrupted, List.mem_cons, List.not_mem_nil, or_false] at ha
    rcases ha with rfl | rfl | rfl | rfl
    · exact Or.inl trivial
    · exact Or.inr rfl
    · exact Or.inl trivial
    · exact Or.inl trivial
  rcases @execution_transparent _ Sample.bank _ hactions
    with ⟨m, p, before, pairs, hm, hp, _, hcarries, hexecute⟩
  have hcounts : (Sample.interrupted.foldlM (perform Sample.bank) new).map
      (fun s => (s.log.length, s.graph.pending.length)) = .ok (1, 1) := by
    decide +kernel
  rw [hm] at hcounts
  have hcounts' : (m.log.length, m.graph.pending.length) = (1, 1) := Except.ok.inj hcounts
  rcases Prod.mk.inj hcounts' with ⟨hlog, hpending⟩
  refine ⟨m, p, before, pairs, hm, hp, hcarries, ?_, ?_, hexecute .markExecuted rfl⟩
  · rw [← length_eq_of_map_eq hcarries.logged]
    exact hlog
  · rw [hcarries.marked, List.length_map] at hpending
    exact hpending

end Session

end LaunchGraph
