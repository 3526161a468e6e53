import LaunchGraph.Proofs.Course
import LaunchGraph.Proofs.Graph.Execute
import LaunchGraph.Proofs.Graph.Grow
import LaunchGraph.Proofs.Program

/-!
# Launches on their way

Submitters put launches into the queue at any moment, also while the scheduler is in the
middle of a flush.  The work of the scheduler is cut into steps here, between which anyone
may submit: a flush takes one waiting launch after the other, inserts what it took,
optimizes, takes the records out of the graph, and has the backend execute them.

Without passes and without the filter for list generations, no launch is lost, doubled or
overtaken: at every moment, what was passed to the backend, what is pending and what is
waiting are all launches accepted so far, in the order of acceptance.
-/

namespace LaunchGraph

variable {ρ σ : Type}

/-- No pass is asked for, and no list generation is left out. -/
structure Config.Plain (c : Config) : Prop where
  fusion : c.fusion = false
  listgen : c.listgen = false
  listgenFilter : c.listgenFilter = false
  deadStores : c.deadStores = false
  demotion : c.demotion = false

theorem Config.Plain.passes {c : Config} (h : c.Plain) : c.passes = [] := by
  rw [Config.passes, h.fusion, h.listgen, h.deadStores, h.demotion]
  rfl

/-- A backend together with the batches that were passed to it, whether it executed them or
not. -/
def Backend.watched (b : Backend ρ σ) : Backend ρ (σ × List (List ρ)) where
  execute records x :=
    let (result, y) := b.execute records x.1
    (result, y, x.2 ++ [records])
  write directory file text x :=
    let (result, y) := b.write directory file text x.1
    (result, y, x.2)

theorem Backend.watched_writeKeeps (b : Backend ρ σ) (batches : List (List ρ)) :
    b.watched.WriteKeeps fun y => y.2 = batches := by
  intro directory file text x hx
  exact hx

def inOneCall (batch : List ρ) : List (List ρ) := if batch.isEmpty then [] else [batch]

theorem flatten_inOneCall (batch : List ρ) : (inOneCall batch).flatten = batch := by
  cases batch with
  | nil => rfl
  | cons record rest => exact List.flatten_singleton

theorem Scheduler.executeBatch_watched (b : Backend ρ σ) (s : Scheduler ρ (σ × List (List ρ)))
    (batch : List ρ) :
    exists y result, s.executeBatch b.watched batch = ({ s with backend := y }, result) ∧
      y.2 = s.backend.2 ++ inOneCall batch ∧
      forall e, result = .error e -> exists detail, e = .execute detail := by
  rw [executeBatch]
  cases batch with
  | nil =>
      exact ⟨s.backend, .ok (), rfl, (List.append_nil _).symm, fun e he => by cases he⟩
  | cons record rest =>
      rw [List.isEmpty_cons, if_neg Bool.false_ne_true]
      have hlog : (b.watched.execute (record :: rest) s.backend).2.2
          = s.backend.2 ++ inOneCall (record :: rest) := rfl
      cases hrun : b.watched.execute (record :: rest) s.backend with
      | mk outcome y =>
          rw [hrun] at hlog
          cases outcome with
          | ok u => exact ⟨y, .ok (), rfl, hlog, fun e he => by cases he⟩
          | error detail =>
              refine ⟨y, .error (.execute detail), rfl, hlog, ?_⟩
              intro e he
              cases he
              exact ⟨detail, rfl⟩

theorem Scheduler.handOver_watched (b : Backend ρ σ) {s : Scheduler ρ (σ × List (List ρ))}
    {g : Graph ρ} {records : List ρ} (hextract : s.graph.extractToExecute = .ok (g, records)) :
    exists s' result, s.handOver b.watched = .ok (s', result) ∧
      s'.backend.2 = s.backend.2 ++ inOneCall records ∧ s'.graph = g ∧
      (forall n, result = .ok n -> n = records.length ∧ s' = { s with
        graph := g
        backend := s'.backend
        flushes := s.flushes + 1
        sinceFlush := 0 }) ∧
      forall e, result = .error e -> exists detail, e = .execute detail := by
  rcases Scheduler.executeBatch_watched b { s with graph := g } records
    with ⟨y, executed, hexecute, hy, hrefused⟩
  rw [handOver, hextract, ok_bind]
  dsimp only
  rw [hexecute]
  cases executed with
  | ok _ =>
      refine ⟨_, .ok records.length, rfl, hy, rfl, ?_, fun e he => by cases he⟩
      intro n hn
      cases hn
      exact ⟨rfl, rfl⟩
  | error e =>
      refine ⟨_, .error e, rfl, hy, rfl, fun n hn => (by cases hn), ?_⟩
      intro e' he
      cases he
      exact hrefused e rfl

/-!
## Steps
-/

inductive Activity (ρ : Type) where
  | resting
  /-- A flush takes launches out of the queue.  It has these. -/
  | draining (taken : List ρ)
  /-- The queue was empty. -/
  | inserting (taken : List ρ)
  | optimizing
  | extracting
  /-- The graph has handed over these records. -/
  | executing (batch : List ρ)
  /-- There is no scheduler any more. -/
  | gone
deriving DecidableEq

namespace Activity

def taken : Activity ρ -> List ρ
  | draining taken => taken
  | inserting taken => taken
  | _ => []

def extracted : Activity ρ -> List ρ
  | executing batch => batch
  | _ => []

def isBusy : Activity ρ -> Bool
  | resting => false
  | gone => false
  | _ => true

def isAlive : Activity ρ -> Bool
  | gone => false
  | _ => true

end Activity

/-- A scheduler at a moment, and the launches accepted until then, first to last. -/
structure Moment (ρ σ : Type) where
  scheduler : Scheduler ρ σ
  activity : Activity ρ
  accepted : List ρ

namespace Moment

def start (config : Config) (x : σ) : Moment ρ σ := ⟨.new config x, .resting, []⟩

inductive Submits : Moment ρ σ -> Moment ρ σ -> Prop where
  | accept {s s' : Scheduler ρ σ} {activity : Activity ρ} {accepted : List ρ} {record : ρ}
      (submitted : s.submit record = (s', .ok ())) :
      Submits ⟨s, activity, accepted⟩ ⟨s', activity, accepted ++ [record]⟩
  | refuse {s s' : Scheduler ρ σ} {activity : Activity ρ} {accepted : List ρ} {record : ρ}
      {e : SchedulerError} (submitted : s.submit record = (s', .error e)) :
      Submits ⟨s, activity, accepted⟩ ⟨s', activity, accepted⟩

/-- The scheduler gets on with its work. -/
inductive Works (bank : Bank ρ) (b : Backend ρ σ) : Moment ρ σ -> Moment ρ σ -> Prop where
  | launch {s s1 s' : Scheduler ρ σ} {accepted : List ρ} {record : ρ}
      (submitted : s.submit record = (s1, .ok ()))
      (counted : s' = { s1 with sinceFlush := s1.sinceFlush + 1 }) :
      Works bank b ⟨s, .resting, accepted⟩
        ⟨s', if s'.isDue then .draining [] else .resting, accepted ++ [record]⟩
  | flush {s : Scheduler ρ σ} {accepted : List ρ} :
      Works bank b ⟨s, .resting, accepted⟩ ⟨s, .draining [], accepted⟩
  | take {s : Scheduler ρ σ} {accepted taken rest : List ρ} {record : ρ}
      (waiting : s.queue.waiting = record :: rest) :
      Works bank b ⟨s, .draining taken, accepted⟩
        ⟨{ s with queue := { s.queue with waiting := rest } }, .draining (taken ++ [record]),
          accepted⟩
  | drained {s : Scheduler ρ σ} {accepted taken : List ρ} (waiting : s.queue.waiting = []) :
      Works bank b ⟨s, .draining taken, accepted⟩ ⟨s, .inserting taken, accepted⟩
  | insert {s : Scheduler ρ σ} {accepted taken : List ρ} {graph : Graph ρ} {inserted : Nat}
      (ran : s.graph.insertTasks bank s.config.listgenFilter taken = .ok (graph, inserted)) :
      Works bank b ⟨s, .inserting taken, accepted⟩
        ⟨{ s with graph }, .optimizing, accepted⟩
  | optimize {s s' : Scheduler ρ σ} {accepted : List ρ} {rounds : Nat}
      (ran : s.optimize bank b = .ok (s', .ok rounds)) :
      Works bank b ⟨s, .optimizing, accepted⟩ ⟨s', .extracting, accepted⟩
  | giveUp {s s' : Scheduler ρ σ} {accepted : List ρ} {e : SchedulerError}
      (ran : s.optimize bank b = .ok (s', .error e)) :
      Works bank b ⟨s, .optimizing, accepted⟩ ⟨s', .resting, accepted⟩
  | extract {s : Scheduler ρ σ} {accepted batch : List ρ} {graph : Graph ρ}
      (ran : s.graph.extractToExecute = .ok (graph, batch)) :
      Works bank b ⟨s, .extracting, accepted⟩ ⟨{ s with graph }, .executing batch, accepted⟩
  | execute {s s' : Scheduler ρ σ} {accepted batch : List ρ}
      (ran : s.executeBatch b batch = (s', .ok ())) :
      Works bank b ⟨s, .executing batch, accepted⟩
        ⟨{ s' with flushes := s'.flushes + 1, sinceFlush := 0 }, .resting, accepted⟩
  | fail {s s' : Scheduler ρ σ} {accepted batch : List ρ} {e : SchedulerError}
      (ran : s.executeBatch b batch = (s', .error e)) :
      Works bank b ⟨s, .executing batch, accepted⟩ ⟨s', .resting, accepted⟩
  | leave {s : Scheduler ρ σ} {accepted : List ρ} :
      Works bank b ⟨s, .resting, accepted⟩
        ⟨{ s with queue := s.queue.disconnect }, .gone, accepted⟩

/-- The moments that come after a moment, however submissions fall between the steps of the
scheduler. -/
inductive Later (bank : Bank ρ) (b : Backend ρ σ) (m : Moment ρ σ) : Moment ρ σ -> Prop where
  | refl : Later bank b m m
  | submit {m1 m2 : Moment ρ σ} (before : Later bank b m m1) (step : Submits m1 m2) :
      Later bank b m m2
  | work {m1 m2 : Moment ρ σ} (before : Later bank b m m1) (step : Works bank b m1 m2) :
      Later bank b m m2

/-!
## Whole commands

Steps that nobody submits between make up the commands of the scheduler.
-/

section Commands

variable {bank : Bank ρ} {b : Backend ρ σ} {m : Moment ρ σ} {s s' : Scheduler ρ σ}
  {accepted : List ρ}

theorem later_drained {taken waiting : List ρ} (hwaiting : s.queue.waiting = waiting)
    (h : Later bank b m ⟨s, .draining taken, accepted⟩) :
    Later bank b m ⟨{ s with queue := s.queue.drain.1 }, .inserting (taken ++ waiting),
      accepted⟩ := by
  induction waiting generalizing s taken with
  | nil =>
      have hqueue : s.queue.drain.1 = s.queue := by
        rw [LaunchQueue.drain, ← hwaiting]
      rw [hqueue, List.append_nil]
      exact h.work (.drained hwaiting)
  | cons record rest ih =>
      have hrest := ih (s := { s with queue := { s.queue with waiting := rest } }) rfl
        (h.work (.take hwaiting))
      rw [List.append_assoc] at hrest
      exact hrest

theorem later_handOver {result : Except SchedulerError Nat}
    (h : Later bank b m ⟨s, .extracting, accepted⟩)
    (hrun : s.handOver b = .ok (s', result)) : Later bank b m ⟨s', .resting, accepted⟩ := by
  rw [Scheduler.handOver] at hrun
  cases hextract : s.graph.extractToExecute with
  | error e =>
      rw [hextract] at hrun
      cases hrun
  | ok r =>
      rcases r with ⟨graph, batch⟩
      rw [hextract, ok_bind] at hrun
      have h1 := h.work (.extract hextract)
      cases hexecute : Scheduler.executeBatch b { s with graph } batch with
      | mk s1 outcome =>
          dsimp only at hrun
          rw [hexecute] at hrun
          cases outcome with
          | error e =>
              cases hrun
              exact h1.work (.fail hexecute)
          | ok u =>
              cases hrun
              exact h1.work (.execute hexecute)

/-- A flush is the steps that a flush takes. -/
theorem later_flush {result : Except SchedulerError FlushReport}
    (h : Later bank b m ⟨s, .draining [], accepted⟩)
    (hrun : s.flush bank b = .ok (s', result)) : Later bank b m ⟨s', .resting, accepted⟩ := by
  have h1 := later_drained rfl h
  rw [List.nil_append] at h1
  rw [Scheduler.flush, Scheduler.insertWaiting] at hrun
  dsimp only [LaunchQueue.drain] at hrun h1
  cases hinsert : s.graph.insertTasks bank s.config.listgenFilter s.queue.waiting with
  | error e =>
      rw [hinsert] at hrun
      cases hrun
  | ok r =>
      rcases r with ⟨graph, inserted⟩
      rw [hinsert, ok_bind, pure_bind] at hrun
      dsimp only at hrun
      have h2 := h1.work (.insert hinsert)
      cases hoptimize : Scheduler.optimize bank b
          { s with graph, queue := { s.queue with waiting := [] } } with
      | error e =>
          rw [hoptimize] at hrun
          cases hrun
      | ok r =>
          rcases r with ⟨s1, outcome⟩
          rw [hoptimize, ok_bind] at hrun
          cases outcome with
          | error e =>
              cases hrun
              exact h2.work (.giveUp hoptimize)
          | ok rounds =>
              have h3 := h2.work (.optimize hoptimize)
              dsimp only at hrun
              cases hhand : s1.handOver b with
              | error e =>
                  rw [hhand] at hrun
                  cases hrun
              | ok r =>
                  rcases r with ⟨s2, outcome⟩
                  rw [hhand, ok_bind] at hrun
                  have h4 := later_handOver h3 hhand
                  cases outcome with
                  | error e =>
                      cases hrun
                      exact h4
                  | ok executed =>
                      cases hrun
                      exact h4

/-- A launch is a submission of the scheduler itself, and a flush if it is time. -/
theorem later_launch {record : ρ} {result : Except SchedulerError (Option FlushReport)}
    (hopen : s.queue.isOpen = true) (h : Later bank b m ⟨s, .resting, accepted⟩)
    (hrun : s.launch bank b record = .ok (s', result)) :
    Later bank b m ⟨s', .resting, accepted ++ [record]⟩ := by
  have hsubmit := Scheduler.submit_eq hopen record
  have h1 := h.work (.launch hsubmit rfl)
  rw [Scheduler.launch, hsubmit] at hrun
  dsimp only at hrun h1
  split at hrun
  · rename_i hdue
    rw [if_pos hdue] at h1
    cases hflush : Scheduler.flush bank b { s with
        queue := { s.queue with waiting := s.queue.waiting ++ [record] }
        sinceFlush := s.sinceFlush + 1 } with
    | error e =>
        rw [hflush] at hrun
        cases hrun
    | ok r =>
        rw [hflush] at hrun
        cases hrun
        exact later_flush h1 hflush
  · rename_i hdue
    rw [if_neg hdue] at h1
    cases hrun
    exact h1

end Commands

/-!
## What one step keeps
-/

def passed (m : Moment ρ (σ × List (List ρ))) : List (List ρ) := m.scheduler.backend.2

def pending (m : Moment ρ σ) : List ρ := m.scheduler.graph.pending.filterMap (·.record)

def waiting (m : Moment ρ σ) : List ρ := m.scheduler.queue.waiting

/-- Every accepted launch is in one place, in order. -/
structure Conserved (config : Config) (m : Moment ρ (σ × List (List ρ))) : Prop where
  configured : m.scheduler.config = config
  consistent : m.scheduler.graph.Consistent
  isOpen : m.scheduler.queue.isOpen = m.activity.isAlive
  places : m.passed.flatten ++ m.activity.extracted ++ m.pending ++ m.activity.taken ++ m.waiting
    = m.accepted

section Work

variable {bank : Bank ρ} {b : Backend ρ σ} {config : Config}
  {s : Scheduler ρ (σ × List (List ρ))}

theorem insertTasks_pending {g : Graph ρ} (bank : Bank ρ) (hg : g.Consistent) (records : List ρ) :
    exists g' inserted, g.insertTasks bank false records = .ok (g', inserted) ∧ g'.Consistent ∧
      g'.pending.filterMap (·.record) = g.pending.filterMap (·.record) ++ records := by
  rcases Graph.insertTasks_ok bank hg.sound false records with ⟨g', kept, hrun, hgrown, hall, _⟩
  rw [hall rfl] at hgrown
  refine ⟨g', _, hrun, hgrown.consistent hg, ?_⟩
  have hrecords := congrArg (List.filterMap (·.1)) hgrown.launches
  rw [List.filterMap_append, List.filterMap_map, List.filterMap_map, List.filterMap_map] at hrecords
  refine hrecords.trans (congrArg _ ?_)
  show records.filterMap some = records
  exact List.filterMap_some

theorem optimize_plain (bank : Bank ρ) (b : Backend ρ σ) (hplain : s.config.Plain)
    (hg : s.graph.Consistent) :
    exists y result, s.optimize bank b.watched = .ok ({ s with backend := y }, result) ∧
      y.2 = s.backend.2 := by
  have hpasses : forall pass, pass ∈ s.config.passes -> pass.Keeps bank (· = s.graph) := by
    intro pass hpass
    rw [hplain.passes] at hpass
    cases hpass
  have hI : forall g, g = s.graph -> g.Consistent := by
    intro g h
    rw [h]
    exact hg
  rcases Scheduler.optimize_ok hI (b.watched_writeKeeps s.backend.2) hpasses rfl rfl
    with ⟨⟨s', result⟩, hrun, hoptimized⟩
  have hsame := hoptimized.same
  rw [hoptimized.graph] at hsame
  exact ⟨s'.backend, result, hrun.trans (congrArg (fun s1 => Except.ok (s1, result)) hsame),
    hoptimized.backend⟩

end Work

section Steps

variable {bank : Bank ρ} {b : Backend ρ σ} {config : Config}
  {m m' : Moment ρ (σ × List (List ρ))} {s : Scheduler ρ (σ × List (List ρ))}
  {activity : Activity ρ} {accepted : List ρ}

theorem Conserved.places_eq (h : Conserved config ⟨s, activity, accepted⟩) :
    s.backend.2.flatten ++ activity.extracted ++ s.graph.pending.filterMap (·.record)
      ++ activity.taken ++ s.queue.waiting = accepted :=
  h.places

theorem Conserved.submit (h : Conserved config ⟨s, activity, accepted⟩) (record : ρ)
    (sinceFlush : Nat) :
    Conserved config ⟨{ s with
      queue := { s.queue with waiting := s.queue.waiting ++ [record] }
      sinceFlush }, activity, accepted ++ [record]⟩ := by
  refine ⟨h.configured, h.consistent, h.isOpen, ?_⟩
  exact (List.append_assoc ..).symm.trans (congrArg (· ++ [record]) h.places_eq)

theorem submit_cases (s : Scheduler ρ (σ × List (List ρ))) (record : ρ) :
    (s.queue.isOpen = true ∧ s.submit record
        = ({ s with queue := { s.queue with waiting := s.queue.waiting ++ [record] } }, .ok ())) ∨
      (s.queue.isOpen = false ∧ s.submit record = (s, .error .disconnected)) := by
  cases hopen : s.queue.isOpen with
  | false => exact Or.inr ⟨rfl, by rw [Scheduler.submit, LaunchQueue.submit, hopen]; rfl⟩
  | true => exact Or.inl ⟨rfl, Scheduler.submit_eq hopen record⟩

theorem Submits.conserved (step : Submits m m') (h : Conserved config m) :
    Conserved config m' := by
  cases step with
  | @accept s s' activity accepted record submitted =>
      rcases submit_cases s record with ⟨_, hrun⟩ | ⟨_, hrun⟩
      · rw [hrun] at submitted
        cases submitted
        exact h.submit record s.sinceFlush
      · rw [hrun] at submitted
        cases submitted
  | @refuse s s' activity accepted record e submitted =>
      rcases submit_cases s record with ⟨_, hrun⟩ | ⟨_, hrun⟩
      · rw [hrun] at submitted
        cases submitted
      · rw [hrun] at submitted
        cases submitted
        exact h

theorem Conserved.optimized (hplain : config.Plain) {s' : Scheduler ρ (σ × List (List ρ))}
    {result : Except SchedulerError Nat} (h : Conserved config ⟨s, .optimizing, accepted⟩)
    (ran : s.optimize bank b.watched = .ok (s', result)) :
    Conserved config ⟨s', .resting, accepted⟩ := by
  rcases optimize_plain bank b (s := s) (by rw [h.configured]; exact hplain) h.consistent
    with ⟨y, result, hrun, hy⟩
  rw [hrun] at ran
  cases ran
  refine ⟨h.configured, h.consistent, h.isOpen, ?_⟩
  show y.2.flatten ++ _ ++ _ ++ _ ++ _ = accepted
  rw [hy]
  exact h.places_eq

theorem Conserved.executed {s' : Scheduler ρ (σ × List (List ρ))} {batch : List ρ}
    {result : Except SchedulerError Unit} (h : Conserved config ⟨s, .executing batch, accepted⟩)
    (ran : s.executeBatch b.watched batch = (s', result)) :
    Conserved config ⟨s', .resting, accepted⟩ := by
  rcases s.executeBatch_watched b batch with ⟨y, result, hrun, hy, _⟩
  rw [hrun] at ran
  cases ran
  refine ⟨h.configured, h.consistent, h.isOpen, ?_⟩
  show y.2.flatten ++ [] ++ _ ++ _ ++ _ = accepted
  rw [hy, List.flatten_append, flatten_inOneCall, List.append_nil]
  exact h.places_eq

theorem Works.conserved (hplain : config.Plain) (step : Works bank b.watched m m')
    (h : Conserved config m) : Conserved config m' := by
  cases step with
  | @launch s s1 s' accepted record submitted counted =>
      rcases submit_cases s record with ⟨_, hrun⟩ | ⟨_, hrun⟩
      · rw [hrun] at submitted
        cases submitted
        subst counted
        have h1 := h.submit record (s.sinceFlush + 1)
        split
        · exact ⟨h1.configured, h1.consistent, h1.isOpen, h1.places⟩
        · exact h1
      · rw [hrun] at submitted
        cases submitted
  | flush => exact ⟨h.configured, h.consistent, h.isOpen, h.places⟩
  | @take s accepted taken rest record waiting =>
      refine ⟨h.configured, h.consistent, h.isOpen, ?_⟩
      have places := h.places_eq
      rw [waiting] at places
      show _ ++ (taken ++ [record]) ++ rest = accepted
      rw [← List.append_assoc, List.append_assoc]
      exact places
  | drained waiting => exact ⟨h.configured, h.consistent, h.isOpen, h.places⟩
  | @insert s accepted taken graph inserted ran =>
      have hfilter : s.config.listgenFilter = false := by
        rw [h.configured]
        exact hplain.listgenFilter
      rcases insertTasks_pending bank h.consistent taken with ⟨g', n, hrun, hg', hpending⟩
      rw [hfilter, hrun] at ran
      cases ran
      refine ⟨h.configured, hg', h.isOpen, ?_⟩
      show _ ++ graph.pending.filterMap (·.record) ++ [] ++ s.queue.waiting = accepted
      rw [hpending, List.append_nil, ← List.append_assoc]
      exact h.places_eq
  | optimize ran =>
      have h1 := h.optimized hplain ran
      exact ⟨h1.configured, h1.consistent, h1.isOpen, h1.places⟩
  | giveUp ran => exact h.optimized hplain ran
  | @extract s accepted batch graph ran =>
      rcases h.consistent.extractToExecute with ⟨g', hrun, hsettled, _⟩
      rw [hrun] at ran
      cases ran
      refine ⟨h.configured, hsettled.built.consistent, h.isOpen, ?_⟩
      show _ ++ _ ++ graph.pending.filterMap (·.record) ++ _ ++ _ = accepted
      rw [hsettled.pending_nil, List.filterMap_nil, List.append_nil]
      have places : s.backend.2.flatten ++ [] ++ s.graph.pending.filterMap (·.record) ++ []
          ++ s.queue.waiting = accepted := h.places_eq
      rw [List.append_nil s.backend.2.flatten] at places
      exact places
  | execute ran =>
      have h1 := h.executed ran
      exact ⟨h1.configured, h1.consistent, h1.isOpen, h1.places⟩
  | fail ran => exact h.executed ran
  | leave => exact ⟨h.configured, h.consistent, rfl, h.places⟩

theorem Later.conserved (hplain : config.Plain) (later : Later bank b.watched m m')
    (h : Conserved config m) : Conserved config m' := by
  induction later with
  | refl => exact h
  | submit _ step ih => exact step.conserved ih
  | work _ step ih => exact step.conserved hplain ih

theorem Conserved.exists_works (hplain : config.Plain) (bank : Bank ρ) (b : Backend ρ σ)
    (h : Conserved config m) (hbusy : m.activity.isBusy = true) :
    exists m', Works bank b.watched m m' := by
  rcases m with ⟨s, activity, accepted⟩
  have hg : s.graph.Consistent := h.consistent
  have hconfig : s.config = config := h.configured
  cases activity with
  | resting => cases hbusy
  | gone => cases hbusy
  | draining taken =>
      cases hwaiting : s.queue.waiting with
      | nil => exact ⟨_, .drained hwaiting⟩
      | cons record rest => exact ⟨_, .take hwaiting⟩
  | inserting taken =>
      rcases Graph.insertTasks_ok bank hg.sound s.config.listgenFilter taken with ⟨g', kept, hrun, _⟩
      exact ⟨_, .insert hrun⟩
  | optimizing =>
      rw [← hconfig] at hplain
      rcases optimize_plain bank b hplain hg with ⟨y, result, hrun, _⟩
      cases result with
      | ok rounds => exact ⟨_, .optimize hrun⟩
      | error e => exact ⟨_, .giveUp hrun⟩
  | extracting => exact ⟨_, .extract hg.extractToExecute_eq⟩
  | executing batch =>
      rcases s.executeBatch_watched b batch with ⟨y, result, hrun, _⟩
      cases result with
      | ok u => exact ⟨_, .execute hrun⟩
      | error e => exact ⟨_, .fail hrun⟩

theorem Conserved.flush_ok (hplain : config.Plain) (bank : Bank ρ) (b : Backend ρ σ)
    (h : Conserved config ⟨s, activity, accepted⟩) :
    exists s' result, s.flush bank b.watched = .ok (s', result) := by
  have hconfig : s.config = config := h.configured
  rcases insertTasks_pending bank h.consistent s.queue.waiting with ⟨g1, inserted, hinsert, hg1, _⟩
  rw [← hplain.listgenFilter, ← hconfig] at hinsert
  let s1 : Scheduler ρ (σ × List (List ρ)) :=
    { s with queue := { s.queue with waiting := [] }, graph := g1 }
  have hplain1 : s1.config.Plain := by
    rw [← hconfig] at hplain
    exact hplain
  have hinsertWaiting := Scheduler.insertWaiting_eq hinsert
  rcases optimize_plain bank b hplain1 hg1 with ⟨y, result, hoptimize, _⟩
  cases result with
  | error e => exact ⟨_, _, Scheduler.flush_eq_error hinsertWaiting hoptimize⟩
  | ok rounds =>
      rcases hg1.extractToExecute with ⟨g2, hextract, _⟩
      rcases Scheduler.handOver_watched b (s := { s1 with backend := y }) hextract
        with ⟨s3, executed, hhand, _⟩
      cases executed with
      | ok n => exact ⟨_, _, Scheduler.flush_eq hinsertWaiting hoptimize hhand⟩
      | error e => exact ⟨_, _, Scheduler.flush_eq_refused hinsertWaiting hoptimize hhand⟩

theorem Conserved.launch_ok (hplain : config.Plain) (bank : Bank ρ) (b : Backend ρ σ)
    (h : Conserved config ⟨s, activity, accepted⟩) (hopen : s.queue.isOpen = true) (record : ρ) :
    exists s' result, s.launch bank b.watched record = .ok (s', result) := by
  rcases (h.submit record (s.sinceFlush + 1)).flush_ok hplain bank b with ⟨s', result, hflush⟩
  rw [Scheduler.launch, Scheduler.submit_eq hopen]
  dsimp only
  split
  · rw [hflush]
    exact ⟨_, _, rfl⟩
  · exact ⟨_, _, rfl⟩

end Steps

theorem start_conserved (config : Config) (x : σ) :
    Conserved config (start config (x, []) : Moment ρ (σ × List (List ρ))) :=
  ⟨rfl, ((Graph.new_settled (ρ := ρ)).built.withCounts ∅ ∅ 1
    (.ofNat config.fusionWindow)).consistent, rfl, rfl⟩

/-!
## All moments
-/

/-- Without passes and filter, no launch is lost, doubled or overtaken, whether batches are
executed and drawings are written or not.  No step of the scheduler stops with a fault, whole
flushes and launches are courses of steps, and a record is accepted as long as the scheduler
is there. -/
theorem launches_conserved {config : Config} (hplain : config.Plain) (bank : Bank ρ)
    (b : Backend ρ σ) (x : σ) {m : Moment ρ (σ × List (List ρ))}
    (h : Later bank b.watched (start config (x, [])) m) :
    m.passed.flatten ++ m.activity.extracted ++ m.pending ++ m.activity.taken ++ m.waiting
        = m.accepted ∧
      (m.activity.isBusy = false -> m.passed.flatten ++ m.pending ++ m.waiting = m.accepted) ∧
      (m.activity.isBusy = true -> exists m', Works bank b.watched m m') ∧
      (m.activity = .resting ->
        (exists s' result, m.scheduler.flush bank b.watched = .ok (s', result) ∧
          Later bank b.watched m ⟨s', .resting, m.accepted⟩) ∧
        forall record, exists s' result,
          m.scheduler.launch bank b.watched record = .ok (s', result) ∧
            Later bank b.watched m ⟨s', .resting, m.accepted ++ [record]⟩) ∧
      forall record, (exists queue, m.scheduler.queue.submit record = .ok queue) ↔
        m.activity ≠ .gone := by
  have hconserved := h.conserved hplain (start_conserved config x)
  rcases m with ⟨s, activity, accepted⟩
  refine ⟨hconserved.places, ?_, hconserved.exists_works hplain bank b, ?_, ?_⟩
  · intro hidle
    have places := hconserved.places_eq
    have hnone : activity.extracted = [] ∧ activity.taken = [] := by
      cases activity with
      | resting => exact ⟨rfl, rfl⟩
      | gone => exact ⟨rfl, rfl⟩
      | _ => cases hidle
    rw [hnone.left, hnone.right, List.append_nil, List.append_nil] at places
    exact places
  · rintro rfl
    have hopen : s.queue.isOpen = true := hconserved.isOpen
    constructor
    · rcases hconserved.flush_ok hplain bank b with ⟨s', result, hrun⟩
      exact ⟨s', result, hrun, later_flush (Later.refl.work .flush) hrun⟩
    · intro record
      rcases hconserved.launch_ok hplain bank b hopen record with ⟨s', result, hrun⟩
      exact ⟨s', result, hrun, later_launch hopen .refl hrun⟩
  · intro record
    have hopen : s.queue.isOpen = activity.isAlive := hconserved.isOpen
    rw [LaunchQueue.submit, hopen]
    cases activity with
    | gone =>
        refine ⟨?_, fun hne => absurd rfl hne⟩
        rintro ⟨queue, hqueue⟩
        cases hqueue
    | _ =>
        refine ⟨?_, fun _ => ⟨_, rfl⟩⟩
        intro _ hgone
        cases hgone

end Moment

/-!
## A submission in the middle of a flush
-/

def Backend.refusing : Backend ρ Unit where
  execute _ x := (.error "refused", x)
  write _ _ _ x := (.error "refused", x)

namespace Moment

/-- While a flush that is going to fail inserts what it took, another record is submitted. -/
theorem launches_conserved_refused :
    exists m, Later Sample.bank (Backend.refusing.watched)
        (start { Config.unoptimized with flushEvery := some 1 } ((), [])) m ∧
      m.activity = .resting ∧ m.passed = [[Sample.fill]] ∧ m.waiting = [Sample.copy] ∧
      m.accepted = [Sample.fill, Sample.copy] ∧
      m.passed.flatten ++ m.pending ++ m.waiting = m.accepted := by
  have hplain : Config.Plain { Config.unoptimized with flushEvery := some 1 } :=
    ⟨rfl, rfl, rfl, rfl, rfl⟩
  have later : exists m, Later Sample.bank (Backend.refusing.watched)
        (start { Config.unoptimized with flushEvery := some 1 } ((), [])) m ∧
      m.activity = .resting ∧ m.passed = [[Sample.fill]] ∧ m.waiting = [Sample.copy] ∧
      m.accepted = [Sample.fill, Sample.copy] := by
    refine ⟨_, (Later.refl
        |>.work (.launch (Scheduler.submit_eq rfl Sample.fill) rfl)
        |>.work (.take rfl)
        |>.work (.drained rfl)
        |>.submit (.accept (Scheduler.submit_eq rfl Sample.copy))
        |>.work (.insert rfl)
        |>.work (.optimize rfl)
        |>.work (.extract rfl)
        |>.work (.fail rfl)), rfl, rfl, rfl, rfl⟩
  rcases later with ⟨m, hlater, hresting, hpassed, hwaiting, haccepted⟩
  have h := launches_conserved hplain Sample.bank .refusing () hlater
  exact ⟨m, hlater, hresting, hpassed, hwaiting, haccepted, h.right.left (by rw [hresting]; rfl)⟩

end Moment

end LaunchGraph
