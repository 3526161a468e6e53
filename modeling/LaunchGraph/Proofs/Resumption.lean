import LaunchGraph.Proofs.Accounts
import LaunchGraph.Proofs.Conservation
import LaunchGraph.Proofs.Pass.Idle

/-!
# Flushes after failed drawings

A flush that cannot write a drawing stops in the middle of its rounds, when the queue is drained
already and the graph is partly rewritten.  Nothing is lost by that: the next flush goes on with
the rounds from where they stopped, and they come to rest on the same graph.  So the backend is
passed the same batch, once, as if all drawings had been written.
-/

namespace LaunchGraph

variable {ρ σ : Type} {bank : Bank ρ}

/-!
## Rounds without drawings
-/

namespace Config

variable {c : Config}

/-- As many rounds as the number says, each of which changes something, lead from the first graph
to the second one, which a further round leaves as it is. -/
inductive Settles (c : Config) (bank : Bank ρ) : Nat -> Graph ρ -> Graph ρ -> Prop where
  | rest {g : Graph ρ} (idle : c.runPasses bank g = .ok (g, false)) : Settles c bank 0 g g
  | round {n : Nat} {g g1 g' : Graph ρ} (busy : c.runPasses bank g = .ok (g1, true))
      (later : Settles c bank n g1 g') : Settles c bank (n + 1) g g'

def ComesToRest (c : Config) (bank : Bank ρ) (g g' : Graph ρ) : Prop :=
  exists n, c.Settles bank n g g' ∧ (n < c.maxRounds ∨ g.pendingCount = 0)

theorem Settles.eq_of_empty {n : Nat} {g g' : Graph ρ} (h : c.Settles bank n g g')
    (hg : g.Consistent) (hempty : g.pendingCount = 0) : g' = g := by
  cases h with
  | rest => rfl
  | round busy _ =>
      rcases c.runPasses_responds bank hg with ⟨g1, changed, hrun, _, hresponds⟩
      rw [busy] at hrun
      cases hrun
      cases (hresponds.of_empty hempty).left

theorem settles_of_empty (c : Config) (bank : Bank ρ) {g : Graph ρ} (hg : g.Consistent)
    (hempty : g.pendingCount = 0) : c.Settles bank 0 g g := by
  rcases c.runPasses_responds bank hg with ⟨g1, changed, hrun, _, hresponds⟩
  rcases hresponds.of_empty hempty with ⟨rfl, rfl⟩
  exact .rest hrun

end Config

/-!
## Rounds with drawings
-/

namespace Scheduler

section Rounds

variable {b : Backend ρ σ} {s : Scheduler ρ (σ × List (List ρ))}

theorem dump_watched (b : Backend ρ σ) (s : Scheduler ρ (σ × List (List ρ))) (round : Nat) :
    exists y, y.2 = s.backend.2 ∧ (s.dump b.watched round = ({ s with backend := y }, .ok ()) ∨
      exists detail, s.dump b.watched round
        = ({ s with backend := y }, .error (.dotDump detail))) := by
  cases hdir : s.config.dotDumpDir with
  | none =>
      refine ⟨s.backend, rfl, Or.inl ?_⟩
      rw [dump, hdir]
  | some directory =>
      have hdump := dump_eq hdir b.watched round
      dsimp only at hdump
      cases hwritten : (b.watched.write directory (drawingName s.flushes round)
          (s.graph.dot (some "LR") 2) s.backend).1 with
      | ok _ =>
          rw [hwritten] at hdump
          refine ⟨_, ?_, Or.inl hdump⟩
          rfl
      | error detail =>
          rw [hwritten] at hdump
          refine ⟨_, ?_, Or.inr ⟨detail, hdump⟩⟩
          rfl

/-- Optimizing has got from a scheduler as far as `r` on the way to the graph `g`: it has
arrived, or a drawing could not be written. -/
structure Underway (bank : Bank ρ) (g : Graph ρ) (s : Scheduler ρ (σ × List (List ρ)))
    (r : Scheduled ρ (σ × List (List ρ)) Nat) : Prop where
  same : r.1 = { s with graph := r.1.graph, backend := r.1.backend }
  log : r.1.backend.2 = s.backend.2
  rests : s.config.ComesToRest bank r.1.graph g
  consistent : r.1.graph.Consistent
  passesOn : s.graph.PassesOn s.config bank [] r.1.graph
  arrives : forall n, r.2 = .ok n -> r.1.graph = g
  fails : forall e, r.2 = .error e -> exists detail, e = .dotDump detail

section Underway

variable {y : σ × List (List ρ)} {g g1 : Graph ρ} (hlog : y.2 = s.backend.2)
  (hpasses : s.graph.PassesOn s.config bank [] g1)

include hlog hpasses

theorem Underway.later {r : Scheduled ρ (σ × List (List ρ)) Nat}
    (h : Underway bank g { s with graph := g1, backend := y } r) : Underway bank g s r := by
  refine ⟨?_, h.log.trans hlog, h.rests, h.consistent, hpasses.trans h.passesOn, h.arrives,
    h.fails⟩
  rw [h.same]

variable (hg : g1.Consistent) (hrests : s.config.ComesToRest bank g1 g)

include hg hrests

theorem Underway.stopped (detail : String) :
    Underway bank g s ({ s with graph := g1, backend := y }, .error (.dotDump detail)) := by
  refine ⟨rfl, hlog, hrests, hg, hpasses, nofun, ?_⟩
  intro e he
  cases he
  exact ⟨detail, rfl⟩

theorem Underway.arrived (hsame : g1 = g) (n : Nat) :
    Underway bank g s ({ s with graph := g1, backend := y }, .ok n) :=
  ⟨rfl, hlog, hrests, hg, hpasses, fun _ _ => hsame, nofun⟩

end Underway

/-- The rounds of a scheduler, wherever a drawing stops them.  The induction is on the rounds
that are left until the graph is at rest. -/
theorem rounds_underway (b : Backend ρ σ) {c : Config} {n : Nat} {g0 g : Graph ρ}
    (h : c.Settles bank n g0 g) (hconfig : s.config = c) (hgraph : s.graph = g0)
    (hg : g0.Consistent) {left before : Nat} (hleft : n < left) (hlimit : left ≤ c.maxRounds) :
    exists r, rounds bank b.watched left before s = .ok r ∧ Underway bank g s r := by
  have hpos : left ≠ 0 := by omega
  rcases Nat.exists_eq_add_one_of_ne_zero hpos with ⟨left, rfl⟩
  induction h generalizing s left before with
  | @rest g idle =>
      subst hconfig hgraph
      have hrests : s.config.ComesToRest bank s.graph s.graph := ⟨0, .rest idle, Or.inl (by omega)⟩
      have hpasses := Graph.PassesOn.refl s.config bank s.graph
      rcases dump_watched b s (before + 1) with ⟨y, hlog, hdump | ⟨detail, hdump⟩⟩
      · exact ⟨_, rounds_eq idle hdump left, .arrived hlog hpasses hg hrests rfl (before + 1)⟩
      · exact ⟨_, rounds_eq_error idle hdump left, .stopped hlog hpasses hg hrests detail⟩
  | @round n g0 g1 g busy later ih =>
      subst hconfig hgraph
      rcases Graph.runPasses_passesOn hg s.config bank with ⟨g1', changed, hrun, hg1, hpasses⟩
      rw [busy] at hrun
      cases hrun
      have hrests : s.config.ComesToRest bank g1 g := ⟨n, later, Or.inl (by omega)⟩
      rcases dump_watched b { s with graph := g1 } (before + 1)
        with ⟨y, hy, hdump | ⟨detail, hdump⟩⟩
      · have hlog : y.2 = s.backend.2 := hy
        rcases Nat.exists_eq_add_one_of_ne_zero (show left ≠ 0 by omega) with ⟨left, rfl⟩
        let s1 : Scheduler ρ (σ × List (List ρ)) := { s with graph := g1, backend := y }
        have hnext : exists r, rounds bank b.watched (left + 1) (before + 1) s1 = .ok r ∧
            Underway bank g s1 r :=
          ih (s := s1) rfl rfl hg1 left (by omega) (by omega) (by omega)
        rcases hnext with ⟨r, hrounds, hr⟩
        exact ⟨r, (rounds_eq busy hdump (left + 1)).trans hrounds, hr.later hlog hpasses⟩
      · have hlog : y.2 = s.backend.2 := hy
        exact ⟨_, rounds_eq_error busy hdump left, .stopped hlog hpasses hg1 hrests detail⟩

theorem optimize_underway (b : Backend ρ σ) {g : Graph ρ} (hg : s.graph.Consistent)
    (h : s.config.ComesToRest bank s.graph g) :
    exists r, s.optimize bank b.watched = .ok r ∧ Underway bank g s r := by
  have hrests := h
  rcases h with ⟨n, hsettles, hlimit⟩
  by_cases hempty : s.graph.pendingCount = 0
  · have hsame := hsettles.eq_of_empty hg hempty
    exact ⟨(s, .ok 0), if_pos hempty,
      .arrived rfl (.refl s.config bank s.graph) hg hrests hsame.symm 0⟩
  · rw [optimize_eq_rounds bank b.watched hempty]
    exact rounds_underway b hsettles rfl rfl hg (hlimit.resolve_right hempty) (Nat.le_refl _)

end Rounds

/-!
## Flushes
-/

/-- If all drawings could be written, a flush would optimize until the graph is at rest as `g`,
and would not be stopped by the limit. -/
def SettlesAt (bank : Bank ρ) (s : Scheduler ρ σ) (g : Graph ρ) : Prop :=
  exists g1 inserted, s.graph.insertTasks bank s.config.listgenFilter s.queue.waiting
    = .ok (g1, inserted) ∧ s.config.ComesToRest bank g1 g

def drained (s : Scheduler ρ σ) (g : Graph ρ) : Scheduler ρ σ :=
  { s with queue := { s.queue with waiting := [] }, graph := g }

/-- The scheduler `s'` still has all that `s` had, and goes on to the same graph. -/
structure Stalled (bank : Bank ρ) (g : Graph ρ) (s s' : Scheduler ρ (σ × List (List ρ))) :
    Prop where
  same : s' = { s with graph := s'.graph, queue := s'.queue, backend := s'.backend }
  isOpen : s'.queue.isOpen = s.queue.isOpen
  log : s'.backend.2 = s.backend.2
  settles : s'.SettlesAt bank g
  consistent : s'.graph.Consistent
  passesOn : exists entered, entered ++ s'.queue.waiting = s.queue.waiting ∧
    s.graph.PassesOn s.config bank entered s'.graph

def completed {τ : Type} (s : Scheduler ρ σ) (g : Graph ρ) (y : τ) : Scheduler ρ τ where
  graph := g.releaseRecords.1.markExecuted
  queue := ⟨[], s.queue.isOpen⟩
  config := s.config
  sinceFlush := 0
  flushes := s.flushes + 1
  backend := y

structure Delivered (g : Graph ρ) (s s' : Scheduler ρ (σ × List (List ρ)))
    (result : Except SchedulerError FlushReport) : Prop where
  log : s'.backend.2 = s.backend.2 ++ inOneCall (g.pending.filterMap (·.record))
  completes : forall report, result = .ok report ->
    report.executed = (g.pending.filterMap (·.record)).length ∧ s' = s.completed g s'.backend
  refuses : forall e, result = .error e -> exists detail, e = .execute detail

section Flushes

variable {s s1 s2 : Scheduler ρ (σ × List (List ρ))} {g : Graph ρ}

theorem Stalled.refl (hg : s.graph.Consistent) (h : s.SettlesAt bank g) : Stalled bank g s s :=
  ⟨rfl, rfl, rfl, h, hg, [], rfl, .refl s.config bank s.graph⟩

theorem Stalled.trans (h1 : Stalled bank g s s1) (h2 : Stalled bank g s1 s2) :
    Stalled bank g s s2 := by
  have hconfig : s1.config = s.config := by rw [h1.same]
  refine ⟨?_, h2.isOpen.trans h1.isOpen, h2.log.trans h1.log, h2.settles, h2.consistent, ?_⟩
  · rw [h2.same, h1.same]
  · rcases h1.passesOn with ⟨entered1, hentered1, hpasses1⟩
    rcases h2.passesOn with ⟨entered2, hentered2, hpasses2⟩
    rw [hconfig] at hpasses2
    refine ⟨entered1 ++ entered2, ?_, hpasses1.trans hpasses2⟩
    rw [List.append_assoc, hentered2, hentered1]

theorem Stalled.completed {τ : Type} (h : Stalled bank g s s1) (y : τ) :
    s1.completed g y = s.completed g y := by
  have hconfig : s1.config = s.config := by rw [h.same]
  have hflushes : s1.flushes = s.flushes := by rw [h.same]
  rw [Scheduler.completed, Scheduler.completed, hconfig, hflushes, h.isOpen]

theorem Underway.stalled {g1 : Graph ρ} {detail : String}
    (hentered : s.graph.PassesOn s.config bank s.queue.waiting g1)
    (h : Underway bank g (s.drained g1) (s1, .error (.dotDump detail))) :
    s1.queue.waiting = [] ∧ Stalled bank g s s1 := by
  have hsame : exists g2 y, s1 = { s.drained g1 with graph := g2, backend := y } :=
    ⟨_, _, h.same⟩
  rcases hsame with ⟨g2, y, rfl⟩
  have hpasses := hentered.trans h.passesOn
  rw [List.append_nil] at hpasses
  exact ⟨rfl, rfl, rfl, h.log, ⟨g2, 0, rfl, h.rests⟩, h.consistent, s.queue.waiting,
    List.append_nil _, hpasses⟩

theorem Underway.delivers {b : Backend ρ σ} {g1 : Graph ρ} {submitted inserted rounds : Nat}
    (hinsert : s.insertWaiting bank = .ok (s.drained g1, submitted, inserted))
    (hoptimize : (s.drained g1).optimize bank b.watched = .ok (s1, .ok rounds))
    (h : Underway bank g (s.drained g1) (s1, .ok rounds)) :
    exists s' result, s.flush bank b.watched = .ok (s', result) ∧ Delivered g s s' result := by
  have hsame : exists g2 y, s1 = { s.drained g1 with graph := g2, backend := y } :=
    ⟨_, _, h.same⟩
  rcases hsame with ⟨g2, y, rfl⟩
  have harrives : g2 = g := h.arrives rounds rfl
  subst harrives
  rcases handOver_watched b h.consistent.extractToExecute_eq
    with ⟨s', executed, hhand, hlog, _, hcompletes, hrefuses⟩
  have hpassed : s'.backend.2 = s.backend.2 ++ inOneCall (g2.pending.filterMap (·.record)) :=
    hlog.trans (congrArg (· ++ _) h.log)
  cases executed with
  | error e =>
      refine ⟨_, _, flush_eq_refused hinsert hoptimize hhand, hpassed, nofun, ?_⟩
      intro e' he
      cases he
      exact hrefuses e rfl
  | ok n =>
      rcases hcompletes n rfl with ⟨hn, hs'⟩
      refine ⟨_, _, flush_eq hinsert hoptimize hhand, hpassed, ?_, nofun⟩
      intro report hreport
      cases hreport
      exact ⟨hn, hs'⟩

theorem flush_delivers (b : Backend ρ σ) (hg : s.graph.Consistent) (h : s.SettlesAt bank g) :
    exists s' result, s.flush bank b.watched = .ok (s', result) ∧
      ((exists detail, result = .error (.dotDump detail)) ∧ s'.queue.waiting = [] ∧
          Stalled bank g s s' ∨
        Delivered g s s' result) := by
  rcases h with ⟨g1, inserted, hinsert, hrests⟩
  rcases Graph.insertTasks_passesOn hg s.config bank s.queue.waiting
    with ⟨g1', inserted', hinsert', hg1, hentered⟩
  rw [hinsert] at hinsert'
  cases hinsert'
  rcases optimize_underway b (s := s.drained g1) hg1 hrests
    with ⟨⟨s1, outcome⟩, hoptimize, hunderway⟩
  cases outcome with
  | error e =>
      rcases hunderway.fails e rfl with ⟨detail, rfl⟩
      exact ⟨s1, _, flush_eq_error (insertWaiting_eq hinsert) hoptimize,
        Or.inl ⟨⟨detail, rfl⟩, hunderway.stalled hentered⟩⟩
  | ok rounds =>
      rcases hunderway.delivers (insertWaiting_eq hinsert) hoptimize with ⟨s', result, hrun, hs'⟩
      exact ⟨s', result, hrun, Or.inr hs'⟩

end Flushes

/-!
## Flushes below the limit
-/

section Limits

variable {b : Backend ρ σ} {s s' : Scheduler ρ σ}

theorem exists_settles_of_rounds (hg : s.graph.Consistent) {left before n : Nat}
    (hrun : rounds bank b left before s = .ok (s', .ok n)) (hless : n < before + left) :
    exists m g, m < left ∧ s.config.Settles bank m s.graph g := by
  induction left generalizing s before with
  | zero =>
      cases hrun
      exact absurd hless (Nat.lt_irrefl _)
  | succ left ih =>
      rcases s.config.runPasses_responds bank hg with ⟨g1, changed, hpasses, hg1, hresponds⟩
      have hwrite : b.WriteKeeps fun _ => True := fun _ _ _ _ _ => trivial
      rcases dump_ok hwrite (s := { s with graph := g1 }) trivial (before + 1)
        with ⟨y, result, hdump, _⟩
      cases result with
      | error e =>
          rw [rounds_eq_error hpasses hdump] at hrun
          cases hrun
      | ok _ =>
          rw [rounds_eq hpasses hdump] at hrun
          rcases hresponds with ⟨rfl, rfl⟩ | ⟨rfl, _⟩
          · exact ⟨0, s.graph, Nat.succ_pos left, .rest hpasses⟩
          · rcases ih (s := { s with graph := g1, backend := y }) hg1 hrun (by omega)
              with ⟨m, g, hm, hsettles⟩
            exact ⟨m + 1, g, Nat.succ_lt_succ hm, .round hpasses hsettles⟩

theorem flush_inv {s1 : Scheduler ρ σ} {submitted inserted : Nat} {report : FlushReport}
    (hrun : s.flush bank b = .ok (s', .ok report))
    (hinsert : s.insertWaiting bank = .ok (s1, submitted, inserted)) :
    exists s2, s1.optimize bank b = .ok (s2, .ok report.rounds) := by
  rw [flush, hinsert, ok_bind] at hrun
  dsimp only at hrun
  cases hoptimize : s1.optimize bank b with
  | error e =>
      rw [hoptimize] at hrun
      cases hrun
  | ok r =>
      rcases r with ⟨s2, outcome⟩
      rw [hoptimize, ok_bind] at hrun
      cases outcome with
      | error e => cases hrun
      | ok rounds =>
          dsimp only at hrun
          cases hhand : s2.handOver b with
          | error e =>
              rw [hhand] at hrun
              cases hrun
          | ok r =>
              rcases r with ⟨s3, executed⟩
              rw [hhand, ok_bind] at hrun
              cases executed with
              | error e => cases hrun
              | ok n =>
                  cases hrun
                  exact ⟨s2, rfl⟩

/-- A flush that ends below the limit shows on which graph the rounds come to rest. -/
theorem exists_settlesAt_of_flush (hg : s.graph.Consistent) {report : FlushReport}
    (hrun : s.flush bank b = .ok (s', .ok report)) (hless : report.rounds < s.config.maxRounds) :
    exists g, s.SettlesAt bank g := by
  rcases Graph.insertTasks_passesOn hg s.config bank s.queue.waiting
    with ⟨g1, inserted, hinsert, hg1, _⟩
  by_cases hempty : g1.pendingCount = 0
  · exact ⟨g1, g1, inserted, hinsert, 0, s.config.settles_of_empty bank hg1 hempty, Or.inr hempty⟩
  · rcases flush_inv hrun (insertWaiting_eq hinsert) with ⟨s2, hoptimize⟩
    rw [optimize_eq_rounds bank b hempty] at hoptimize
    rw [← Nat.zero_add s.config.maxRounds] at hless
    rcases exists_settles_of_rounds (s := s.drained g1) hg1 hoptimize hless
      with ⟨m, g, hm, hsettles⟩
    exact ⟨g, g1, inserted, hinsert, m, hsettles, Or.inl hm⟩

end Limits

/-!
## Schedulers in use
-/

def Reached (bank : Bank ρ) (b : Backend ρ σ) (s : Scheduler ρ σ) : Prop :=
  exists config x commands c,
    (Course.start config x).follow bank b commands = .ok c ∧ c.scheduler = s

/-- As many flushes in a row as the number says have failed since a drawing could not be
written. -/
inductive FailedFlushes (bank : Bank ρ) (b : Backend ρ σ) : Nat -> Scheduler ρ σ ->
    Scheduler ρ σ -> Prop where
  | none (s : Scheduler ρ σ) : FailedFlushes bank b 0 s s
  | more {k : Nat} {s s1 s2 : Scheduler ρ σ} {detail : String} (before : FailedFlushes bank b k s s1)
      (failed : s1.flush bank b = .ok (s2, .error (.dotDump detail))) :
      FailedFlushes bank b (k + 1) s s2

def moved {τ : Type} (s : Scheduler ρ σ) (y : τ) : Scheduler ρ τ := { s with backend := y }

section Uses

variable {b : Backend ρ σ} {s s1 : Scheduler ρ (σ × List (List ρ))} {g : Graph ρ} {k : Nat}

theorem flush_fit (b : Backend ρ σ) (h : s.graph.Fit bank) :
    exists s' result, s.flush bank b.watched = .ok (s', result) ∧ s'.graph.Fit bank := by
  rcases Graph.insertTasks_passesOn h.consistent s.config bank s.queue.waiting
    with ⟨g1, inserted, hinsert, hg1, hentered⟩
  have hpasses : forall pass, pass ∈ s.config.passes -> pass.Keeps bank (·.Fit bank) := by
    intro pass hpass g hg
    rcases Graph.run_passesOn hg.consistent bank hpass with ⟨g', changed, hrun, hg', hon⟩
    exact ⟨g', changed, hrun, hg.passOn hg' hon⟩
  have hwrite : b.watched.WriteKeeps fun _ => True := fun _ _ _ _ _ => trivial
  rcases optimize_ok (s := s.drained g1) (fun _ h => h.consistent) hwrite hpasses
      (h.passOn hg1 hentered) trivial
    with ⟨⟨s2, outcome⟩, hoptimize, hoptimized⟩
  have hinsertWaiting := insertWaiting_eq hinsert
  cases outcome with
  | error e => exact ⟨s2, _, flush_eq_error hinsertWaiting hoptimize, hoptimized.graph⟩
  | ok rounds =>
      rcases hoptimized.graph.consistent.extractToExecute with ⟨g2, hextract, hsettled, _⟩
      rcases handOver_watched b hextract with ⟨s3, executed, hhand, _, rfl, _⟩
      have hfit := hsettled.fit bank
      cases executed with
      | error e => exact ⟨s3, _, flush_eq_refused hinsertWaiting hoptimize hhand, hfit⟩
      | ok n => exact ⟨s3, _, flush_eq hinsertWaiting hoptimize hhand, hfit⟩

theorem obey_fit (b : Backend ρ σ) (h : s.graph.Fit bank) (command : Command ρ) :
    exists s' complete, s.obey bank b.watched command = .ok (s', complete) ∧
      s'.graph.Fit bank := by
  cases command with
  | submit record =>
      refine ⟨_, false, rfl, ?_⟩
      rcases Moment.submit_cases s record with ⟨_, hsubmit⟩ | ⟨_, hsubmit⟩
      · rw [hsubmit]
        exact h
      · rw [hsubmit]
        exact h
  | flush =>
      rcases flush_fit b h with ⟨s', result, hrun, hs'⟩
      refine ⟨s', completesFlush (result.map some), ?_, hs'⟩
      rw [obey, hrun]
      rfl
  | launch record =>
      rw [obey, launch]
      rcases Moment.submit_cases s record with ⟨_, hsubmit⟩ | ⟨_, hsubmit⟩
      · rw [hsubmit]
        dsimp only
        split
        · rcases flush_fit b (s := { s with
              queue := { s.queue with waiting := s.queue.waiting ++ [record] }
              sinceFlush := s.sinceFlush + 1 }) h with ⟨s', result, hrun, hs'⟩
          rw [hrun]
          exact ⟨s', _, rfl, hs'⟩
        · exact ⟨_, _, rfl, h⟩
      · rw [hsubmit]
        exact ⟨_, _, rfl, h⟩

theorem Reached.fit (h : Reached bank b.watched s) : s.graph.Fit bank := by
  rcases h with ⟨config, x, commands, c, hrun, rfl⟩
  have hnew : (Course.start config x : Course ρ _).scheduler.graph.Fit bank :=
    ⟨((Graph.new_settled (ρ := ρ)).built.withCounts ∅ ∅ 1 (.ofNat config.fusionWindow)).consistent,
      [], rfl⟩
  have hfollow : exists c', (Course.start config x).follow bank b.watched commands = .ok c' ∧
      c'.scheduler.graph.Fit bank := by
    refine foldlM_ok_of_keeps (fun c : Course ρ _ => c.scheduler.graph.Fit bank) ?_ hnew
    intro command _ c hc
    rcases obey_fit b hc command with ⟨s', complete, hobey, hs'⟩
    let launched := c.launched ++ command.records
    refine ⟨⟨s', launched, if complete then launched else c.flushed⟩, ?_, hs'⟩
    rw [Course.step, hobey]
    rfl
  rcases hfollow with ⟨c', hrun', hfit⟩
  rw [hrun] at hrun'
  cases hrun'
  exact hfit

/-- Flushes that fail leave a scheduler that goes on to the same graph. -/
theorem FailedFlushes.stalled (h : FailedFlushes bank b.watched k s s1)
    (hg : s.graph.Consistent) (hsettles : s.SettlesAt bank g) :
    Stalled bank g s s1 ∧ (0 < k -> s1.queue.waiting = []) := by
  induction h with
  | none => exact ⟨.refl hg hsettles, fun h => absurd h (Nat.lt_irrefl 0)⟩
  | @more k s s1 s2 detail before failed ih =>
      rcases ih hg hsettles with ⟨hstalled, _⟩
      rcases flush_delivers b hstalled.consistent hstalled.settles
        with ⟨s2', result, hrun, ⟨_, hwaiting, hlater⟩ | hdelivered⟩
      · rw [failed] at hrun
        cases hrun
        exact ⟨hstalled.trans hlater, fun _ => hwaiting⟩
      · rw [failed] at hrun
        cases hrun
        rcases hdelivered.refuses _ rfl with ⟨_, hrefused⟩
        cases hrefused

/-- What a flush passes on and leaves does not depend on flushes that have stalled before. -/
theorem Delivered.agrees {τ : Type} {s2 : Scheduler ρ (σ × List (List ρ))}
    {s2' : Scheduler ρ (τ × List (List ρ))} {y : τ} {report report' : FlushReport}
    (hstalled : Stalled bank g s s1) (h : Delivered g s1 s2 (.ok report))
    (h' : Delivered g (s.moved (y, s.backend.2)) s2' (.ok report')) :
    s2.backend.2 = s.backend.2 ++ inOneCall (g.pending.filterMap (·.record)) ∧
      s2'.backend.2 = s2.backend.2 ∧ s2' = s2.moved s2'.backend ∧
      report'.executed = report.executed := by
  rcases h.completes report rfl with ⟨hcount, hs2⟩
  rcases h'.completes report' rfl with ⟨hcount', hs2'⟩
  have hlog : s2.backend.2 = s.backend.2 ++ inOneCall (g.pending.filterMap (·.record)) := by
    rw [h.log, hstalled.log]
  rw [hstalled.completed] at hs2
  refine ⟨hlog, h'.log.trans hlog.symm, ?_, hcount'.trans hcount.symm⟩
  rw [hs2', hs2]
  rfl

/-- Drawings that cannot be written cost nothing.  Flushes that fail because of them execute
nothing, do not count, and lose no launch that the filter and the passes do not drop.  The first
flush that completes then passes the very batch to the backend that it would have been passed by
a flush that had not failed at all, and leaves the same scheduler. -/
theorem failed_flushes_cost_nothing (hs : Reached bank b.watched s) (hsettles : s.SettlesAt bank g)
    (hfailed : FailedFlushes bank b.watched k s s1) :
    (s1 = { s with graph := s1.graph, queue := s1.queue, backend := s1.backend } ∧
      s1.backend.2 = s.backend.2 ∧ (0 < k -> s1.queue.waiting = [])) ∧
    ((exists ds : List (Lineage bank), s.graph.pending.map (·.launch) = ds.map (·.launch)) ∧
      exists entered, entered ++ s1.queue.waiting = s.queue.waiting ∧
        s.graph.PassesOn s.config bank entered s1.graph) ∧
    exists s2 result, s1.flush bank b.watched = .ok (s2, result) ∧
      forall (τ : Type) (b' : Backend ρ τ) (y : τ), exists s2' result',
        (s.moved (y, s.backend.2)).flush bank b'.watched = .ok (s2', result') ∧
        forall report report', result = .ok report -> result' = .ok report' ->
          s2.backend.2 = s.backend.2 ++ inOneCall (g.pending.filterMap (·.record)) ∧
          s2'.backend.2 = s2.backend.2 ∧ s2' = s2.moved s2'.backend ∧
          report'.executed = report.executed := by
  have hfit := hs.fit
  rcases hfailed.stalled hfit.consistent hsettles with ⟨hstalled, hwaiting⟩
  refine ⟨⟨hstalled.same, hstalled.log, hwaiting⟩, ⟨hfit.launches, hstalled.passesOn⟩, ?_⟩
  rcases flush_delivers b hstalled.consistent hstalled.settles
    with ⟨s2, result, hrun, hcases⟩
  refine ⟨s2, result, hrun, ?_⟩
  intro τ b' y
  rcases flush_delivers (s := s.moved (y, s.backend.2)) b' hfit.consistent hsettles
    with ⟨s2', result', hrun', hcases'⟩
  refine ⟨s2', result', hrun', ?_⟩
  rintro report report' rfl rfl
  have hdelivered := hcases.resolve_left (by rintro ⟨⟨_, hdump⟩, _⟩; cases hdump)
  have hdelivered' := hcases'.resolve_left (by rintro ⟨⟨_, hdump⟩, _⟩; cases hdump)
  exact hdelivered.agrees hstalled hdelivered'

end Uses

end Scheduler

/-!
## Two drawings that fail
-/

/-- A backend that executes everything.  Its state says which of the next drawings can be
written; all others can. -/
def Backend.faltering : Backend ρ (List Bool) where
  execute _ x := (.ok (), x)
  write _ _ _ x :=
    (if x.head? = some false then .error "disk full" else .ok (), x.tail)

namespace Sample

def drawing (x : List Bool) : Scheduler (Program Task) (List Bool × List (List (Program Task))) :=
  { Scheduler.new { Config.standard with dotDumpDir := some "dumps" } (x, []) with
    queue := ⟨[fill, copy], true⟩ }

def flushed (s : Scheduler (Program Task) (List Bool × List (List (Program Task)))) :
    Scheduler (Program Task) (List Bool × List (List (Program Task))) :=
  match s.flush Sample.bank Backend.faltering.watched with
  | .ok (s', _) => s'
  | .error _ => s

def stalled : Scheduler (Program Task) (List Bool × List (List (Program Task))) :=
  flushed (flushed (drawing [true, false, false]))

theorem flush_flushed {s : Scheduler (Program Task) (List Bool × List (List (Program Task)))}
    {result : Except SchedulerError FlushReport}
    (h : (s.flush Sample.bank Backend.faltering.watched).map (·.2) = .ok result) :
    s.flush Sample.bank Backend.faltering.watched = .ok (flushed s, result) := by
  rw [flushed]
  cases hrun : s.flush Sample.bank Backend.faltering.watched with
  | error e =>
      rw [hrun] at h
      cases h
  | ok r =>
      rw [hrun] at h
      cases h
      rfl

theorem drawing_reached (x : List Bool) :
    Scheduler.Reached Sample.bank Backend.faltering.watched (drawing x) :=
  ⟨_, _, [.submit fill, .submit copy], _, rfl, rfl⟩

theorem stalled_failed : Scheduler.FailedFlushes Sample.bank Backend.faltering.watched 2
    (drawing [true, false, false]) stalled := by
  have first : ((drawing [true, false, false]).flush Sample.bank
      Backend.faltering.watched).map (·.2) = .ok (.error (.dotDump "disk full")) := by
    decide +kernel
  have second : ((flushed (drawing [true, false, false])).flush Sample.bank
      Backend.faltering.watched).map (·.2) = .ok (.error (.dotDump "disk full")) := by
    decide +kernel
  exact .more (.more (.none _) (flush_flushed first)) (flush_flushed second)

end Sample

namespace Scheduler

/-- After two failures the backend is passed one fused record, as without them. -/
theorem failed_flushes_cost_nothing_twice :
    FailedFlushes Sample.bank Backend.faltering.watched 2 (Sample.drawing [true, false, false])
        Sample.stalled ∧
      Sample.stalled.backend.2 = [] ∧ Sample.stalled.queue.waiting = [] ∧
      exists s2 report s2' report',
        Sample.stalled.flush Sample.bank Backend.faltering.watched = .ok (s2, .ok report) ∧
        (Sample.drawing []).flush Sample.bank Backend.faltering.watched = .ok (s2', .ok report') ∧
        s2'.backend.2 = [[.seq Sample.fill Sample.copy]] ∧ s2'.backend.2 = s2.backend.2 := by
  have undisturbed : (Sample.drawing []).flush Sample.bank Backend.faltering.watched
      = .ok (Sample.flushed (Sample.drawing []), .ok ⟨2, 2, 1, 2⟩) :=
    Sample.flush_flushed (by decide +kernel)
  have resumed : Sample.stalled.flush Sample.bank Backend.faltering.watched
      = .ok (Sample.flushed Sample.stalled, .ok ⟨0, 0, 1, 1⟩) :=
    Sample.flush_flushed (by decide +kernel)
  have batch : (Sample.flushed (Sample.drawing [])).backend.2
      = [[.seq Sample.fill Sample.copy]] := by decide +kernel
  rcases exists_settlesAt_of_flush (Sample.drawing_reached []).fit.consistent undisturbed
      (by decide) with ⟨g, hsettles⟩
  rcases failed_flushes_cost_nothing (Sample.drawing_reached [true, false, false]) hsettles
      Sample.stalled_failed
    with ⟨⟨_, hlog, hwaiting⟩, _, s2, result, hrun, hcompare⟩
  rw [resumed] at hrun
  cases hrun
  rcases hcompare _ Backend.faltering [] with ⟨s2', result', hrun', hagrees⟩
  have hrun1 : (Sample.drawing []).flush Sample.bank Backend.faltering.watched
      = .ok (s2', result') := hrun'
  rw [undisturbed] at hrun1
  cases hrun1
  exact ⟨Sample.stalled_failed, hlog, hwaiting (Nat.succ_pos 1), _, _, _, _, resumed, undisturbed,
    batch, (hagrees _ _ rfl rfl).right.left⟩

end Scheduler

end LaunchGraph
