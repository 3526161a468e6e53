import LaunchGraph.Scheduler
import LaunchGraph.Proofs.Loops
import LaunchGraph.Proofs.Graph.Verify

/-!
# Courses of a scheduler

A caller launches records and flushes whenever it likes; a scheduler may flush by itself as
well.  What holds of a scheduler throughout follows from what single steps keep: a property
of the graph that the passes keep survives all rounds of a flush, and a property of the
scheduler that launches and flushes keep survives any sequence of commands.
-/

namespace LaunchGraph

variable {ρ σ : Type} {bank : Bank ρ} {b : Backend ρ σ}

/-- No drawing is asked for, or all of them can be written. -/
def Backend.Draws (b : Backend ρ σ) (c : Config) : Prop :=
  c.dotDumpDir = none ∨ forall directory file text x, (b.write directory file text x).1 = .ok ()

def Backend.WriteKeeps (b : Backend ρ σ) (J : σ -> Prop) : Prop :=
  forall directory file text x, J x -> J (b.write directory file text x).2

def Backend.afterBatch (b : Backend ρ σ) (records : List ρ) (x : σ) : σ :=
  if records.isEmpty then x else (b.execute records x).2

/-- The backend refuses no batch.  In its state, `ran` lists the records that have been
executed. -/
structure Backend.Runs (b : Backend ρ σ) (ran : σ -> List ρ) : Prop where
  execute_ok : forall records x, (b.execute records x).1 = .ok ()
  ran_execute : forall records x, ran (b.execute records x).2 = ran x ++ records
  ran_write : forall directory file text x, ran (b.write directory file text x).2 = ran x

theorem Backend.Runs.ran_afterBatch {ran : σ -> List ρ} (h : b.Runs ran) (records : List ρ)
    (x : σ) : ran (b.afterBatch records x) = ran x ++ records := by
  rw [afterBatch]
  cases records with
  | nil => exact (List.append_nil _).symm
  | cons r rest => exact h.ran_execute (r :: rest) x

/-!
## Passes
-/

def Config.asksFor (c : Config) : Pass -> Bool
  | .listgen => c.listgen
  | .deadStores => c.deadStores
  | .demotion => c.demotion
  | .fusion => c.fusion

theorem Config.asksFor_of_mem {c : Config} {pass : Pass} (h : pass ∈ c.passes) :
    c.asksFor pass = true := by
  have only : forall {asked : Bool} {q : Pass}, pass ∈ (if asked then [q] else []) ->
      pass = q ∧ asked = true := by
    intro asked q hq
    cases asked with
    | false => cases hq
    | true => exact ⟨List.mem_singleton.mp hq, rfl⟩
  simp only [passes, List.mem_append, or_assoc] at h
  rcases h with h | h | h | h
  · rw [(only h).left]
    exact (only h).right
  · rw [(only h).left]
    exact (only h).right
  · rw [(only h).left]
    exact (only h).right
  · rw [(only h).left]
    exact (only h).right

def Pass.Keeps (bank : Bank ρ) (I : Graph ρ -> Prop) (pass : Pass) : Prop :=
  forall g, I g -> exists g' changed, pass.run bank g = .ok (g', changed) ∧ I g'

theorem Pass.runChecked_eq {pass : Pass} {g g' : Graph ρ} {changed : Bool}
    (hrun : pass.run bank g = .ok (g', changed)) (hg' : g'.Consistent) (verify : Bool) :
    pass.runChecked bank verify g = .ok (g', changed) := by
  rw [Pass.runChecked, hrun, ok_bind]
  cases verify with
  | false => rfl
  | true =>
      dsimp only
      rw [if_pos rfl, Graph.verify_ok bank hg']
      rfl

/-- A round goes through if its passes do.  It has an effect that each pass has, if the effects of
two passes, one after the other, are together the effect of both. -/
theorem Config.runPasses_composes {c : Config} {K : Graph ρ -> Prop}
    {R : Graph ρ -> Graph ρ × Bool -> Prop} (hK : forall g, K g -> g.Consistent)
    (hrefl : forall g, R g (g, false))
    (htrans : forall g g1 g2 changed now, R g (g1, changed) -> R g1 (g2, now) ->
      R g (g2, changed || now))
    (hpasses : forall pass, pass ∈ c.passes -> forall g, K g ->
      exists r, pass.run bank g = .ok r ∧ K r.1 ∧ R g r) {g : Graph ρ} (hg : K g) :
    exists r, c.runPasses bank g = .ok r ∧ K r.1 ∧ R g r := by
  refine foldlM_ok_of_keeps (fun r : Graph ρ × Bool => K r.1 ∧ R g r) ?_ ⟨hg, hrefl g⟩
  rintro pass hpass ⟨g1, changed⟩ ⟨hg1, hr⟩
  rcases hpasses pass hpass g1 hg1 with ⟨⟨g2, now⟩, hrun, hg2, hnow⟩
  refine ⟨(g2, changed || now), ?_, hg2, htrans _ _ _ _ _ hr hnow⟩
  dsimp only
  rw [Pass.runChecked_eq hrun (hK g2 hg2) c.verify]
  rfl

theorem Config.runPasses_ok {I : Graph ρ -> Prop} (hI : forall g, I g -> g.Consistent)
    {g : Graph ρ} (hg : I g) {c : Config}
    (h : forall pass, pass ∈ c.passes -> pass.Keeps bank I) :
    exists g' changed, c.runPasses bank g = .ok (g', changed) ∧ I g' := by
  have hpasses : forall pass, pass ∈ c.passes -> forall g, I g ->
      exists r, pass.run bank g = .ok r ∧ I r.1 ∧ True := by
    intro pass hpass g1 h1
    rcases h pass hpass g1 h1 with ⟨g2, now, hrun, h2⟩
    exact ⟨(g2, now), hrun, h2, trivial⟩
  rcases Config.runPasses_composes (R := fun _ _ => True) hI (fun _ => trivial)
      (fun _ _ _ _ _ _ _ => trivial) hpasses hg with ⟨⟨g', changed⟩, hrun, hg', _⟩
  exact ⟨g', changed, hrun, hg'⟩

/-!
## Rounds
-/

namespace Scheduler

structure Optimized (b : Backend ρ σ) (I : Graph ρ -> Prop) (J : σ -> Prop) (s : Scheduler ρ σ)
    (r : Scheduled ρ σ Nat) : Prop where
  same : r.1 = { s with graph := r.1.graph, backend := r.1.backend }
  graph : I r.1.graph
  backend : J r.1.backend
  completes : b.Draws s.config -> exists n, r.2 = .ok n

theorem dump_eq {s : Scheduler ρ σ} {directory : String}
    (hdir : s.config.dotDumpDir = some directory) (b : Backend ρ σ) (round : Nat) :
    let written := b.write directory (drawingName s.flushes round) (s.graph.dot (some "LR") 2)
      s.backend
    s.dump b round
      = ({ s with backend := written.2 }, written.1.mapError SchedulerError.dotDump) := by
  rw [dump, hdir]
  dsimp only
  cases b.write directory (drawingName s.flushes round) (s.graph.dot (some "LR") 2) s.backend with
  | mk outcome y => cases outcome <;> rfl

theorem dump_ok {J : σ -> Prop} (hJ : b.WriteKeeps J) {s : Scheduler ρ σ} (h : J s.backend)
    (round : Nat) :
    exists y result, s.dump b round = ({ s with backend := y }, result) ∧ J y ∧
      (b.Draws s.config -> result = .ok ()) ∧ (s.config.dotDumpDir = none -> y = s.backend) := by
  cases hdir : s.config.dotDumpDir with
  | none =>
      refine ⟨s.backend, .ok (), ?_, h, fun _ => rfl, fun _ => rfl⟩
      rw [dump, hdir]
  | some directory =>
      refine ⟨_, _, dump_eq hdir b round, hJ _ _ _ _ h, ?_, fun hnone => by cases hnone⟩
      intro hdraws
      rcases hdraws with hnone | hall
      · rw [hdir] at hnone
        cases hnone
      · rw [hall]
        rfl

theorem rounds_eq_error {s s' : Scheduler ρ σ} {g : Graph ρ} {changed : Bool}
    {e : SchedulerError} {before : Nat}
    (hpasses : s.config.runPasses bank s.graph = .ok (g, changed))
    (hdump : dump b { s with graph := g } (before + 1) = (s', .error e)) (left : Nat) :
    rounds bank b (left + 1) before s = .ok (s', .error e) := by
  rw [rounds, hpasses, ok_bind]
  dsimp only
  rw [hdump]
  rfl

theorem rounds_eq {s s' : Scheduler ρ σ} {g : Graph ρ} {changed : Bool} {before : Nat}
    (hpasses : s.config.runPasses bank s.graph = .ok (g, changed))
    (hdump : dump b { s with graph := g } (before + 1) = (s', .ok ())) (left : Nat) :
    rounds bank b (left + 1) before s = if changed then rounds bank b left (before + 1) s'
      else .ok (s', .ok (before + 1)) := by
  rw [rounds, hpasses, ok_bind]
  dsimp only
  rw [hdump]
  rfl

theorem optimize_eq_rounds (bank : Bank ρ) (b : Backend ρ σ) {s : Scheduler ρ σ}
    (h : s.graph.pendingCount ≠ 0) : s.optimize bank b = rounds bank b s.config.maxRounds 0 s :=
  if_neg h

section Rounds

variable {I : Graph ρ -> Prop} {J : σ -> Prop} (hI : forall g, I g -> g.Consistent)
  (hJ : b.WriteKeeps J) {s : Scheduler ρ σ}
  (hpasses : forall pass, pass ∈ s.config.passes -> pass.Keeps bank I)

include hI hJ hpasses

theorem rounds_ok (left before : Nat) (hgraph : I s.graph) (hbackend : J s.backend) :
    exists r, rounds bank b left before s = .ok r ∧ Optimized b I J s r := by
  induction left generalizing before s with
  | zero => exact ⟨(s, .ok before), rfl, rfl, hgraph, hbackend, fun _ => ⟨before, rfl⟩⟩
  | succ left ih =>
      rcases Config.runPasses_ok hI hgraph hpasses with ⟨g', changed, hrun, hgraph'⟩
      let s1 : Scheduler ρ σ := { s with graph := g' }
      rcases dump_ok hJ (s := s1) hbackend (before + 1)
        with ⟨y, result, hdump, hbackend', hok, _⟩
      let s2 : Scheduler ρ σ := { s1 with backend := y }
      cases result with
      | error e =>
          refine ⟨_, rounds_eq_error hrun hdump left, rfl, hgraph', hbackend', ?_⟩
          intro hdraws
          cases hok hdraws
      | ok _ =>
          rw [rounds_eq hrun hdump]
          cases changed with
          | false => exact ⟨_, rfl, rfl, hgraph', hbackend', fun _ => ⟨_, rfl⟩⟩
          | true =>
              rcases ih (s := s2) hpasses (before + 1) hgraph' hbackend' with ⟨r, hrest, hr⟩
              refine ⟨r, hrest, ?_, hr.graph, hr.backend, hr.completes⟩
              rw [hr.same]

theorem optimize_ok (hgraph : I s.graph) (hbackend : J s.backend) :
    exists r, s.optimize bank b = .ok r ∧ Optimized b I J s r := by
  rw [optimize]
  split
  · exact ⟨(s, .ok 0), rfl, rfl, hgraph, hbackend, fun _ => ⟨0, rfl⟩⟩
  · exact rounds_ok hI hJ hpasses s.config.maxRounds 0 hgraph hbackend

end Rounds

/-!
## Flushes
-/

section Flushes

variable {s : Scheduler ρ σ}

theorem insertWaiting_eq {g : Graph ρ} {inserted : Nat}
    (hrun : s.graph.insertTasks bank s.config.listgenFilter s.queue.waiting = .ok (g, inserted)) :
    s.insertWaiting bank = .ok ({ s with queue := { s.queue with waiting := [] }, graph := g },
      s.queue.waiting.length, inserted) := by
  show (s.graph.insertTasks bank s.config.listgenFilter s.queue.waiting >>= _) = _
  rw [hrun]
  rfl

theorem flush_eq_error {s1 s2 : Scheduler ρ σ} {submitted inserted : Nat} {e : SchedulerError}
    (hinsert : s.insertWaiting bank = .ok (s1, submitted, inserted))
    (hoptimize : s1.optimize bank b = .ok (s2, .error e)) :
    s.flush bank b = .ok (s2, .error e) := by
  rw [flush, hinsert, ok_bind]
  dsimp only
  rw [hoptimize]
  rfl

theorem flush_eq {s1 s2 s3 : Scheduler ρ σ} {submitted inserted rounds executed : Nat}
    (hinsert : s.insertWaiting bank = .ok (s1, submitted, inserted))
    (hoptimize : s1.optimize bank b = .ok (s2, .ok rounds))
    (hhand : s2.handOver b = .ok (s3, .ok executed)) :
    s.flush bank b = .ok (s3, .ok { submitted, inserted, executed, rounds }) := by
  rw [flush, hinsert, ok_bind]
  dsimp only
  rw [hoptimize, ok_bind]
  dsimp only
  rw [hhand]
  rfl

theorem flush_eq_refused {s1 s2 s3 : Scheduler ρ σ} {submitted inserted rounds : Nat}
    {e : SchedulerError} (hinsert : s.insertWaiting bank = .ok (s1, submitted, inserted))
    (hoptimize : s1.optimize bank b = .ok (s2, .ok rounds))
    (hhand : s2.handOver b = .ok (s3, .error e)) : s.flush bank b = .ok (s3, .error e) := by
  rw [flush, hinsert, ok_bind]
  dsimp only
  rw [hoptimize, ok_bind]
  dsimp only
  rw [hhand]
  rfl

theorem executeBatch_eq (hb : forall records x, (b.execute records x).1 = .ok ())
    (records : List ρ) :
    s.executeBatch b records = ({ s with backend := b.afterBatch records s.backend }, .ok ()) := by
  rw [executeBatch, Backend.afterBatch]
  cases records with
  | nil => rfl
  | cons r rest =>
      have hok := hb (r :: rest) s.backend
      rw [List.isEmpty_cons, if_neg Bool.false_ne_true, if_neg Bool.false_ne_true]
      cases hrun : b.execute (r :: rest) s.backend with
      | mk outcome y =>
          rw [hrun] at hok
          dsimp only at hok
          subst hok
          rfl

theorem handOver_eq (hb : forall records x, (b.execute records x).1 = .ok ()) {g : Graph ρ}
    {records : List ρ} (hrun : s.graph.extractToExecute = .ok (g, records)) :
    s.handOver b = .ok ({ s with
      graph := g
      backend := b.afterBatch records s.backend
      flushes := s.flushes + 1
      sinceFlush := 0 }, .ok records.length) := by
  rw [handOver, hrun, ok_bind]
  dsimp only
  rw [executeBatch_eq hb]
  rfl

theorem submit_eq (hopen : s.queue.isOpen = true) (record : ρ) :
    s.submit record
      = ({ s with queue := { s.queue with waiting := s.queue.waiting ++ [record] } }, .ok ()) := by
  rw [submit, LaunchQueue.submit, if_pos hopen]

end Flushes

end Scheduler

/-!
## Commands
-/

/-- What a caller may ask of a scheduler.  A record that is submitted goes into the queue
only, while a launch may cause a flush. -/
inductive Command (ρ : Type) where
  | submit (record : ρ)
  | launch (record : ρ)
  | flush

def Command.records : Command ρ -> List ρ
  | submit record => [record]
  | launch record => [record]
  | flush => []

def completesFlush : Except SchedulerError (Option FlushReport) -> Bool
  | .ok (some _) => true
  | _ => false

def Scheduler.obey (bank : Bank ρ) (b : Backend ρ σ) (s : Scheduler ρ σ) :
    Command ρ -> Outcome (Scheduler ρ σ × Bool)
  | .submit record => return ((s.submit record).1, false)
  | .launch record => do
      let (s, result) ← s.launch bank b record
      return (s, completesFlush result)
  | .flush => do
      let (s, result) ← s.flush bank b
      return (s, completesFlush (result.map some))

/-- A scheduler, the launches made so far, and those of them that a flush has covered. -/
structure Course (ρ σ : Type) where
  scheduler : Scheduler ρ σ
  launched : List ρ
  flushed : List ρ

namespace Course

def start (config : Config) (x : σ) : Course ρ σ := ⟨.new config x, [], []⟩

def step (bank : Bank ρ) (b : Backend ρ σ) (c : Course ρ σ) (command : Command ρ) :
    Outcome (Course ρ σ) := do
  let (scheduler, complete) ← c.scheduler.obey bank b command
  let launched := c.launched ++ command.records
  return ⟨scheduler, launched, if complete then launched else c.flushed⟩

def follow (bank : Bank ρ) (b : Backend ρ σ) (c : Course ρ σ) (commands : List (Command ρ)) :
    Outcome (Course ρ σ) :=
  commands.foldlM (step bank b) c

structure Steady (bank : Bank ρ) (b : Backend ρ σ) (config : Config) (allowed : ρ -> Prop)
    (K : Course ρ σ -> Prop) : Prop where
  isOpen : forall c, K c -> c.scheduler.queue.isOpen = true
  submit : forall c, K c -> forall record, allowed record -> forall sinceFlush,
    K ⟨{ c.scheduler with
          queue := { c.scheduler.queue with waiting := c.scheduler.queue.waiting ++ [record] }
          sinceFlush }, c.launched ++ [record], c.flushed⟩
  flush : forall c, K c -> exists s' result, c.scheduler.flush bank b = .ok (s', result) ∧
    K ⟨s', c.launched, if completesFlush (result.map some) then c.launched else c.flushed⟩ ∧
      (b.Draws config -> completesFlush (result.map some) = true)

section Courses

variable {config : Config} {allowed : ρ -> Prop} {K : Course ρ σ -> Prop}
  (hK : Steady bank b config allowed K) {c : Course ρ σ} (h : K c)

def Obeyed (bank : Bank ρ) (b : Backend ρ σ) (config : Config) (K : Course ρ σ -> Prop)
    (c : Course ρ σ) (command : Command ρ) : Prop :=
  exists c', c.step bank b command = .ok c' ∧ K c' ∧
    c'.launched = c.launched ++ command.records ∧
    (command = .flush -> b.Draws config -> c'.flushed = c'.launched)

include hK h

theorem step_submit {record : ρ} (hrecord : allowed record) :
    Obeyed bank b config K c (.submit record) := by
  refine ⟨_, ?_, hK.submit c h record hrecord c.scheduler.sinceFlush, rfl, fun heq => by cases heq⟩
  rw [step, Scheduler.obey, Scheduler.submit_eq (hK.isOpen c h)]
  rfl

theorem step_launch {record : ρ} (hrecord : allowed record) :
    Obeyed bank b config K c (.launch record) := by
  let s' : Scheduler ρ σ := { c.scheduler with
    queue := { c.scheduler.queue with waiting := c.scheduler.queue.waiting ++ [record] }
    sinceFlush := c.scheduler.sinceFlush + 1 }
  have hwaiting := hK.submit c h record hrecord (c.scheduler.sinceFlush + 1)
  have hlaunch : c.scheduler.launch bank b record = (if s'.isDue then do
      let (s, result) ← s'.flush bank b
      return (s, result.map some)
    else
      return (s', .ok none)) := by
    rw [Scheduler.launch, Scheduler.submit_eq (hK.isOpen c h)]
  rw [Obeyed, step, Scheduler.obey, hlaunch]
  cases s'.isDue with
  | false => exact ⟨_, rfl, hwaiting, rfl, fun heq => by cases heq⟩
  | true =>
      rcases hK.flush _ hwaiting with ⟨s'', result, hrun, hflushed, _⟩
      refine ⟨_, ?_, hflushed, rfl, fun heq => by cases heq⟩
      rw [if_pos rfl, hrun]
      rfl

theorem step_flush : Obeyed bank b config K c .flush := by
  rcases hK.flush c h with ⟨s', result, hrun, hflushed, hcomplete⟩
  refine ⟨_, ?_, hflushed, (List.append_nil _).symm, ?_⟩
  · rw [step, Scheduler.obey, hrun]
    show Except.ok _ = _
    rw [Command.records, List.append_nil]
  · intro _ hdraws
    exact if_pos (hcomplete hdraws)

/-- Every command is carried out without a fault.  After a flush on demand that could write
its drawings, all launches are covered. -/
theorem step_ok {command : Command ρ} (hrecords : forall r, r ∈ command.records -> allowed r) :
    Obeyed bank b config K c command := by
  cases command with
  | submit record => exact step_submit hK h (hrecords record (List.mem_singleton.mpr rfl))
  | launch record => exact step_launch hK h (hrecords record (List.mem_singleton.mpr rfl))
  | flush => exact step_flush hK h

omit h

theorem follow_ok {x : σ} (hstart : K (start config x)) (commands : List (Command ρ))
    (hrecords : forall r, r ∈ commands.flatMap (·.records) -> allowed r) :
    exists c, (start config x).follow bank b commands = .ok c ∧ K c ∧
      c.launched = commands.flatMap (·.records) ∧
      (forall before, commands = before ++ [.flush] -> b.Draws config ->
        c.flushed = c.launched) := by
  refine foldlM_ok_of_step (fun (done : List (Command ρ)) (c : Course ρ σ) =>
    K c ∧ c.launched = done.flatMap (·.records) ∧
      (forall before, done = before ++ [.flush] -> b.Draws config -> c.flushed = c.launched))
    ?_ ⟨hstart, rfl, fun before h => by simp at h⟩
  rintro done command rest c hsplit ⟨hc, hlaunched, _⟩
  have hcommand : forall r, r ∈ command.records -> allowed r := by
    intro r hr
    refine hrecords r (List.mem_flatMap.mpr ⟨command, ?_, hr⟩)
    rw [hsplit]
    simp
  rcases step_ok hK hc hcommand with ⟨c', hrun, hc', hlaunched', hflushed⟩
  refine ⟨c', hrun, hc', ?_, ?_⟩
  · rw [hlaunched', hlaunched, List.flatMap_append, List.flatMap_singleton]
  · intro before hlast
    exact hflushed (List.cons.inj (List.append_inj' hlast rfl).right).left

end Courses

end Course

end LaunchGraph
