import LaunchGraph.Proofs.Course
import LaunchGraph.Proofs.Graph.Execute
import LaunchGraph.Proofs.Pass.Preserve
import LaunchGraph.Proofs.Program

/-!
# Schedules

The passes of a scheduler change what is executed, and when.  With fusion and dead store
elimination as the only passes, every flush that completes still leaves the states as if
the launches had run one by one, and launches with side effects have seen the same.
-/

namespace LaunchGraph

variable {ρ V σ : Type} {bank : Bank ρ} {m : Meaning bank V}

/-- Of the passes, only fusion and dead store elimination may run, and no launch is left
out. -/
structure Config.Preserving (c : Config) : Prop where
  listgen : c.listgen = false
  listgenFilter : c.listgenFilter = false
  demotion : c.demotion = false

/-- The backend executes the records of each batch in order.  In its state, `contents` is
what the states hold, and `ran` lists the records that have been executed. -/
structure Backend.Executes (b : Backend ρ σ) (m : Meaning bank V) (contents : σ -> Store V)
    (ran : σ -> List ρ) : Prop where
  execute_ok : forall records x, (b.execute records x).1 = .ok ()
  contents_execute : forall records x,
    contents (b.execute records x).2 = m.runs records (contents x)
  ran_execute : forall records x, ran (b.execute records x).2 = ran x ++ records
  contents_write : forall directory file text x,
    contents (b.write directory file text x).2 = contents x
  ran_write : forall directory file text x, ran (b.write directory file text x).2 = ran x

theorem Backend.Executes.runs {b : Backend ρ σ} {contents : σ -> Store V} {ran : σ -> List ρ}
    (h : b.Executes m contents ran) : b.Runs ran :=
  ⟨h.execute_ok, h.ran_execute, h.ran_write⟩

theorem Backend.Executes.contents_afterBatch {b : Backend ρ σ} {contents : σ -> Store V}
    {ran : σ -> List ρ} (h : b.Executes m contents ran) (records : List ρ) (x : σ) :
    contents (b.afterBatch records x) = m.runs records (contents x) := by
  rw [afterBatch]
  cases records with
  | nil => rfl
  | cons r rest => exact h.contents_execute (r :: rest) x

def Meaning.backend (m : Meaning bank V) : Backend ρ (Store V × List ρ) where
  execute records x := (.ok (), m.runs records x.1, x.2 ++ records)
  write _ _ _ x := (.ok (), x)

theorem Meaning.backend_executes (m : Meaning bank V) :
    m.backend.Executes m (fun x => x.1) (fun x => x.2) :=
  ⟨fun _ _ => rfl, fun _ _ => rfl, fun _ _ => rfl, fun _ _ _ _ => rfl, fun _ _ _ _ => rfl⟩

def plain (launches : List ρ) : List (Recipe ρ) := launches.mapIdx Recipe.launch

/-!
## Passes
-/

/-- The recipes are those of the pending nodes, in order. -/
structure Pends (bank : Bank ρ) (launches : List ρ) (g : Graph ρ) (todo : List (Recipe ρ)) :
    Prop where
  built : exists origin, g.Built origin
  launch : g.pending.map (·.launch) = todo.map (Recipe.product bank)
  made : forall p, p ∈ todo -> p.Made bank launches

def Reworks (m : Meaning bank V) (launches : List ρ) (todo : List (Recipe ρ)) (g : Graph ρ) :
    Prop :=
  exists todo', Pends bank launches g todo' ∧ forall τ, m.Same τ todo' todo

section Passes

variable {launches : List ρ} {todo : List (Recipe ρ)} {g : Graph ρ}

theorem Pends.reworks (m : Meaning bank V) (h : Pends bank launches g todo) :
    Reworks m launches todo g :=
  ⟨todo, h, fun τ => .refl m τ todo⟩

theorem Pends.consistent (h : Pends bank launches g todo) : g.Consistent := by
  rcases h.built with ⟨origin, hbuilt⟩
  exact hbuilt.consistent

theorem Pends.rebuilt (h : Pends bank launches g todo) {g' : Graph ρ} (hrebuilt : g.Rebuilt g')
    (hremade : Remade m launches todo (g'.pending.map (·.launch))) :
    Reworks m launches todo g' := by
  rcases hremade with ⟨todo', hlaunch, hmade, hsame⟩
  refine ⟨todo', ⟨?_, hlaunch, hmade⟩, hsame⟩
  rcases hrebuilt with rfl | hbuilt
  · exact h.built
  · exact hbuilt

def Pass.Preserving : Pass -> Prop
  | .deadStores => True
  | .fusion => True
  | _ => False

theorem Reworks.consistent (h : Reworks m launches todo g) : g.Consistent := by
  rcases h with ⟨_, hpends, _⟩
  exact hpends.consistent

theorem Pass.Preserving.keeps (hm : m.Faithful) {pass : Pass} (hpass : pass.Preserving) :
    pass.Keeps bank (Reworks m launches todo) := by
  rintro g ⟨todo', hpends, hsame⟩
  rcases hpends.built with ⟨origin, hbuilt⟩
  have hforward := hbuilt.forward
  have key : exists g' changed, pass.run bank g = .ok (g', changed) ∧
      Reworks m launches todo' g' := by
    cases pass with
    | deadStores =>
        rcases Graph.eliminateDeadStores_ok bank hbuilt.sound hforward
          with ⟨g', changed, hrun, hrebuilt, hswept⟩
        exact ⟨g', changed, hrun,
          hpends.rebuilt hrebuilt (hswept.remade hm hbuilt hpends.launch hpends.made)⟩
    | fusion =>
        rcases Graph.fuse_ok bank hbuilt.sound hforward
          with ⟨g', changed, groups, hrun, hrebuilt, hregrouped⟩
        exact ⟨g', changed, hrun,
          hpends.rebuilt hrebuilt (hregrouped.remade hm hbuilt hpends.launch hpends.made)⟩
    | listgen => exact hpass.elim
    | demotion => exact hpass.elim
  rcases key with ⟨g', changed, hrun, todo'', hpends', hsame'⟩
  exact ⟨g', changed, hrun, todo'', hpends', fun τ => (hsame' τ).trans (hsame τ)⟩

theorem Config.Preserving.passes {c : Config} (hc : c.Preserving) {pass : Pass}
    (hpass : pass ∈ c.passes) : pass.Preserving := by
  have hasked := Config.asksFor_of_mem hpass
  cases pass with
  | deadStores => trivial
  | fusion => trivial
  | listgen => cases hasked.symm.trans hc.listgen
  | demotion => cases hasked.symm.trans hc.demotion

end Passes

/-!
## Flushes
-/

namespace Scheduler

/-- What a scheduler keeps to.  The launches `launches` were moved into the graph, and
those in `flushed` were covered by a flush that completed.  The recipes in `done` were
executed, those in `todo` are pending. -/
structure Keeps (m : Meaning bank V) (contents : σ -> Store V) (ran : σ -> List ρ)
    (config : Config) (x : σ) (launches flushed : List ρ) (done todo : List (Recipe ρ))
    (s : Scheduler ρ σ) : Prop where
  config : s.config = config
  isOpen : s.queue.isOpen = true
  pends : Pends bank launches s.graph todo
  flushed_first : exists rest, launches = flushed ++ rest
  made : forall p, p ∈ done -> p.Made bank flushed
  ran_eq : ran s.backend = ran x ++ done.map (·.record)
  contents_eq : contents s.backend = m.runs (done.map (·.record)) (contents x)
  current : m.Same (contents x) (done ++ todo) (plain launches)
  settled : m.Same (contents x) done (plain flushed)

section Flushes

variable {contents : σ -> Store V} {ran : σ -> List ρ} {b : Backend ρ σ} {config : Config}
  {x : σ} {launches flushed : List ρ} {done todo : List (Recipe ρ)} {s : Scheduler ρ σ}

theorem plain_append (launches more : List ρ) : plain (launches ++ more)
    = plain launches ++ more.mapIdx fun i r => .launch (i + launches.length) r :=
  List.mapIdx_append

theorem map_product_mapIdx (more : List ρ) (n : Nat) :
    (more.mapIdx fun i r => Recipe.launch (i + n) r).map (Recipe.product bank)
      = more.map (Graph.launchOf bank) := by
  apply List.ext_getElem
  · simp
  · intro i h1 h2
    simp [Recipe.product, Recipe.record]

theorem map_record_plain (launches : List ρ) : (plain launches).map (·.record) = launches := by
  apply List.ext_getElem
  · simp [plain]
  · intro i h1 h2
    simp [plain, Recipe.record]

theorem made_of_mem_mapIdx {launches more : List ρ} {p : Recipe ρ}
    (hp : p ∈ more.mapIdx fun i r => Recipe.launch (i + launches.length) r) :
    p.Made bank (launches ++ more) := by
  rcases List.mem_mapIdx.mp hp with ⟨i, hi, rfl⟩
  refine .launch ?_
  rw [List.getElem?_append_right (Nat.le_add_left ..), Nat.add_sub_cancel]
  exact List.getElem?_eq_getElem hi

theorem insertWaiting_ok (hc : config.Preserving)
    (h : Keeps m contents ran config x launches flushed done todo s) :
    exists s' submitted inserted more, s.insertWaiting bank = .ok (s', submitted, inserted) ∧
      s'.queue = { s.queue with waiting := [] } ∧
      Keeps m contents ran config x (launches ++ s.queue.waiting) flushed done (todo ++ more) s' := by
  have hconsistent := h.pends.consistent
  rcases Graph.insertTasks_ok bank hconsistent.sound s.config.listgenFilter s.queue.waiting
    with ⟨g', kept, hrun, hgrown, hall, _⟩
  have hkept : kept = s.queue.waiting := by
    refine hall ?_
    rw [h.config]
    exact hc.listgenFilter
  let more := s.queue.waiting.mapIdx fun i r => Recipe.launch (i + launches.length) r
  refine ⟨{ s with queue := { s.queue with waiting := [] }, graph := g' }, s.queue.waiting.length,
    kept.length, more, insertWaiting_eq hrun, rfl, h.config, h.isOpen, ⟨?_, ?_, ?_⟩, ?_, h.made,
    h.ran_eq, h.contents_eq, ?_, h.settled⟩
  · rcases h.pends.built with ⟨origin, hbuilt⟩
    exact ⟨origin, hgrown.built hbuilt⟩
  · rw [List.map_append, map_product_mapIdx, ← h.pends.launch, ← hkept]
    exact hgrown.launches
  · intro p hp
    rcases List.mem_append.mp hp with hp | hp
    · exact (h.pends.made p hp).append _
    · exact made_of_mem_mapIdx hp
  · rcases h.flushed_first with ⟨rest, hrest⟩
    exact ⟨rest ++ s.queue.waiting, by rw [hrest, List.append_assoc]⟩
  · rw [plain_append, ← List.append_assoc]
    exact h.current.append_right more

theorem Pends.records (h : Pends bank launches s.graph todo) :
    s.graph.pending.filterMap (·.record) = todo.map (·.record) := by
  have hmap := congrArg (List.filterMap fun p => p.1) h.launch
  rw [List.filterMap_map, List.filterMap_map] at hmap
  refine Eq.trans hmap ?_
  rw [← List.filterMap_eq_map]
  rfl

theorem handOver_ok (hb : b.Executes m contents ran)
    (h : Keeps m contents ran config x launches flushed done todo s) :
    exists s' n, s.handOver b = .ok (s', .ok n) ∧ s'.queue = s.queue ∧
      Keeps m contents ran config x launches launches (done ++ todo) [] s' := by
  rcases h.pends.consistent.extractToExecute with ⟨g', hrun, hsettled, _, _⟩
  rw [Pends.records h.pends] at hrun
  have hran := hb.runs.ran_afterBatch (todo.map (·.record)) s.backend
  have hcontents := hb.contents_afterBatch (todo.map (·.record)) s.backend
  refine ⟨_, _, handOver_eq hb.execute_ok hrun, rfl, h.config, h.isOpen,
    ⟨⟨_, hsettled.built⟩, ?_, ?_⟩, ⟨[], (List.append_nil _).symm⟩, ?_, ?_, ?_, ?_, h.current⟩
  · rw [hsettled.pending_nil]
    rfl
  · intro p hp
    cases hp
  · intro p hp
    rcases List.mem_append.mp hp with hp | hp
    · rcases h.flushed_first with ⟨rest, hrest⟩
      rw [hrest]
      exact (h.made p hp).append rest
    · exact h.pends.made p hp
  · rw [List.map_append, ← List.append_assoc, ← h.ran_eq]
    exact hran
  · rw [List.map_append, Meaning.runs_append, ← h.contents_eq]
    exact hcontents
  · rw [List.append_nil]
    exact h.current

def Idle (contents : σ -> Store V) (ran : σ -> List ρ) (x y : σ) : Prop :=
  contents y = contents x ∧ ran y = ran x

theorem writeKeeps_idle (hb : b.Executes m contents ran) (x : σ) :
    b.WriteKeeps (Idle contents ran x) := by
  rintro directory file text y ⟨hcontents, hran⟩
  exact ⟨(hb.contents_write ..).trans hcontents, (hb.ran_write ..).trans hran⟩

theorem Keeps.optimized (h : Keeps m contents ran config x launches flushed done todo s)
    {r : Scheduled ρ σ Nat}
    (hr : Optimized b (Reworks m launches todo) (Idle contents ran s.backend) s r) :
    r.1.queue = s.queue ∧
      exists todo', Keeps m contents ran config x launches flushed done todo' r.1 := by
  have hqueue : r.1.queue = s.queue := by rw [hr.same]
  have hconfig : r.1.config = s.config := by rw [hr.same]
  rcases hr.graph with ⟨todo', hpends, hsame⟩
  rcases hr.backend with ⟨hcontents, hran⟩
  refine ⟨hqueue, todo', hconfig.trans h.config, ?_, hpends, h.flushed_first, h.made,
    hran.trans h.ran_eq, hcontents.trans h.contents_eq, ?_, h.settled⟩
  · rw [hqueue]
    exact h.isOpen
  · exact ((Meaning.Same.refl m (contents x) done).append hsame).trans h.current

/-- A flush executes everything that is pending, unless it stops because a drawing could
not be written; then it executes nothing. -/
theorem flush_ok (hm : m.Faithful) (hb : b.Executes m contents ran) (hc : config.Preserving)
    (h : Keeps m contents ran config x launches flushed done todo s) :
    exists s' result, s.flush bank b = .ok (s', result) ∧
      s'.queue = { s.queue with waiting := [] } ∧
      (((exists report, result = .ok report) ∧ exists done',
          Keeps m contents ran config x (launches ++ s.queue.waiting)
            (launches ++ s.queue.waiting) done' [] s') ∨
        ((exists e, result = .error e) ∧ ¬b.Draws config ∧ exists todo',
          Keeps m contents ran config x (launches ++ s.queue.waiting) flushed done todo' s')) := by
  rcases insertWaiting_ok hc h with ⟨s1, submitted, inserted, more, hinsert, hqueue1, h1⟩
  have hc1 : s1.config.Preserving := by
    rw [h1.config]
    exact hc
  have hpasses : forall pass, pass ∈ s1.config.passes ->
      pass.Keeps bank (Reworks m (launches ++ s.queue.waiting) (todo ++ more)) :=
    fun pass hpass => (hc1.passes hpass).keeps hm
  rcases optimize_ok (fun _ h => h.consistent) (writeKeeps_idle hb s1.backend) hpasses
    (h1.pends.reworks m) ⟨rfl, rfl⟩
    with ⟨⟨s2, outcome⟩, hoptimize, hoptimized⟩
  rcases h1.optimized hoptimized with ⟨hqueue2, todo', h2⟩
  have hcompletes := hoptimized.completes
  rw [h1.config] at hcompletes
  cases outcome with
  | error e =>
      refine ⟨s2, .error e, flush_eq_error hinsert hoptimize, hqueue2.trans hqueue1,
        Or.inr ⟨⟨e, rfl⟩, ?_, todo', h2⟩⟩
      intro hdraws
      rcases hcompletes hdraws with ⟨n, hn⟩
      cases hn
  | ok rounds =>
      rcases handOver_ok hb h2 with ⟨s3, n, hhand, hqueue3, h3⟩
      exact ⟨s3, .ok ⟨submitted, inserted, n, rounds⟩, flush_eq hinsert hoptimize hhand,
        hqueue3.trans (hqueue2.trans hqueue1), Or.inl ⟨⟨_, rfl⟩, _, h3⟩⟩

end Flushes

end Scheduler

/-!
## Courses
-/

namespace Course

section Courses

variable {contents : σ -> Store V} {ran : σ -> List ρ} {b : Backend ρ σ} {config : Config}
  {x : σ} {c : Course ρ σ}

def Kept (m : Meaning bank V) (contents : σ -> Store V) (ran : σ -> List ρ) (config : Config)
    (x : σ) (c : Course ρ σ) : Prop :=
  exists launches done todo, c.launched = launches ++ c.scheduler.queue.waiting ∧
    Scheduler.Keeps m contents ran config x launches c.flushed done todo c.scheduler

theorem start_kept (m : Meaning bank V) (contents : σ -> Store V) (ran : σ -> List ρ)
    (config : Config) (x : σ) : Kept m contents ran config x (start config x) := by
  have hbuilt := (Graph.new_settled (ρ := ρ)).built.withCounts ∅ ∅ 1
    (.ofNat config.fusionWindow)
  refine ⟨[], [], [], rfl, rfl, rfl, ⟨⟨_, hbuilt⟩, rfl, ?_⟩, ⟨[], rfl⟩, ?_, ?_, rfl,
    .refl m _ [], .refl m _ []⟩
  · intro p hp
    cases hp
  · intro p hp
    cases hp
  · exact (List.append_nil _).symm

theorem kept_submit {s : Scheduler ρ σ} {launches flushed : List ρ} {done todo : List (Recipe ρ)}
    (h : Scheduler.Keeps m contents ran config x launches flushed done todo s) (record : ρ)
    (sinceFlush : Nat) :
    Scheduler.Keeps m contents ran config x launches flushed done todo
      { s with queue := { s.queue with waiting := s.queue.waiting ++ [record] }, sinceFlush } :=
  ⟨h.config, h.isOpen, h.pends, h.flushed_first, h.made, h.ran_eq, h.contents_eq, h.current,
    h.settled⟩

theorem flush_kept (hm : m.Faithful) (hb : b.Executes m contents ran) (hc : config.Preserving)
    {s : Scheduler ρ σ} {launches flushed : List ρ} {done todo : List (Recipe ρ)}
    (h : Scheduler.Keeps m contents ran config x launches flushed done todo s) :
    exists s' result, s.flush bank b = .ok (s', result) ∧
      let launched := launches ++ s.queue.waiting
      let complete := completesFlush (result.map some)
      Kept m contents ran config x ⟨s', launched, if complete then launched else flushed⟩ ∧
        (b.Draws config -> complete = true) := by
  rcases Scheduler.flush_ok hm hb hc h with ⟨s', result, hrun, hqueue, hcases⟩
  have hwaiting : s'.queue.waiting = [] := by rw [hqueue]
  refine ⟨s', result, hrun, ?_⟩
  rcases hcases with ⟨⟨report, rfl⟩, done', h'⟩ | ⟨⟨e, rfl⟩, hnot, todo', h'⟩
  · refine ⟨⟨_, done', [], ?_, h'⟩, fun _ => rfl⟩
    rw [hwaiting, List.append_nil]
  · refine ⟨⟨_, done, todo', ?_, h'⟩, fun hdraws => absurd hdraws hnot⟩
    rw [hwaiting, List.append_nil]

theorem kept_steady (hm : m.Faithful) (hb : b.Executes m contents ran) (hc : config.Preserving) :
    Steady bank b config (fun _ => True) (Kept m contents ran config x) where
  isOpen := by
    rintro c ⟨_, _, _, _, hkeeps⟩
    exact hkeeps.isOpen
  submit := by
    rintro c ⟨launches, done, todo, hlaunched, hkeeps⟩ record _ sinceFlush
    refine ⟨launches, done, todo, ?_, kept_submit hkeeps record sinceFlush⟩
    rw [hlaunched, List.append_assoc]
  flush := by
    rintro c ⟨launches, done, todo, hlaunched, hkeeps⟩
    rcases flush_kept hm hb hc hkeeps with ⟨s', result, hrun, hkept, hcomplete⟩
    rw [← hlaunched] at hkept
    exact ⟨s', result, hrun, hkept, hcomplete⟩

end Courses

/-- Whatever is launched and whenever it is flushed, no command stops with a fault.  What
the flushes have covered is executed to the same effect as one by one: the states hold the
same, and launches with side effects have run once each and seen the same. -/
theorem follow_keeps_meaning {b : Backend ρ σ} {contents : σ -> Store V} {ran : σ -> List ρ}
    {config : Config} (hm : m.Faithful) (hb : b.Executes m contents ran)
    (hc : config.Preserving) (x : σ) (commands : List (Command ρ)) :
    exists c, (start config x).follow bank b commands = .ok c ∧
      c.launched = commands.flatMap (·.records) ∧
      (forall before, commands = before ++ [.flush] -> b.Draws config ->
        c.flushed = c.launched) ∧
      contents c.scheduler.backend = m.runs c.flushed (contents x) ∧
      exists done, ran c.scheduler.backend = ran x ++ done.map (·.record) ∧
        (forall p, p ∈ done -> p.Made bank c.flushed) ∧
        (m.effects done (contents x)).Perm (m.effects (plain c.flushed) (contents x)) := by
  rcases follow_ok (kept_steady hm hb hc) (start_kept m contents ran config x) commands
    (fun _ _ => trivial)
    with ⟨c, hrun, ⟨launches, done, todo, _, hkeeps⟩, hlaunched, hflushed⟩
  refine ⟨c, hrun, hlaunched, hflushed, ?_, done, hkeeps.ran_eq, hkeeps.made,
    hkeeps.settled.effects⟩
  rw [hkeeps.contents_eq, hkeeps.settled.store, Scheduler.map_record_plain]

theorem follow_keeps_meaning_fill_copy :
    exists c, (start { listgen := false, listgenFilter := false, demotion := false }
          ((fun _ => 0), [])).follow Sample.bank (Program.meaning Bank.tally).backend
        [.launch Sample.fill, .launch Sample.copy, .flush] = .ok c ∧
      c.flushed = [Sample.fill, Sample.copy] ∧
      c.scheduler.backend.1
        = (Program.meaning Bank.tally).runs [Sample.fill, Sample.copy] fun _ => 0 := by
  have hconfig : Config.Preserving
      { listgen := false, listgenFilter := false, demotion := false } := ⟨rfl, rfl, rfl⟩
  rcases follow_keeps_meaning (Program.meaning_faithful Bank.tally)
      (Program.meaning Bank.tally).backend_executes hconfig ((fun _ => 0), [])
      [.launch Sample.fill, .launch Sample.copy, .flush]
    with ⟨c, hrun, hlaunched, hflushed, hcontents, _⟩
  have hall : c.flushed = [Sample.fill, Sample.copy] :=
    (hflushed [.launch Sample.fill, .launch Sample.copy] rfl (Or.inl rfl)).trans hlaunched
  rw [hall] at hcontents
  exact ⟨c, hrun, hall, hcontents⟩

end Course

end LaunchGraph
