import LaunchGraph.Proofs.FusionOrder
import LaunchGraph.Proofs.Lineage
import LaunchGraph.Proofs.Program
import LaunchGraph.Proofs.Graph.Execute

/-!
# What becomes of launches

Passes rewrite records, fuse them and delete nodes.  A launch is carried by one record at a
time all the same, until it is executed or dropped.  Dead store elimination drops no launch
with side effects.  The pass and the filter for list generations do not look at side effects,
so they may drop any list generation.
-/

namespace LaunchGraph

variable {ρ σ : Type}

/-!
## What records carry
-/

/-- A fused record carries the launches of both parts, and a rewritten one those of the record
that it was made from.  Neither one loses side effects.  Only tasks of one type share a fusion
key. -/
structure Bank.Carries (bank : Bank ρ) (launches : ρ -> List ρ) : Prop where
  fuse_launches : forall a b c, bank.fuse a b = some c -> launches c = launches a ++ launches b
  fuse_taskType : forall a b c, bank.fuse a b = some c ->
    (bank.describe c).task.taskType = (bank.describe a).task.taskType
  fuse_sideEffects : forall a b c, bank.fuse a b = some c ->
    (bank.describe a).task.sideEffects = true ∨ (bank.describe b).task.sideEffects = true ->
      (bank.describe c).task.sideEffects = true
  rewrite_launches : forall r r', bank.Rewrites r r' -> launches r' = launches r
  rewrite_taskType : forall r r', bank.Rewrites r r' ->
    (bank.describe r').task.taskType = (bank.describe r).task.taskType
  rewrite_sideEffects : forall r r', bank.Rewrites r r' ->
    (bank.describe r).task.sideEffects = true -> (bank.describe r').task.sideEffects = true
  key_taskType : forall r key, (bank.describe r).task.fusion = some key ->
    key.taskType = (bank.describe r).task.taskType

structure Bank.Answers (bank : Bank ρ) (launches : ρ -> List ρ) (record : ρ) : Prop where
  taskType : forall r, r ∈ launches record ->
    (bank.describe r).task.taskType = (bank.describe record).task.taskType
  sideEffects : forall r, r ∈ launches record -> (bank.describe r).task.sideEffects = true ->
    (bank.describe record).task.sideEffects = true

section Records

variable {bank : Bank ρ} {launches : ρ -> List ρ}

theorem Bank.Carries.taskType_of_fusible (hbank : bank.Carries launches) {a b : ρ}
    (h : (bank.describe a).task.fusible (bank.describe b).task = true) :
    (bank.describe b).task.taskType = (bank.describe a).task.taskType := by
  unfold Task.fusible at h
  split at h
  · next k l hk hl =>
      have hkl : k = l := eq_of_beq h
      rw [← hbank.key_taskType a k hk, ← hbank.key_taskType b l hl, hkl]
  · cases h

namespace Bank.Answers

theorem of_single {record : ρ} (h : launches record = [record]) : bank.Answers launches record := by
  constructor
  · intro r hr
    rw [h, List.mem_singleton] at hr
    rw [hr]
  · intro r hr heffects
    rw [h, List.mem_singleton] at hr
    rw [← hr]
    exact heffects

theorem fuse (hbank : bank.Carries launches) {a b c : ρ} (made : bank.fuse a b = some c)
    (hfusible : (bank.describe a).task.fusible (bank.describe b).task = true)
    (ha : bank.Answers launches a) (hb : bank.Answers launches b) : bank.Answers launches c := by
  constructor
  · intro r hr
    rw [hbank.fuse_launches a b c made, List.mem_append] at hr
    rw [hbank.fuse_taskType a b c made]
    cases hr with
    | inl hr => exact ha.taskType r hr
    | inr hr => exact (hb.taskType r hr).trans (hbank.taskType_of_fusible hfusible)
  · intro r hr heffects
    rw [hbank.fuse_launches a b c made, List.mem_append] at hr
    apply hbank.fuse_sideEffects a b c made
    cases hr with
    | inl hr => exact Or.inl (ha.sideEffects r hr heffects)
    | inr hr => exact Or.inr (hb.sideEffects r hr heffects)

theorem rewrite (hbank : bank.Carries launches) {record rewritten : ρ}
    (hrewrites : bank.Rewrites record rewritten) (h : bank.Answers launches record) :
    bank.Answers launches rewritten := by
  constructor
  · intro r hr
    rw [hbank.rewrite_launches _ _ hrewrites] at hr
    rw [hbank.rewrite_taskType _ _ hrewrites]
    exact h.taskType r hr
  · intro r hr heffects
    rw [hbank.rewrite_launches _ _ hrewrites] at hr
    exact hbank.rewrite_sideEffects _ _ hrewrites (h.sideEffects r hr heffects)

theorem mayDrop {config : Config} {record : ρ} (h : bank.Answers launches record)
    (hdrop : config.MayDrop (bank.describe record).task) :
    forall r, r ∈ launches record -> config.MayDrop (bank.describe r).task := by
  intro r hr
  cases hdrop with
  | inl hquiet =>
      refine Or.inl ⟨hquiet.left, ?_⟩
      cases heffects : (bank.describe r).task.sideEffects with
      | false => rfl
      | true => exact (h.sideEffects r hr heffects).symm.trans hquiet.right
  | inr hlist => exact Or.inr ⟨hlist.left, (h.taskType r hr).trans hlist.right⟩

end Bank.Answers

end Records

/-!
## Balances
-/

def Config.Balances (c : Config) (bank : Bank ρ) (kept all : List ρ) : Prop :=
  exists dropped, (kept ++ dropped).Perm all ∧
    forall r, r ∈ dropped -> c.MayDrop (bank.describe r).task

namespace Config.Balances

variable {c : Config} {bank : Bank ρ} {kept all kept' all' : List ρ}

theorem of_perm (h : kept.Perm all) : c.Balances bank kept all := by
  refine ⟨[], ?_, fun r hr => by cases hr⟩
  rw [List.append_nil]
  exact h

theorem nil (h : forall r, r ∈ all -> c.MayDrop (bank.describe r).task) :
    c.Balances bank [] all :=
  ⟨all, .refl all, h⟩

theorem trans (h : c.Balances bank kept all) (h' : c.Balances bank all all') :
    c.Balances bank kept all' := by
  rcases h with ⟨dropped, hperm, hdrop⟩
  rcases h' with ⟨dropped', hperm', hdrop'⟩
  refine ⟨dropped ++ dropped', ?_, ?_⟩
  · rw [← List.append_assoc]
    exact (hperm.append_right dropped').trans hperm'
  · intro r hr
    cases List.mem_append.mp hr with
    | inl hr => exact hdrop r hr
    | inr hr => exact hdrop' r hr

theorem append (h : c.Balances bank kept all) (h' : c.Balances bank kept' all') :
    c.Balances bank (kept ++ kept') (all ++ all') := by
  rcases h with ⟨dropped, hperm, hdrop⟩
  rcases h' with ⟨dropped', hperm', hdrop'⟩
  refine ⟨dropped ++ dropped', ?_, ?_⟩
  · have hswap : (kept' ++ (dropped ++ dropped')).Perm (dropped ++ (kept' ++ dropped')) :=
      List.perm_append_comm_assoc ..
    rw [List.append_assoc]
    refine (hswap.append_left kept).trans ?_
    rw [← List.append_assoc]
    exact hperm.append hperm'
  · intro r hr
    cases List.mem_append.mp hr with
    | inl hr => exact hdrop r hr
    | inr hr => exact hdrop' r hr

end Config.Balances

/-!
## What passes carry on
-/

/-- A pending node launches its record as the bank describes it, and the record answers for
what it carries. -/
def Accounts (bank : Bank ρ) (launches : ρ -> List ρ) (p : Option ρ × Task) : Prop :=
  exists record, p = Graph.launchOf bank record ∧ bank.Answers launches record

inductive CarriesOn (config : Config) (bank : Bank ρ) (launches : ρ -> List ρ) :
    List (Option ρ × Task) -> List (Option ρ × Task) -> Prop where
  | nil : CarriesOn config bank launches [] []
  | replace {parts before after : List (Option ρ × Task)} {p : Option ρ × Task}
      (accounts : Accounts bank launches p)
      (same : carried launches p = parts.flatMap (carried launches))
      (rest : CarriesOn config bank launches before after) :
      CarriesOn config bank launches (parts ++ before) (p :: after)
  | drop {before after : List (Option ρ × Task)} {p : Option ρ × Task}
      (droppable : forall r, r ∈ carried launches p -> config.MayDrop (bank.describe r).task)
      (rest : CarriesOn config bank launches before after) :
      CarriesOn config bank launches (p :: before) after

section Passes

variable {bank : Bank ρ} {launches : ρ -> List ρ} {config : Config}
  {before after : List (Option ρ × Task)}

theorem Accounts.mayDrop {p : Option ρ × Task} (h : Accounts bank launches p)
    (hdrop : config.MayDrop p.2) :
    forall r, r ∈ carried launches p -> config.MayDrop (bank.describe r).task := by
  rcases h with ⟨record, rfl, hanswers⟩
  rw [Graph.launchOf, carried_some]
  exact hanswers.mayDrop hdrop

namespace CarriesOn

theorem keep {p q : Option ρ × Task} (accounts : Accounts bank launches q)
    (same : carried launches q = carried launches p)
    (h : CarriesOn config bank launches before after) :
    CarriesOn config bank launches (p :: before) (q :: after) := by
  have hparts : carried launches q = [p].flatMap (carried launches) := by
    rw [List.flatMap_singleton, same]
  exact .replace accounts hparts h

theorem accounts (h : CarriesOn config bank launches before after) :
    forall p, p ∈ after -> Accounts bank launches p := by
  induction h with
  | nil =>
      intro p hp
      cases hp
  | replace accounts _ _ ih =>
      intro p hp
      cases List.mem_cons.mp hp with
      | inl heq =>
          rw [heq]
          exact accounts
      | inr hp => exact ih p hp
  | drop _ _ ih => exact ih

theorem balances (h : CarriesOn config bank launches before after) :
    config.Balances bank (after.flatMap (carried launches))
      (before.flatMap (carried launches)) := by
  induction h with
  | nil => exact .of_perm (.refl [])
  | replace _ same _ ih =>
      rw [List.flatMap_cons, List.flatMap_append, same]
      exact Config.Balances.append (.of_perm (.refl _)) ih
  | drop droppable _ ih =>
      rw [List.flatMap_cons]
      exact (Config.Balances.nil droppable).append ih

end CarriesOn

theorem Rewritten.accounts (hbank : bank.Carries launches) {p q : Option ρ × Task}
    (h : Rewritten bank p q) (hp : Accounts bank launches p) :
    Accounts bank launches q ∧ carried launches q = carried launches p := by
  rcases h with ⟨record, rewritten, hrecord, hrewrites, rfl⟩
  rcases hp with ⟨record', rfl, hanswers⟩
  cases hrecord
  refine ⟨⟨rewritten, rfl, hanswers.rewrite hbank hrewrites⟩, ?_⟩
  rw [Graph.launchOf, Graph.launchOf, carried_some, carried_some]
  exact hbank.rewrite_launches _ _ hrewrites

theorem FusedFrom.accounts (hbank : bank.Carries launches) {p : Option ρ × Task}
    (h : FusedFrom bank before p) (hbefore : forall q, q ∈ before -> Accounts bank launches q) :
    Accounts bank launches p := by
  induction h with
  | single p => exact hbefore p (List.mem_singleton.mpr rfl)
  | @fuse parts first next fused t u _ compatible _ made ih =>
      rcases ih fun q hq => hbefore q (List.mem_append_left _ hq) with ⟨a, ha, hanswersa⟩
      rcases hbefore (some next, u) (by simp) with ⟨b, hb, hanswersb⟩
      cases ha
      cases hb
      exact ⟨fused, rfl, .fuse hbank made compatible hanswersa hanswersb⟩

theorem Descends.carriesOn (hbank : bank.Carries launches)
    (h : Descends config bank before after)
    (hbefore : forall p, p ∈ before -> Accounts bank launches p) :
    CarriesOn config bank launches before after := by
  induction h with
  | nil => exact .nil
  | @rewrite p q before after steps _ ih =>
      have hsteps : Accounts bank launches q ∧ carried launches q = carried launches p := by
        induction steps with
        | refl => exact ⟨hbefore p (List.mem_cons_self ..), rfl⟩
        | tail _ hstep ihp =>
            rcases hstep.accounts hbank ihp.left with ⟨haccounts, hsame⟩
            exact ⟨haccounts, hsame.trans ihp.right⟩
      have hrest := ih fun p hp => hbefore p (List.mem_cons_of_mem _ hp)
      exact hrest.keep hsteps.left hsteps.right
  | fuse fused _ ih =>
      exact .replace (fused.accounts hbank fun q hq => hbefore q (List.mem_append_left _ hq))
        (fused.carried_eq hbank.fuse_launches)
        (ih fun q hq => hbefore q (List.mem_append_right _ hq))
  | drop droppable _ ih =>
      exact .drop ((hbefore _ (List.mem_cons_self ..)).mayDrop droppable)
        (ih fun q hq => hbefore q (List.mem_cons_of_mem _ hq))

end Passes

/-!
## Graphs
-/

namespace Graph

def carries (launches : ρ -> List ρ) (g : Graph ρ) : List ρ :=
  (g.pending.map (·.launch)).flatMap (carried launches)

/-- Of all launches that were handed in, some have been executed and the pending nodes carry
the others, except for those that may be dropped. -/
structure Accounted (config : Config) (bank : Bank ρ) (launches : ρ -> List ρ)
    (executed all : List ρ) (g : Graph ρ) : Prop where
  consistent : g.Consistent
  accounts : forall v, v ∈ g.pending -> Accounts bank launches v.launch
  balances : config.Balances bank (executed ++ g.carries launches) all

section Graphs

variable {bank : Bank ρ} {launches : ρ -> List ρ} {config : Config} {executed all : List ρ}
  {g : Graph ρ}

theorem flatMap_records (launches : ρ -> List ρ) (g : Graph ρ) :
    (g.pending.filterMap (·.record)).flatMap launches = g.carries launches := by
  rw [carries]
  induction g.pending with
  | nil => rfl
  | cons v l ih =>
      have hv : carried launches v.launch = v.record.toList.flatMap launches := rfl
      rw [List.map_cons, List.flatMap_cons, ← ih, hv, List.filterMap_cons]
      cases v.record with
      | none => rfl
      | some record =>
          rw [Option.toList_some, List.flatMap_singleton]
          exact List.flatMap_cons

theorem Accounted.carryOn (h : g.Accounted config bank launches executed all) {g' : Graph ρ}
    (hrebuilt : g.Rebuilt g') {before : List (Option ρ × Task)}
    (hperm : before.Perm (g.pending.map (·.launch)))
    (hstep : CarriesOn config bank launches before (g'.pending.map (·.launch))) :
    g'.Accounted config bank launches executed all := by
  refine ⟨hrebuilt.consistent h.consistent, ?_, ?_⟩
  · intro v hv
    exact hstep.accounts v.launch (List.mem_map_of_mem hv)
  · have hcarries : config.Balances bank (g'.carries launches) (g.carries launches) :=
      hstep.balances.trans (.of_perm (hperm.flatMap_right _))
    exact (Config.Balances.append (.of_perm (.refl _)) hcarries).trans h.balances

theorem keeps_accounted (hbank : bank.Carries launches) {pass : Pass}
    (hpass : pass ∈ config.passes) :
    pass.Keeps bank (Accounted config bank launches executed all) := by
  intro g h
  rcases run_descends bank h.consistent hpass
    with ⟨g', changed, before, hrun, hrebuilt, hperm, hdescends⟩
  refine ⟨g', changed, hrun, h.carryOn hrebuilt hperm (hdescends.carriesOn hbank ?_)⟩
  intro p hp
  rcases List.mem_map.mp (hperm.subset hp) with ⟨v, hv, rfl⟩
  exact h.accounts v hv

theorem Accounted.insertTasks (h : g.Accounted config bank launches executed all)
    {records : List ρ} (hsingle : forall r, r ∈ records -> launches r = [r]) :
    exists g' n, g.insertTasks bank config.listgenFilter records = .ok (g', n) ∧
      g'.Accounted config bank launches executed (all ++ records) := by
  rcases insertTasks_ok bank h.consistent.sound config.listgenFilter records
    with ⟨g', kept, hrun, hgrown, _, leftOut, hperm, hleft⟩
  have hkept : forall r, r ∈ kept -> launches r = [r] :=
    fun r hr => hsingle r (hperm.subset (List.mem_append_left _ hr))
  refine ⟨g', kept.length, hrun, hgrown.consistent h.consistent, ?_, ?_⟩
  · intro v hv
    have hmem : v.launch ∈ g'.pending.map (·.launch) := List.mem_map_of_mem hv
    rw [hgrown.launches, List.mem_append] at hmem
    cases hmem with
    | inl hold =>
        rcases List.mem_map.mp hold with ⟨w, hw, heq⟩
        rw [← heq]
        exact h.accounts w hw
    | inr hnew =>
        rcases List.mem_map.mp hnew with ⟨r, hr, heq⟩
        exact ⟨r, heq.symm, .of_single (hkept r hr)⟩
  · have hcarries : g'.carries launches = g.carries launches ++ kept := by
      have hlaunches : (kept.map (launchOf bank)).flatMap (carried launches) = kept := by
        rw [List.flatMap_map]
        have hcarried : forall r, r ∈ kept -> carried launches (launchOf bank r) = [r] :=
          fun r hr => (carried_some r _).trans (hkept r hr)
        exact (List.flatMap_congr hcarried).trans (List.flatMap_singleton' kept)
      rw [carries, hgrown.launches, List.flatMap_append, hlaunches]
      rfl
    have hbalances : config.Balances bank kept records :=
      ⟨leftOut, hperm, fun r hr => Or.inr ⟨Or.inr (hleft r hr).left, (hleft r hr).right⟩⟩
    rw [hcarries, ← List.append_assoc]
    exact h.balances.append hbalances

end Graphs

end Graph

/-!
## Flushes
-/

section Runs

variable {bank : Bank ρ} {launches : ρ -> List ρ} {ran : σ -> List ρ} {b : Backend ρ σ}
  {config : Config} {x : σ}

namespace Scheduler

/-- What a scheduler accounts for: the launches in `entered` were moved into the graph, those
in `flushed` were covered by a flush that completed, and the records in `done` have been
executed. -/
structure Ledger (bank : Bank ρ) (launches : ρ -> List ρ) (ran : σ -> List ρ) (config : Config)
    (x : σ) (entered flushed done : List ρ) (s : Scheduler ρ σ) : Prop where
  configured : s.config = config
  isOpen : s.queue.isOpen = true
  waiting : forall r, r ∈ s.queue.waiting -> launches r = [r]
  graph : s.graph.Accounted config bank launches (done.flatMap launches) entered
  ran_eq : ran s.backend = ran x ++ done
  settled : config.Balances bank (done.flatMap launches) flushed

section Flushes

variable {s : Scheduler ρ σ} {entered flushed done : List ρ}

theorem Ledger.insertWaiting (h : Ledger bank launches ran config x entered flushed done s) :
    exists s' submitted inserted, s.insertWaiting bank = .ok (s', submitted, inserted) ∧
      s'.queue.waiting = [] ∧
      Ledger bank launches ran config x (entered ++ s.queue.waiting) flushed done s' := by
  rcases h.graph.insertTasks h.waiting with ⟨g', n, hrun, hgraph⟩
  rw [← h.configured] at hrun
  refine ⟨{ s with queue := { s.queue with waiting := [] }, graph := g' }, s.queue.waiting.length,
    n, insertWaiting_eq hrun, rfl, h.configured, h.isOpen, ?_, hgraph, h.ran_eq, h.settled⟩
  intro r hr
  cases hr

theorem Ledger.optimized (h : Ledger bank launches ran config x entered flushed done s)
    {r : Scheduled ρ σ Nat}
    (hr : Optimized b (Graph.Accounted config bank launches (done.flatMap launches) entered)
      (fun y => ran y = ran s.backend) s r) :
    r.1.queue = s.queue ∧ Ledger bank launches ran config x entered flushed done r.1 := by
  have hqueue : r.1.queue = s.queue := by rw [hr.same]
  have hconfig : r.1.config = s.config := by rw [hr.same]
  refine ⟨hqueue, hconfig.trans h.configured, ?_, ?_, hr.graph, hr.backend.trans h.ran_eq,
    h.settled⟩
  · rw [hqueue]
    exact h.isOpen
  · rw [hqueue]
    exact h.waiting

theorem Ledger.handOver (hb : b.Runs ran)
    (h : Ledger bank launches ran config x entered flushed done s) :
    exists s' n done', s.handOver b = .ok (s', .ok n) ∧ s'.queue = s.queue ∧
      Ledger bank launches ran config x entered entered done' s' := by
  rcases h.graph.consistent.extractToExecute with ⟨g', hrun, hsettled, _, _⟩
  have hcarries : g'.carries launches = [] := by
    rw [Graph.carries, hsettled.pending_nil]
    rfl
  have hbalances : config.Balances bank
      ((done ++ s.graph.pending.filterMap (·.record)).flatMap launches) entered := by
    rw [List.flatMap_append, Graph.flatMap_records]
    exact h.graph.balances
  refine ⟨_, _, _, handOver_eq hb.execute_ok hrun, rfl, h.configured, h.isOpen, h.waiting,
    ⟨hsettled.built.consistent, ?_, ?_⟩, ?_, hbalances⟩
  · intro v hv
    rw [hsettled.pending_nil] at hv
    cases hv
  · rw [hcarries, List.append_nil]
    exact hbalances
  · rw [← List.append_assoc, ← h.ran_eq]
    exact hb.ran_afterBatch _ _

/-- A flush executes what the pending nodes carry, unless it stops because a drawing could not
be written; then it executes nothing. -/
theorem Ledger.flush (hbank : bank.Carries launches) (hb : b.Runs ran)
    (h : Ledger bank launches ran config x entered flushed done s) :
    exists s' result done', s.flush bank b = .ok (s', result) ∧ s'.queue.waiting = [] ∧
      Ledger bank launches ran config x (entered ++ s.queue.waiting)
        (if completesFlush (result.map some) then entered ++ s.queue.waiting else flushed)
        done' s' ∧
      (b.Draws config -> completesFlush (result.map some) = true) := by
  rcases h.insertWaiting with ⟨s1, submitted, inserted, hinsert, hwaiting, h1⟩
  have hpasses : forall pass, pass ∈ s1.config.passes -> pass.Keeps bank
      (Graph.Accounted config bank launches (done.flatMap launches)
        (entered ++ s.queue.waiting)) := by
    intro pass hpass
    rw [h1.configured] at hpass
    exact Graph.keeps_accounted hbank hpass
  have hwrite : b.WriteKeeps (fun y => ran y = ran s1.backend) :=
    fun directory file text y hy => (hb.ran_write directory file text y).trans hy
  rcases optimize_ok (fun _ h => h.consistent) hwrite hpasses h1.graph rfl
    with ⟨⟨s2, outcome⟩, hoptimize, hoptimized⟩
  rcases h1.optimized hoptimized with ⟨hqueue, h2⟩
  have hcompletes := hoptimized.completes
  rw [h1.configured] at hcompletes
  cases outcome with
  | error e =>
      refine ⟨s2, .error e, done, flush_eq_error hinsert hoptimize, ?_, h2, ?_⟩
      · rw [hqueue]
        exact hwaiting
      · intro hdraws
        rcases hcompletes hdraws with ⟨n, hn⟩
        cases hn
  | ok rounds =>
      rcases h2.handOver hb with ⟨s3, n, done', hhand, hqueue3, h3⟩
      refine ⟨s3, .ok ⟨submitted, inserted, n, rounds⟩, done', flush_eq hinsert hoptimize hhand,
        ?_, h3, fun _ => rfl⟩
      rw [hqueue3, hqueue]
      exact hwaiting

end Flushes

end Scheduler

/-!
## Courses
-/

namespace Course

/-- The scheduler accounts for all that was launched: what is not in the graph waits. -/
def Accounted (bank : Bank ρ) (launches : ρ -> List ρ) (ran : σ -> List ρ) (config : Config)
    (x : σ) (c : Course ρ σ) : Prop :=
  exists entered done, c.launched = entered ++ c.scheduler.queue.waiting ∧
    c.scheduler.Ledger bank launches ran config x entered c.flushed done

theorem start_accounted (bank : Bank ρ) (launches : ρ -> List ρ) (ran : σ -> List ρ)
    (config : Config) (x : σ) : Accounted bank launches ran config x (start config x) := by
  refine ⟨[], [], rfl, rfl, rfl, ?_, ⟨?_, ?_, .of_perm (.refl [])⟩, (List.append_nil _).symm,
    .of_perm (.refl [])⟩
  · intro r hr
    cases hr
  · exact ((Graph.new_settled (ρ := ρ)).built.withCounts ∅ ∅ 1
      (.ofNat config.fusionWindow)).consistent
  · intro v hv
    cases hv

theorem accounted_steady (hbank : bank.Carries launches) (hb : b.Runs ran) :
    Steady bank b config (fun r => launches r = [r]) (Accounted bank launches ran config x) where
  isOpen := by
    intro c h
    rcases h with ⟨_, _, _, hledger⟩
    exact hledger.isOpen
  submit := by
    intro c h record hrecord sinceFlush
    rcases h with ⟨entered, done, hlaunched, hledger⟩
    refine ⟨entered, done, ?_, hledger.configured, hledger.isOpen, ?_, hledger.graph, hledger.ran_eq,
      hledger.settled⟩
    · rw [hlaunched, List.append_assoc]
    · intro r hr
      cases List.mem_append.mp hr with
      | inl hr => exact hledger.waiting r hr
      | inr hr =>
          rw [List.mem_singleton.mp hr]
          exact hrecord
  flush := by
    intro c h
    rcases h with ⟨entered, done, hlaunched, hledger⟩
    rcases hledger.flush hbank hb with ⟨s', result, done', hrun, hwaiting, hledger', hcomplete⟩
    rw [← hlaunched] at hledger'
    refine ⟨s', result, hrun, ⟨c.launched, done', ?_, hledger'⟩, hcomplete⟩
    rw [hwaiting, List.append_nil]

/-- Whatever is launched and whenever it is flushed, no command stops with a fault.  Every
launch that the flushes have covered was executed exactly once, as it was or as a part of
another record, except for some that could be dropped: launches without side effects, and
list generations. -/
theorem follow_keeps_launches (hbank : bank.Carries launches) (hb : b.Runs ran) (config : Config)
    (x : σ) (commands : List (Command ρ))
    (hsingle : forall r, r ∈ commands.flatMap (·.records) -> launches r = [r]) :
    exists c, (start config x).follow bank b commands = .ok c ∧
      c.launched = commands.flatMap (·.records) ∧
      (forall before, commands = before ++ [.flush] -> b.Draws config ->
        c.flushed = c.launched) ∧
      exists done dropped, ran c.scheduler.backend = ran x ++ done ∧
        (done.flatMap launches ++ dropped).Perm c.flushed ∧
        forall r, r ∈ dropped -> config.MayDrop (bank.describe r).task := by
  rcases follow_ok (accounted_steady hbank hb) (start_accounted bank launches ran config x)
      commands hsingle
    with ⟨c, hrun, ⟨entered, done, _, hledger⟩, hlaunched, hflushed⟩
  rcases hledger.settled with ⟨dropped, hperm, hdrop⟩
  exact ⟨c, hrun, hlaunched, hflushed, done, dropped, hledger.ran_eq, hperm, hdrop⟩

end Course

end Runs

/-!
## A list generation with side effects
-/

deriving instance DecidableEq for Program

namespace Program

def launches (p : Program ρ) : List (Program ρ) := p.records.map .launch

theorem key_taskType {base : Bank ρ}
    (hkey : forall r key, (base.describe r).task.fusion = some key ->
      key.taskType = (base.describe r).task.taskType) (p : Program ρ) :
    forall key, (p.task base).fusion = some key -> key.taskType = (p.task base).taskType := by
  induction p with
  | launch record => exact hkey record
  | seq first next ih _ => exact ih
  | discard before dead ih => exact ih

theorem carries {base : Bank ρ} (hkey : forall r key, (base.describe r).task.fusion = some key ->
    key.taskType = (base.describe r).task.taskType) : (bank base).Carries launches where
  fuse_launches a b c made := by
    cases made
    exact List.map_append
  fuse_taskType a b c made := by
    cases made
    rfl
  fuse_sideEffects a b c made heffects := by
    cases made
    exact Bool.or_eq_true_iff.mpr heffects
  rewrite_launches r r' hrewrites := by
    rcases hrewrites with ⟨model, hmade⟩ | ⟨dead, hmade⟩
    · cases hmade
    · cases hmade
      rfl
  rewrite_taskType r r' hrewrites := by
    rcases hrewrites with ⟨model, hmade⟩ | ⟨dead, hmade⟩
    · cases hmade
    · cases hmade
      rfl
  rewrite_sideEffects r r' hrewrites heffects := by
    rcases hrewrites with ⟨model, hmade⟩ | ⟨dead, hmade⟩
    · cases hmade
    · cases hmade
      exact heffects
  key_taskType := key_taskType hkey

end Program

def Backend.logging : Backend ρ (List ρ) where
  execute records x := (.ok (), x ++ records)
  write _ _ _ x := (.ok (), x)

theorem Backend.logging_runs : (Backend.logging (ρ := ρ)).Runs id :=
  ⟨fun _ _ => rfl, fun _ _ => rfl, fun _ _ _ _ => rfl⟩

namespace Sample

inductive Job where
  /-- Prints. -/
  | report
  /-- Generates a list, and prints. -/
  | relist
deriving DecidableEq

def jobs : Bank Job where
  describe
    | .report => ⟨{ name := "report", taskType := .serial, sideEffects := true }, none⟩
    | .relist =>
        ⟨{ name := "relist", taskType := .listgen, snode := some ⟨1⟩,
           inputs := .ofList [⟨.snode ⟨1⟩, .mask⟩], outputs := .ofList [⟨.snode ⟨1⟩, .list⟩],
           sideEffects := true }, none⟩

theorem jobs_carries : (Program.bank jobs).Carries Program.launches := by
  apply Program.carries
  intro r key hkey
  cases r with
  | report => cases hkey
  | relist => cases hkey

def relistings : List (Command (Program Job)) :=
  [.launch (.launch .relist), .launch (.launch .relist), .flush]

end Sample

namespace Course

theorem follow_keeps_launches_report :
    exists c, (start {} []).follow (Program.bank Sample.jobs) .logging
          (.launch (.launch .report) :: Sample.relistings) = .ok c ∧
      exists done, c.scheduler.backend = done ∧
        Program.launch .report ∈ done.flatMap Program.launches := by
  have hsingle : forall r, r ∈ (.launch (.launch .report) :: Sample.relistings).flatMap (·.records) ->
      Program.launches r = [r] := by
    intro r hr
    simp only [Sample.relistings, Command.records, List.flatMap_cons, List.flatMap_nil,
      List.mem_append, List.mem_singleton, List.not_mem_nil, or_false] at hr
    rcases hr with rfl | rfl | rfl
    · rfl
    · rfl
    · rfl
  rcases follow_keeps_launches Sample.jobs_carries Backend.logging_runs {} []
      (.launch (.launch .report) :: Sample.relistings) hsingle
    with ⟨c, hrun, hlaunched, hflushed, done, dropped, hran, hperm, hdrop⟩
  refine ⟨c, hrun, done, hran, ?_⟩
  have hall := hflushed (.launch (.launch .report) :: Sample.relistings.dropLast) rfl (Or.inl rfl)
  have hreport : Program.launch Sample.Job.report ∈ c.flushed := by
    rw [hall, hlaunched]
    exact List.mem_cons_self ..
  cases List.mem_append.mp (hperm.symm.subset hreport) with
  | inl hin => exact hin
  | inr hin =>
      rcases hdrop _ hin with ⟨_, hquiet⟩ | ⟨_, hlist⟩
      · cases hquiet
      · cases hlist

/-- Of two list generations with side effects, one is never executed. -/
theorem follow_drops_listgen :
    (Program.bank Sample.jobs).Carries Program.launches ∧
      ((Program.bank Sample.jobs).describe (.launch .relist)).task.sideEffects = true ∧
      exists c, (start { listgenFilter := false } []).follow (Program.bank Sample.jobs) .logging
          Sample.relistings = .ok c ∧
        c.flushed = [.launch .relist, .launch .relist] ∧
        c.scheduler.backend = [.launch .relist] := by
  have hcourse : ((start { listgenFilter := false } []).follow (Program.bank Sample.jobs) .logging
      Sample.relistings).map (fun c => (c.flushed, c.scheduler.backend))
        = .ok ([.launch .relist, .launch .relist], [.launch .relist]) := by
    decide +kernel
  refine ⟨Sample.jobs_carries, rfl, ?_⟩
  cases hrun : (start { listgenFilter := false } []).follow (Program.bank Sample.jobs) .logging
      Sample.relistings with
  | error e =>
      rw [hrun] at hcourse
      cases hcourse
  | ok c =>
      rw [hrun] at hcourse
      exact ⟨c, rfl, Prod.mk.inj (Except.ok.inj hcourse)⟩

end Course

end LaunchGraph
