import LaunchGraph.Proofs.Accounts
import LaunchGraph.Proofs.Pass.Load

/-!
# Optimizing comes to an end

Every round that changes anything makes the load of the graph smaller.  So there are no more
such rounds than there is load at the beginning, and the round after them finds nothing left to
do.  A limit beyond that is never what ends the rounds.  What is left is at rest: another round
changes nothing.
-/

namespace LaunchGraph

variable {ρ σ : Type} {bank : Bank ρ}

/-!
## One round
-/

structure Graph.Sane (bank : Bank ρ) (g : Graph ρ) : Prop where
  consistent : g.Consistent
  described : g.Described bank

namespace Graph

variable {g : Graph ρ}

theorem Advances.then {g1 g2 : Graph ρ} {changed now : Bool} (h1 : g.Advances (g1, changed))
    (h2 : g1.Advances (g2, now)) : g.Advances (g2, changed || now) := by
  rcases h1 with ⟨rfl, rfl⟩ | ⟨rfl, hlt1⟩
  · rw [Bool.false_or]
    exact h2
  · refine Or.inr ⟨rfl, ?_⟩
    rcases h2 with ⟨_, rfl⟩ | ⟨_, hlt2⟩
    · exact hlt1
    · exact hlt2.trans hlt1

theorem Sane.run_advances (hbank : bank.Shrinks) (hg : g.Sane bank) (pass : Pass) :
    exists r, pass.run bank g = .ok r ∧ g.Advances r ∧ r.1.Sane bank := by
  rcases Graph.run_advances hbank hg.consistent hg.described pass with ⟨r, hrun, hadvances⟩
  rcases Graph.run_ok bank hg.consistent pass with ⟨g', changed, hrun', hrebuilt, hrenews⟩
  rw [hrun] at hrun'
  cases hrun'
  exact ⟨_, hrun, hadvances, hrebuilt.consistent hg.consistent, hrenews.described hg.described⟩

def Rests (bank : Bank ρ) (c : Config) (g : Graph ρ) : Prop := c.runPasses bank g = .ok (g, false)

end Graph

/-- A round goes through.  If it changes anything, the load becomes smaller. -/
theorem Config.runPasses_advances (hbank : bank.Shrinks) (c : Config) {g : Graph ρ}
    (hg : g.Sane bank) :
    exists r, c.runPasses bank g = .ok r ∧ g.Advances r ∧ r.1.Sane bank := by
  have hpasses : forall pass, pass ∈ c.passes -> forall g : Graph ρ, g.Sane bank ->
      exists r, pass.run bank g = .ok r ∧ r.1.Sane bank ∧ g.Advances r := by
    intro pass _ g1 h1
    rcases h1.run_advances hbank pass with ⟨r, hrun, hadvances, hr⟩
    exact ⟨r, hrun, hr, hadvances⟩
  rcases Config.runPasses_composes (fun _ h => h.consistent) (fun _ => Or.inl ⟨rfl, rfl⟩)
      (fun _ _ _ _ _ h1 h2 => h1.then h2) hpasses hg with ⟨r, hrun, hr, hadvances⟩
  exact ⟨r, hrun, hadvances, hr⟩

theorem Graph.rests_of_empty (hbank : bank.Shrinks) (c : Config) {g : Graph ρ}
    (hg : g.Sane bank) (hempty : g.pendingCount = 0) : g.Rests bank c := by
  have hload : g.load = 0 := by
    rw [Graph.load, hempty, List.length_eq_zero_iff.mp hempty]
    rfl
  rcases c.runPasses_advances hbank hg with ⟨⟨g', changed⟩, hrun, ⟨hsame, hgraph⟩ | ⟨_, hlt⟩, _⟩
  · dsimp only at hsame hgraph
    rw [Graph.Rests, hrun, hsame, hgraph]
  · omega

/-!
## Round after round
-/

namespace Scheduler

variable {b : Backend ρ σ} {s : Scheduler ρ σ}

/-- Rounds that ended by themselves, or since a drawing could not be written. -/
structure Stopped (bank : Bank ρ) (b : Backend ρ σ) (s : Scheduler ρ σ) (before : Nat)
    (r : Scheduled ρ σ Nat) : Prop where
  same : r.1 = { s with graph := r.1.graph, backend := r.1.backend }
  completes : b.Draws s.config -> exists n, r.2 = .ok n
  rests : forall n, r.2 = .ok n ->
    n ≤ before + s.graph.load + 1 ∧ r.1.graph.Rests bank s.config

/-- Rounds end by themselves, whatever the limit is, as long as it is beyond the load. -/
theorem rounds_stops (hbank : bank.Shrinks) (b : Backend ρ σ) (hg : s.graph.Sane bank)
    (before : Nat) :
    exists r, Stopped bank b s before r ∧
      forall left, s.graph.load ≤ left -> rounds bank b (left + 1) before s = .ok r := by
  induction hload : s.graph.load using Nat.strongRecOn generalizing s before with
  | ind load ih =>
      subst hload
      rcases s.config.runPasses_advances hbank hg with ⟨⟨g, changed⟩, hpasses, hadvances, hg'⟩
      have hwrite : b.WriteKeeps fun _ => True := fun _ _ _ _ _ => trivial
      rcases dump_ok hwrite (s := { s with graph := g }) trivial (before + 1)
        with ⟨y, result, hdump, _, hdraws, _⟩
      let s1 : Scheduler ρ σ := { s with graph := g, backend := y }
      cases result with
      | error e =>
          refine ⟨(s1, .error e), ⟨rfl, fun hb => ?_, fun n hn => by cases hn⟩,
            fun left _ => rounds_eq_error hpasses hdump left⟩
          cases hdraws hb
      | ok _ =>
          rcases hadvances with ⟨hsame, hgraph⟩ | ⟨hchanged, hlt⟩
          · dsimp only at hsame hgraph
            subst hsame
            refine ⟨(s1, .ok (before + 1)), ⟨rfl, fun _ => ⟨_, rfl⟩, ?_⟩,
              fun left _ => rounds_eq hpasses hdump left⟩
            intro n hn
            cases hn
            refine ⟨by omega, ?_⟩
            rw [← hgraph] at hpasses
            exact hpasses
          · -- The next round begins with less load, and with one round less to go.
            dsimp only at hchanged hlt
            subst hchanged
            rcases ih g.load hlt (s := s1) hg' (before + 1) rfl with ⟨r, hstopped, hrest⟩
            refine ⟨r, ⟨?_, hstopped.completes, ?_⟩, ?_⟩
            · rw [hstopped.same]
            · intro n hn
              rcases hstopped.rests n hn with ⟨hle, hrests⟩
              have hle' : n ≤ before + 1 + g.load + 1 := hle
              exact ⟨by omega, hrests⟩
            · intro left hleft
              have hpos : left ≠ 0 := by omega
              rcases Nat.exists_eq_add_one_of_ne_zero hpos with ⟨left', rfl⟩
              have hleft' : g.load ≤ left' := by omega
              rw [rounds_eq hpasses hdump]
              exact hrest left' hleft'

/-!
## Optimizing once and again
-/

theorem optimize_stops (hbank : bank.Shrinks) (b : Backend ρ σ) (hg : s.graph.Sane bank)
    (hlimit : s.graph.load < s.config.maxRounds) :
    exists r, s.optimize bank b = .ok r ∧ Stopped bank b s 0 r ∧
      (s.graph.pendingCount ≠ 0 -> forall limit, s.graph.load < limit ->
        rounds bank b limit 0 s = .ok r) := by
  by_cases hempty : s.graph.pendingCount = 0
  · refine ⟨(s, .ok 0), if_pos hempty, ⟨rfl, fun _ => ⟨0, rfl⟩, ?_⟩, fun hne => absurd hempty hne⟩
    intro n hn
    cases hn
    exact ⟨Nat.zero_le _, Graph.rests_of_empty hbank s.config hg hempty⟩
  · rcases rounds_stops hbank b hg 0 with ⟨r, hstopped, hrounds⟩
    have hall : forall limit, s.graph.load < limit -> rounds bank b limit 0 s = .ok r := by
      intro limit hlimit
      cases limit with
      | zero => exact absurd hlimit (Nat.not_lt_zero _)
      | succ left => exact hrounds left (Nat.le_of_lt_succ hlimit)
    exact ⟨r, (optimize_eq_rounds bank b hempty).trans (hall _ hlimit), hstopped, fun _ => hall⟩

/-- Nothing is left to optimize: there is one more round at most, which changes nothing but the
drawings. -/
structure AtRest (bank : Bank ρ) (b : Backend ρ σ) (s : Scheduler ρ σ) : Prop where
  again : exists y result, s.optimize bank b = .ok ({ s with backend := y }, result) ∧
    (s.config.dotDumpDir = none -> y = s.backend) ∧
    (b.Draws s.config -> exists n, result = .ok n) ∧ forall n, result = .ok n -> n ≤ 1

theorem atRest_of_rests (b : Backend ρ σ) (hrests : s.graph.Rests bank s.config)
    (hlimit : 0 < s.config.maxRounds) : AtRest bank b s := by
  constructor
  by_cases hempty : s.graph.pendingCount = 0
  · refine ⟨s.backend, .ok 0, if_pos hempty, fun _ => rfl, fun _ => ⟨0, rfl⟩, ?_⟩
    intro n hn
    cases hn
    exact Nat.zero_le 1
  · have hpos : s.config.maxRounds ≠ 0 := by omega
    rcases Nat.exists_eq_add_one_of_ne_zero hpos with ⟨left, hleft⟩
    have hwrite : b.WriteKeeps fun _ => True := fun _ _ _ _ _ => trivial
    rcases dump_ok hwrite (s := s) trivial 1 with ⟨y, result, hdump, _, hdraws, hnone⟩
    rw [optimize_eq_rounds bank b hempty, hleft]
    cases result with
    | error e =>
        refine ⟨y, .error e, rounds_eq_error hrests hdump left, hnone, fun hb => ?_,
          fun n hn => by cases hn⟩
        cases hdraws hb
    | ok _ =>
        refine ⟨y, .ok 1, rounds_eq hrests hdump left, hnone, fun _ => ⟨1, rfl⟩, ?_⟩
        intro n hn
        cases hn
        exact Nat.le_refl 1

end Scheduler

namespace Session

/-- Whatever led to a graph, a pass that says that it changed nothing has left it as it was, and
any other pass has made its load smaller.  A scheduler with such a graph, whose limit is beyond
the load, stops by itself after no more rounds than there is load, and one.  Unless a drawing
could not be written, it is at rest then. -/
theorem optimize_reaches_rest {bank : Bank ρ} (hbank : bank.Shrinks) {session : Session ρ}
    (hsession : Reachable bank Allowed session) :
    (forall pass : Pass, exists g' changed, pass.run bank session.graph = .ok (g', changed) ∧
      (changed = false -> g' = session.graph) ∧
      (changed = true -> g'.load < session.graph.load)) ∧
    forall (b : Backend ρ σ) (s : Scheduler ρ σ), s.graph = session.graph ->
      s.graph.load < s.config.maxRounds ->
      exists s' result, s.optimize bank b = .ok (s', result) ∧
        s' = { s with graph := s'.graph, backend := s'.backend } ∧
        (s.graph.pendingCount ≠ 0 -> forall limit, s.graph.load < limit ->
          Scheduler.rounds bank b limit 0 s = .ok (s', result)) ∧
        (b.Draws s.config -> exists n, result = .ok n) ∧
        forall n, result = .ok n -> n ≤ s.graph.load + 1 ∧ s'.AtRest bank b := by
  have hg : session.graph.Sane bank :=
    ⟨hsession.consistent fun _ _ h => h.deletable, hsession.described.left⟩
  constructor
  · intro pass
    rcases hg.run_advances hbank pass with ⟨⟨g', changed⟩, hrun, hadvances, _⟩
    refine ⟨g', changed, hrun, ?_, ?_⟩
    · rintro rfl
      exact (hadvances.resolve_right fun h => by cases h.left).right
    · rintro rfl
      exact (hadvances.resolve_left fun h => by cases h.left).right
  · intro b s hgraph hlimit
    rw [← hgraph] at hg
    rcases Scheduler.optimize_stops hbank b hg hlimit
      with ⟨⟨s', result⟩, hrun, hstopped, hrounds⟩
    refine ⟨s', result, hrun, hstopped.same, hrounds, hstopped.completes, ?_⟩
    intro n hn
    rcases hstopped.rests n hn with ⟨hle, hrests⟩
    have hconfig : s'.config = s.config := congrArg (fun s => s.config) hstopped.same
    rw [← hconfig] at hrests
    refine ⟨by omega, Scheduler.atRest_of_rests b hrests ?_⟩
    rw [hconfig]
    omega

end Session

namespace Sample

def waiting : Scheduler (Program Task) (List (Program Task)) :=
  { Scheduler.new Config.standard [] with graph := inserted.graph }

end Sample

namespace Session

theorem optimize_reaches_rest_inserted :
    (exists g, Pass.fusion.run Sample.bank Sample.inserted.graph = .ok (g, true) ∧
      g.load < Sample.inserted.graph.load) ∧
    Sample.waiting.graph.load = 4 ∧ Sample.waiting.config.maxRounds = 5 ∧
    exists s' n, Sample.waiting.optimize Sample.bank Backend.logging = .ok (s', .ok n) ∧ n ≤ 5 ∧
      s'.AtRest Sample.bank Backend.logging := by
  have hshrinks : Sample.bank.Shrinks := by
    constructor
    · intro record dead stripped h s hs
      cases h
      exact (OrderedSet.mem_sdiff.mp hs).left
    · intro record model demoted h
      cases h
    · intro a b c h s hs
      cases h
      exact OrderedSet.mem_union.mp hs
  have hreachable : Reachable Sample.bank Allowed Sample.inserted :=
    .step (a := .insertTasks true [Sample.fill, Sample.copy]) .start trivial rfl
  have hload : Sample.waiting.graph.load = 4 := by decide +kernel
  rcases optimize_reaches_rest hshrinks hreachable with ⟨hpasses, hoptimize⟩
  constructor
  · rcases hpasses .fusion with ⟨g, changed, hrun, _, hless⟩
    have hchanged : changed = true := by
      have hanswer : (Pass.fusion.run Sample.bank Sample.inserted.graph).toOption.map (·.2)
          = some true := by decide +kernel
      rw [hrun] at hanswer
      exact Option.some.inj hanswer
    subst hchanged
    exact ⟨g, hrun, hless rfl⟩
  · refine ⟨hload, rfl, ?_⟩
    have hlimit : Sample.waiting.graph.load < Sample.waiting.config.maxRounds := by
      rw [hload]
      decide
    rcases hoptimize Backend.logging Sample.waiting rfl hlimit
      with ⟨s', result, hrun, _, _, hcompletes, hresult⟩
    rcases hcompletes (Or.inl rfl) with ⟨n, rfl⟩
    rcases hresult n rfl with ⟨hle, hrest⟩
    rw [hload] at hle
    exact ⟨s', n, hrun, hle, hrest⟩

end Session

end LaunchGraph
