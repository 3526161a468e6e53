import LaunchGraph.Proofs.Course
import LaunchGraph.Proofs.Session

/-!
# Passes with nothing to do

A pass that says that it changed nothing has left the graph as it was, and without pending nodes
no pass changes anything.  So does a round of passes, whatever the bank.
-/

namespace LaunchGraph

variable {ρ : Type}

namespace Graph

/-- A pass has left the graph as it was, or there were pending nodes for it to change. -/
def Responds (g : Graph ρ) (r : Graph ρ × Bool) : Prop :=
  (r.2 = false ∧ r.1 = g) ∨ (r.2 = true ∧ g.pendingCount ≠ 0)

theorem pendingCount_ne_zero {g : Graph ρ} {k : NodeKey} (h : k ∈ g.pendingKeys) :
    g.pendingCount ≠ 0 := by
  rcases exists_pending h with ⟨v, hv, _⟩
  exact Nat.ne_of_gt (List.length_pos_of_mem hv)

theorem Responds.then {g g1 g2 : Graph ρ} {changed now : Bool} (h1 : g.Responds (g1, changed))
    (h2 : g1.Responds (g2, now)) : g.Responds (g2, changed || now) := by
  rcases h1 with ⟨rfl, rfl⟩ | ⟨rfl, hpending⟩
  · rw [Bool.false_or]
    exact h2
  · exact Or.inr ⟨rfl, hpending⟩

theorem Responds.of_empty {g g' : Graph ρ} {changed : Bool} (h : g.Responds (g', changed))
    (hempty : g.pendingCount = 0) : changed = false ∧ g' = g :=
  h.resolve_right fun hbusy => hbusy.right hempty

theorem DemotedSome.pendingCount_ne_zero {bank : Bank ρ} {g g' : Graph ρ}
    (h : DemotedSome bank g g') : g.pendingCount ≠ 0 := by
  induction h with
  | single hstep =>
      rcases hstep with ⟨k, hstep⟩
      exact Graph.pendingCount_ne_zero hstep.pending
  | tail _ _ ih => exact ih

section Passes

variable {g : Graph ρ} (hg : g.Consistent)

include hg

theorem optimizeListgen_responds :
    exists r, g.optimizeListgen = .ok r ∧ g.Responds r := by
  rcases optimizeListgen_cases hg
    with ⟨g', changed, hrun, hsame | ⟨hchanged, found, g1, doomed, g2, base, hne, h⟩⟩
  · exact ⟨(g', changed), hrun, Or.inl hsame⟩
  · rcases List.exists_mem_of_ne_nil _ hne with ⟨r, hr⟩
    exact ⟨(g', changed), hrun,
      Or.inr ⟨hchanged, pendingCount_ne_zero (h.selected.pending (mem_gone hr))⟩⟩

theorem eliminateDeadStores_responds (bank : Bank ρ) :
    exists r, g.eliminateDeadStores bank = .ok r ∧ g.Responds r := by
  rcases eliminateDeadStores_cases bank hg.sound hg.forward
    with ⟨g', changed, hrun, ⟨hchanged, hsame, _⟩ | ⟨hchanged, scan, doomed, g1, base, h⟩⟩
  · exact ⟨(g', changed), hrun, Or.inl ⟨hchanged, hsame⟩⟩
  · rcases h.changed with ⟨v, hv, _⟩
    exact ⟨(g', changed), hrun,
      Or.inr ⟨hchanged, pendingCount_ne_zero (List.mem_map_of_mem hv)⟩⟩

theorem demoteActivations_responds (bank : Bank ρ) :
    exists r, g.demoteActivations bank = .ok r ∧ g.Responds r := by
  rcases demoteActivations_cases bank hg.sound hg.forward
    with ⟨g', changed, hrun, hsame | ⟨hchanged, g1, base, h⟩⟩
  · exact ⟨(g', changed), hrun, Or.inl hsame⟩
  · exact ⟨(g', changed), hrun, Or.inr ⟨hchanged, h.demoted.pendingCount_ne_zero⟩⟩

theorem fuse_responds (bank : Bank ρ) : exists r, g.fuse bank = .ok r ∧ g.Responds r := by
  rcases fuse_staged bank hg.sound hg.forward
    with ⟨g', changed, hrun, hsame | ⟨hchanged, names, fused, doomed, order, g1, g2, g3, base, h⟩⟩
  · exact ⟨(g', changed), hrun, Or.inl hsame⟩
  · rcases h.renamed with ⟨k, hk⟩
    exact ⟨(g', changed), hrun,
      Or.inr ⟨hchanged, pendingCount_ne_zero (h.fusing.named k hk).left⟩⟩

theorem run_responds (bank : Bank ρ) (pass : Pass) :
    exists r, pass.run bank g = .ok r ∧ g.Responds r := by
  cases pass with
  | listgen => exact optimizeListgen_responds hg
  | deadStores => exact eliminateDeadStores_responds hg bank
  | demotion => exact demoteActivations_responds hg bank
  | fusion => exact fuse_responds hg bank

end Passes

end Graph

theorem Config.runPasses_responds (c : Config) (bank : Bank ρ) {g : Graph ρ} (hg : g.Consistent) :
    exists g' changed, c.runPasses bank g = .ok (g', changed) ∧ g'.Consistent ∧
      g.Responds (g', changed) := by
  have hpasses : forall pass, pass ∈ c.passes -> forall g : Graph ρ, g.Consistent ->
      exists r, pass.run bank g = .ok r ∧ r.1.Consistent ∧ g.Responds r := by
    intro pass _ g1 h1
    rcases Graph.run_responds h1 bank pass with ⟨r, hrun, hresponds⟩
    rcases Graph.run_ok bank h1 pass with ⟨g2, now, hrun', hrebuilt, _⟩
    rw [hrun] at hrun'
    cases hrun'
    exact ⟨_, hrun, hrebuilt.consistent h1, hresponds⟩
  rcases Config.runPasses_composes (fun _ h => h) (fun _ => Or.inl ⟨rfl, rfl⟩)
      (fun _ _ _ _ _ h1 h2 => h1.then h2) hpasses hg with ⟨⟨g', changed⟩, hrun, hg', hresponds⟩
  exact ⟨g', changed, hrun, hg', hresponds⟩

end LaunchGraph
