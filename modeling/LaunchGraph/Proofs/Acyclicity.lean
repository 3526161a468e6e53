import LaunchGraph.Proofs.FusionOrder

/-!
# What the checks say about edges from outside

A caller may put edges in between any two nodes, also into executed ones.  The checks then
report a cycle exactly if there is one, and name a node on it.  Where there is no cycle they
pass exactly if all edges lead forward and none leads into the history.
-/

namespace LaunchGraph

variable {ρ : Type}

namespace Graph

theorem insertEdges_rewired {g : Graph ρ} {edges : List (NodeKey × NodeKey × State)}
    (hlive : forall e, e ∈ edges -> e.1 ∈ g.keys ∧ e.2.1 ∈ g.keys) :
    exists g', g.insertEdges edges = .ok g' ∧
      g.Rewired g' (fun u v t => g.Leaves u v t ∨ (u ≠ v ∧ (u, v, t) ∈ edges))
        (fun u v t => g.Enters u v t ∨ (u ≠ v ∧ (u, v, t) ∈ edges)) := by
  refine foldlM_ok_of_step
    (fun done g' => g.Rewired g' (fun u v t => g.Leaves u v t ∨ (u ≠ v ∧ (u, v, t) ∈ done))
      (fun u v t => g.Enters u v t ∨ (u ≠ v ∧ (u, v, t) ∈ done))) ?_ ?_
  · rintro done ⟨a, b, s⟩ rest g1 hsplit h1
    have hends := hlive (a, b, s) (by simp [hsplit])
    rw [← h1.keys] at hends
    rcases insertEdge_rewired hends.left hends.right s with ⟨g2, hrun, h2⟩
    have hmore : forall u v t, ((u ≠ v ∧ (u, v, t) ∈ done) ∨ (a ≠ b ∧ u = a ∧ v = b ∧ t = s)) ↔
        u ≠ v ∧ (u, v, t) ∈ done ++ [(a, b, s)] := by
      intro u v t
      rw [List.mem_append, List.mem_singleton, Prod.mk.injEq, Prod.mk.injEq]
      grind
    refine ⟨g2, hrun, h2.frame.trans h1.frame, ?_, ?_⟩
    · intro u v t
      rw [h2.leaves_iff, h1.leaves_iff, or_assoc, hmore]
    · intro u v t
      rw [h2.enters_iff, h1.enters_iff, or_assoc, hmore]
  · refine ⟨rfl, ?_, ?_⟩
    · intro u v t
      simp
    · intro u v t
      simp

theorem Consistent.registered_of_rewired {g g' : Graph ρ} (hg : g.Consistent)
    {more : NodeKey -> NodeKey -> State -> Prop}
    (h : g.Rewired g' (fun u v t => g.Leaves u v t ∨ more u v t)
      (fun u v t => g.Enters u v t ∨ more u v t)) : g'.Registered := by
  have hskeleton := skeleton_congr h.frame
  have howners := owners_congr h.frame
  have hinitial : g'.initial.key = g.initial.key :=
    Vertex.key_eq_of_bare_eq (congrArg Graph.initial h.frame)
  have howner : forall s, g'.ownerOrInitial s = g.ownerOrInitial s := by
    intro s
    rw [ownerOrInitial, ownerOrInitial, howners, hinitial]
  refine ⟨hg.sound.linked.of_skeleton hskeleton ?_, ?_, ?_⟩
  · intro u v s
    rw [h.leaves_iff, h.enters_iff, hg.sound.wired.mirrored]
  · intro s k hk
    rw [howners] at hk
    exact (hg.owner_writes s k hk).congr hskeleton
  · intro s k hk
    rw [readers_congr h.frame] at hk
    rw [howner, h.enters_iff]
    rcases hg.reader_linked s k hk with heq | henters
    · exact Or.inl heq
    · exact Or.inr (Or.inl henters)

theorem Loopless.of_rewired {g g' : Graph ρ} (hg : g.Loopless)
    {edges : List (NodeKey × NodeKey × State)} {enters : NodeKey -> NodeKey -> State -> Prop}
    (h : g.Rewired g' (fun u v t => g.Leaves u v t ∨ (u ≠ v ∧ (u, v, t) ∈ edges)) enters) :
    g'.Loopless := by
  intro k s hk
  rcases (h.leaves_iff k k s).mp hk with hold | ⟨hne, _⟩
  · exact hg k s hold
  · exact hne rfl

namespace Registered

variable {g : Graph ρ}

theorem verify_of_onCycle (h : g.Registered) (hself : g.Loopless) (bank : Bank ρ) {k : NodeKey}
    (hk : g.OnCycle k) :
    exists v, v ∈ g.vertices ∧ g.OnCycle v.key ∧
      g.verify bank false = .error (.cycle v.label) := by
  rcases checkAcyclic_error h.linked hself hk with ⟨v, hv, hcycle, hcheck⟩
  refine ⟨v, hv, hcycle, ?_⟩
  rw [h.verify_eq, hcheck]
  rfl

theorem verify_of_acyclic (h : g.Registered) (bank : Bank ρ) (hacyclic : forall k, ¬g.OnCycle k) :
    g.verify bank false = g.checkDirections := by
  rw [h.verify_eq, checkAcyclic_ok h.linked hacyclic, ok_bind]
  cases g.checkDirections with
  | error e => rfl
  | ok a => rfl

theorem verify_cycle_iff (h : g.Registered) (hself : g.Loopless) (bank : Bank ρ) :
    (exists node, g.verify bank false = .error (.cycle node)) ↔ exists k, g.OnCycle k := by
  constructor
  · rintro ⟨node, hnode⟩
    by_contra hnone
    have hacyclic : forall k, ¬g.OnCycle k := fun k hk => hnone ⟨k, hk⟩
    rw [h.verify_of_acyclic bank hacyclic] at hnode
    exact checkDirections_ne_cycle node hnode
  · rintro ⟨k, hk⟩
    rcases h.verify_of_onCycle hself bank hk with ⟨v, _, _, hverify⟩
    exact ⟨v.label, hverify⟩

end Registered

end Graph

namespace Session

/-- Edges put in between any nodes that are there are reported as a cycle exactly if they close
one, and a node on it is named.  Without a cycle the graph passes exactly if every edge leads
forward and none leads into an executed node or the initial one. -/
theorem verify_tells_cycles {bank : Bank ρ} {s : Session ρ} (h : Reachable bank Allowed s)
    {edges : List (NodeKey × NodeKey × State)}
    (hlive : forall e, e ∈ edges -> e.1 ∈ s.graph.keys ∧ e.2.1 ∈ s.graph.keys) :
    exists g, s.graph.insertEdges edges = .ok g ∧
      (forall u v t, g.Leaves u v t ↔ s.graph.Leaves u v t ∨ (u ≠ v ∧ (u, v, t) ∈ edges)) ∧
      ((exists node, g.verify bank false = .error (.cycle node)) ↔ exists k, g.OnCycle k) ∧
      (forall node, g.verify bank false = .error (.cycle node) ->
        exists v, v ∈ g.vertices ∧ v.label = node ∧ g.OnCycle v.key) ∧
      ((forall k, ¬g.OnCycle k) -> (g.verify bank false = .ok () ↔
        forall u v t, g.Leaves u v t -> ComesBefore g.keys u v ∧ v ∉ g.executed.map (·.key))) := by
  have hconsistent := h.consistent fun _ _ h => h.deletable
  rcases Graph.insertEdges_rewired hlive with ⟨g, hrun, hrewired⟩
  have hregistered := hconsistent.registered_of_rewired hrewired
  have hself : g.Loopless :=
    (hconsistent.forward.loopless hconsistent.sound.linked).of_rewired hrewired
  refine ⟨g, hrun, hrewired.leaves_iff, hregistered.verify_cycle_iff hself bank, ?_, ?_⟩
  · intro node hnode
    rcases (hregistered.verify_cycle_iff hself bank).mp ⟨node, hnode⟩ with ⟨k, hk⟩
    rcases hregistered.verify_of_onCycle hself bank hk with ⟨v, hv, hcycle, hverify⟩
    rw [hverify] at hnode
    cases hnode
    exact ⟨v, hv, rfl, hcycle⟩
  · intro hacyclic
    rw [hregistered.verify_of_acyclic bank hacyclic]
    exact Graph.checkDirections_ok_iff hregistered.linked

/-- The filler is made to wait for the copy, which waits for the filler. -/
theorem verify_tells_cycles_mutual :
    exists g, Sample.inserted.graph.insertEdges [(⟨2⟩, ⟨1⟩, Sample.cell 1)] = .ok g ∧
      g.Leaves ⟨1⟩ ⟨2⟩ (Sample.cell 0) ∧ g.Leaves ⟨2⟩ ⟨1⟩ (Sample.cell 1) ∧
      exists v, v ∈ g.vertices ∧ g.OnCycle v.key ∧
        g.verify Sample.bank false = .error (.cycle v.label) := by
  have hinserted : Reachable Sample.bank Allowed Sample.inserted :=
    .step (a := .insertTasks true [Sample.fill, Sample.copy]) .start trivial rfl
  have hkeys : Sample.inserted.graph.keys = [⟨0⟩, ⟨1⟩, ⟨2⟩] := rfl
  have hlive : forall e, e ∈ [((⟨2⟩ : NodeKey), (⟨1⟩ : NodeKey), Sample.cell 1)] ->
      e.1 ∈ Sample.inserted.graph.keys ∧ e.2.1 ∈ Sample.inserted.graph.keys := by
    intro e he
    rw [List.mem_singleton.mp he, hkeys]
    decide
  rcases verify_tells_cycles hinserted hlive with ⟨g, hrun, hleaves, hcycle, hnames, _⟩
  have hforth : g.Leaves ⟨1⟩ ⟨2⟩ (Sample.cell 0) :=
    (hleaves _ _ _).mpr (Or.inl (List.mem_of_elem_eq_true rfl))
  have hback : g.Leaves ⟨2⟩ ⟨1⟩ (Sample.cell 1) :=
    (hleaves _ _ _).mpr (Or.inr ⟨by decide, List.mem_singleton.mpr rfl⟩)
  have honCycle : g.OnCycle ⟨1⟩ :=
    .tail (.single ⟨Sample.cell 0, hforth⟩) ⟨Sample.cell 1, hback⟩
  rcases hcycle.mpr ⟨_, honCycle⟩ with ⟨node, hverify⟩
  rcases hnames node hverify with ⟨v, hv, rfl, hv'⟩
  exact ⟨g, hrun, hforth, hback, v, hv, hv', hverify⟩

end Session

end LaunchGraph
