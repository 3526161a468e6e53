import LaunchGraph.Proofs.Session

/-!
# Fusion keeps the order of launches

In a session that deletes no nodes by hand, edges reflect all conflicts: two pending
nodes that conflict on a state lie on a path.  Fusion respects paths, also those that
lead along edges which the caller put in.  So the launches that its records stand for,
put one after another, are the launches there were before, each one once, and two that
conflict have not changed places.
-/

namespace LaunchGraph

variable {ρ : Type}

def Node.launchesOf {α : Type} (launches : ρ -> List α) (n : Node ρ) : List α :=
  n.record.toList.flatMap launches

/-- The launches that stand behind what a node launches. -/
def carried {α : Type} (launches : ρ -> List α) (p : Option ρ × Task) : List α :=
  p.1.toList.flatMap launches

/-!
## Fused records
-/

section Fused

variable {α : Type} {bank : Bank ρ} {launches : ρ -> List α}

@[simp] theorem carried_some (record : ρ) (t : Task) :
    carried launches (some record, t) = launches record := List.flatMap_singleton ..

theorem FusedFrom.carried_eq (hfuse : forall a b c, bank.fuse a b = some c ->
      launches c = launches a ++ launches b)
    {parts : List (Option ρ × Task)} {p : Option ρ × Task} (h : FusedFrom bank parts p) :
    carried launches p = parts.flatMap (carried launches) := by
  induction h with
  | single p => rw [List.flatMap_singleton]
  | fuse _ _ _ made ih =>
      rw [List.flatMap_append, ← ih, List.flatMap_singleton]
      simp [hfuse _ _ _ made]

theorem flatMap_launchesOf (hfuse : forall a b c, bank.fuse a b = some c ->
      launches c = launches a ++ launches b)
    {groups : List (List (Vertex ρ))} {after : List (Option ρ × Task)}
    (h : List.Forall₂ (fun group p => FusedFrom bank (group.map (·.launch)) p) groups after) :
    after.flatMap (carried launches) = groups.flatten.flatMap (·.launchesOf launches) := by
  induction h with
  | nil => rfl
  | cons hfused _ ih =>
      rw [List.flatMap_cons, List.flatten_cons, List.flatMap_append, ih,
        hfused.carried_eq hfuse, List.flatMap_map]
      rfl

end Fused

namespace Graph

/-!
## Edges from outside
-/

def insertEdges (g : Graph ρ) (edges : List (NodeKey × NodeKey × State)) : Outcome (Graph ρ) :=
  edges.foldlM (fun g e => g.insertEdge e.1 e.2.1 e.2.2) g

/-- The graph `g'` is `g` with more edges, all of which lead forward. -/
structure Denser (g g' : Graph ρ) : Prop where
  sound : g'.Sound
  forward : g'.Forward
  frame : g'.frame = g.frame
  enters : forall u v s, g.Enters u v s -> g'.Enters u v s

theorem insertEdge_denser {g g1 : Graph ρ} (h : g.Denser g1) {u v : NodeKey} {s : State}
    (huv : ComesBefore g.pendingKeys u v) :
    exists g2, g1.insertEdge u v s = .ok g2 ∧ g.Denser g2 := by
  have hpending : g1.pendingKeys = g.pendingKeys := pendingKeys_congr (skeleton_congr h.frame)
  rw [← hpending] at huv
  have hmem : forall k, k ∈ g1.pendingKeys -> k ∈ g1.keys := fun k hk => pendingKeys_subset hk
  rcases insertEdge_rewired (hmem u huv.left_mem) (hmem v huv.right_mem) s with ⟨g2, hrun, h2⟩
  have hrewired : g1.Rewired g2
      (fun k l t => g1.Enters k l t ∨ (u ≠ v ∧ k = u ∧ l = v ∧ t = s))
      (fun k l t => g1.Enters k l t ∨ (u ≠ v ∧ k = u ∧ l = v ∧ t = s)) := by
    refine ⟨h2.frame, ?_, h2.enters_iff⟩
    intro k l t
    rw [h2.leaves_iff, h.sound.wired.mirrored]
  refine ⟨g2, hrun, h.sound.rewired hrewired ?_, ?_, h2.frame.trans h.frame, ?_⟩
  · rintro k l t (hold | ⟨_, _, rfl, _⟩)
    · exact h.sound.wired.target_pending k l t hold
    · exact huv.right_mem
  · intro k l t hkl
    rw [h2.keys]
    rcases (h2.enters_iff k l t).mp hkl with hold | ⟨_, rfl, rfl, _⟩
    · exact h.forward k l t hold
    · exact huv.of_sublist g1.pendingKeys_sublist
  · intro k l t hkl
    exact (h2.enters_iff k l t).mpr (Or.inl (h.enters k l t hkl))

theorem insertEdges_denser {g : Graph ρ} (hg : g.Sound) (hf : g.Forward)
    {edges : List (NodeKey × NodeKey × State)}
    (hedges : forall e, e ∈ edges -> ComesBefore g.pendingKeys e.1 e.2.1) :
    exists g', g.insertEdges edges = .ok g' ∧ g.Denser g' := by
  refine foldlM_ok_of_keeps (fun g' => g.Denser g') ?_ ⟨hg, hf, rfl, fun _ _ _ h => h⟩
  intro e he g1 h1
  exact insertEdge_denser h1 (hedges e he)

theorem Denser.path {g g' : Graph ρ} (h : g.Denser g') {origin : State -> NodeKey}
    (hg : g.Built origin) {u v : Vertex ρ} {t : State} (huv : ComesBefore g'.pending u v)
    (hconflict : Conflict u.entry v.entry t) :
    Relation.TransGen g'.Connects u.key v.key := by
  have hbefore : ComesBefore g'.entries u.entry v.entry := huv.map Vertex.entry
  rw [entries_congr (skeleton_congr h.frame)] at hbefore
  have hconnects : forall k l, g.Connects k l -> g'.Connects k l := by
    rintro k l ⟨s, hs⟩
    exact ⟨s, h.enters k l s hs⟩
  exact Relation.TransGen.mono hconnects _ _ (hg.path_of_conflict hbefore hconflict)

end Graph

/-!
## The order of launches
-/

namespace Session

theorem Reachable.built {bank : Bank ρ} {s : Session ρ}
    (h : Reachable bank (fun s a => s.Allowed a ∧ Action.Builds a) s) :
    exists origin, s.graph.Built origin := by
  induction h with
  | start => exact ⟨_, Graph.new_settled.built⟩
  | step _ allowed performed ih =>
      rcases ih with ⟨origin, hbuilt⟩
      have hstepped := perform_stepped hbuilt.consistent allowed.left.deletable performed
      exact hstepped.built allowed.right ⟨origin, hbuilt⟩

/-- Fusion goes through, and its records put together are the launches of the pending
nodes in an order that respects conflicts and paths. -/
theorem fuse_keeps_order {α : Type} {bank : Bank ρ} {launches : ρ -> List α}
    (hfuse : forall a b c, bank.fuse a b = some c -> launches c = launches a ++ launches b)
    {s : Session ρ} (h : Reachable bank (fun s a => s.Allowed a ∧ Action.Builds a) s)
    {edges : List (NodeKey × NodeKey × State)}
    (hedges : forall e, e ∈ edges -> ComesBefore s.graph.pendingKeys e.1 e.2.1) (size : Nat) :
    exists g, s.graph.insertEdges edges = .ok g ∧
      exists g' changed order, (g.setWindow size).fuse bank = .ok (g', changed) ∧
        order.Perm g.pending ∧
        g'.pending.flatMap (·.launchesOf launches) = order.flatMap (·.launchesOf launches) ∧
        (g'.pending.flatMap (·.launchesOf launches)).Perm
          (g.pending.flatMap (·.launchesOf launches)) ∧
        forall u v, ComesBefore g.pending u v ->
          (exists t, Conflict u.entry v.entry t) ∨ Relation.TransGen g.Connects u.key v.key ->
          ComesBefore order u v := by
  rcases h.built with ⟨origin, hbuilt⟩
  rcases Graph.insertEdges_denser hbuilt.sound hbuilt.forward hedges with ⟨g, hrun, hdenser⟩
  have hsound : (g.setWindow size).Sound := hdenser.sound.withCounts _ _ _ _
  have hforward : (g.setWindow size).Forward := hdenser.forward
  rcases Graph.fuse_ok bank hsound hforward with ⟨g', changed, groups, hfused, _, hregrouped⟩
  have hsame : g'.pending.flatMap (·.launchesOf launches)
      = groups.flatten.flatMap (·.launchesOf launches) := by
    have hmap := flatMap_launchesOf hfuse hregrouped.fused
    rw [List.flatMap_map] at hmap
    exact hmap
  refine ⟨g, hrun, g', changed, groups.flatten, hfused, hregrouped.perm, hsame, ?_, ?_⟩
  · rw [hsame]
    exact hregrouped.perm.flatMap_right _
  · intro u v huv hrelated
    refine hregrouped.of_path hsound huv.left_mem huv.right_mem ?_
    rcases hrelated with ⟨t, hconflict⟩ | hpath
    · exact hdenser.path hbuilt huv hconflict
    · exact hpath

theorem fuse_keeps_order_inserted :
    exists g, Sample.inserted.graph.insertEdges [(⟨1⟩, ⟨2⟩, Sample.cell 2)] = .ok g ∧
      exists g' changed, exists order : List (Vertex (Program Task)),
        (g.setWindow 2).fuse Sample.bank = .ok (g', changed) ∧ order.Perm g.pending ∧
        g'.pending.flatMap (·.launchesOf Program.records)
          = order.flatMap (·.launchesOf Program.records) := by
  have hinserted : Reachable Sample.bank (fun s a => s.Allowed a ∧ Action.Builds a)
      Sample.inserted :=
    .step (a := .insertTasks true [Sample.fill, Sample.copy]) .start ⟨trivial, trivial⟩ rfl
  have hedges : forall e, e ∈ [((⟨1⟩ : NodeKey), (⟨2⟩ : NodeKey), Sample.cell 2)] ->
      ComesBefore Sample.inserted.graph.pendingKeys e.1 e.2.1 := by
    intro e he
    rw [List.mem_singleton.mp he]
    exact List.Sublist.refl [(⟨1⟩ : NodeKey), ⟨2⟩]
  rcases fuse_keeps_order (fun _ _ _ h => Program.records_fuse h) hinserted hedges 2
    with ⟨g, hrun, g', changed, order, hfused, hperm, hsame, _, _⟩
  exact ⟨g, hrun, g', changed, order, hfused, hperm, hsame⟩

end Session

end LaunchGraph
