import LaunchGraph.Scheduler
import LaunchGraph.Proofs.Graph.Reconnect

/-!
# Which lists are current

Which index lists are known to be current changes only when a task is launched.  No change
of edges, no pass, no execution and no clearing of the graph has a part in it.
-/

namespace LaunchGraph

variable {ρ : Type}

namespace Graph

def HasLists (lists : OrderedSet SNodeId) (g : Graph ρ) : Prop := g.currentLists = lists

theorem HasLists.of_reconnected {lists : OrderedSet SNodeId} {g g' : Graph ρ}
    (h : HasLists lists g) (hg : g.Reconnected g') : HasLists lists g' :=
  (congrArg Graph.currentLists hg).trans h

section Kept

variable {lists : OrderedSet SNodeId} {g : Graph ρ} (h : HasLists lists g)

include h

/-!
## Nodes
-/

theorem modify_lists (k : NodeKey) (f : Node ρ -> Node ρ) :
    Yields (g.modify k f) (HasLists lists) :=
  .bind_any fun _ => .ok h

theorem redirect_lists (a b : NodeKey) (outputsOnly : Bool) :
    Yields (g.redirect a b outputsOnly) (HasLists lists) :=
  (redirect_reconnects (.refl g) a b outputsOnly).mono fun _ h1 => h.of_reconnected h1

theorem insertNode_lists (n : Node ρ) :
    Yields (g.insertNode n) fun r => HasLists lists r.1 := by
  have harrival : HasLists lists (g.withArrival n) := h
  exact (insertNode_reconnects g n).mono fun _ h1 => harrival.of_reconnected h1

theorem isolate_lists (k : NodeKey) : Yields (g.isolate k) (HasLists lists) :=
  (isolate_reconnects (.refl g) k).mono fun _ h1 => h.of_reconnected h1

theorem deleteNodes_lists (positions : OrderedSet Nat) :
    Yields (g.deleteNodes positions) (HasLists lists) := by
  rw [deleteNodes]
  split
  · exact .ok h
  · refine .bind_any fun doomed => .bind_any fun owners => ?_
    refine .bind (P := HasLists lists) ?_ fun g1 h1 => .ok h1
    refine .foldlM (Q := HasLists lists) ?_ (fun _ k h1 => isolate_lists h1 k) doomed
    exact h

/-!
## Rebuilding and executing
-/

theorem sortPending_lists : Yields g.sortPending (HasLists lists) := by
  rw [sortPending]
  split
  · exact .ok h
  · exact .error _

theorem extractPending_lists :
    Yields g.extractPending fun r => HasLists lists r.1 :=
  .bind_any fun _ => .ok h

theorem insertNodes_lists (nodes : List (Node ρ)) :
    Yields (g.insertNodes nodes) (HasLists lists) :=
  .foldlM h (fun _ n h1 => .bind (insertNode_lists h1 n) fun _ h2 => .ok h2) nodes

theorem rebuild_lists (sort : Bool) : Yields (g.rebuild sort) (HasLists lists) := by
  have hinsert : forall g1 : Graph ρ, HasLists lists g1 ->
      Yields (g1.extractPending >>= fun r => r.1.insertNodes r.2) (HasLists lists) :=
    fun g1 h1 => .bind (extractPending_lists h1) fun r h2 => insertNodes_lists h2 r.2
  rw [rebuild]
  split
  · exact .bind (sortPending_lists h) hinsert
  · exact hinsert g h

theorem extractToExecute_lists :
    Yields g.extractToExecute fun r => HasLists lists r.1 :=
  .bind (sortPending_lists h) fun _ h1 => .ok h1

/-!
## Passes
-/

theorem adopt_lists (d : Description) : HasLists lists (g.adopt d).1 := by
  rw [adopt]
  split
  · exact h
  · exact h

theorem optimizeListgen_lists : Yields g.optimizeListgen fun r => HasLists lists r.1 := by
  refine .bind (sortPending_lists h) fun g1 h1 => .bind_any fun found => ?_
  dsimp only
  split
  · exact .ok h1
  · refine .bind (P := HasLists lists) ?_ fun g2 h2 => ?_
    · exact .foldlM h1 (fun _ r h2 => redirect_lists h2 _ _ true) _
    · exact .bind (deleteNodes_lists h2 _) fun g3 h3 =>
        .bind (rebuild_lists h3 false) fun g4 h4 => .ok h4

theorem eliminateDeadStores_lists (bank : Bank ρ) :
    Yields (g.eliminateDeadStores bank) fun r => HasLists lists r.1 := by
  refine .bind (P := fun scan : StoreScan ρ => HasLists lists scan.graph) ?_ ?_
  · refine .foldlM (Q := fun scan : StoreScan ρ => HasLists lists scan.graph) h ?_ _
    refine fun scan k h1 => .bind_any fun v => .bind_any fun verdict => ?_
    cases verdict with
    | keep => exact .ok h1
    | delete => exact .ok h1
    | strip record d => exact .bind (modify_lists (adopt_lists h1 d) k _) fun g2 h2 => .ok h2
  · intro scan h1
    split
    · exact .ok h1
    · exact .bind (deleteNodes_lists h1 _) fun g2 h2 =>
        .bind (rebuild_lists h2 false) fun g3 h3 => .ok h3

theorem demoteNode_lists (bank : Bank ρ) (k : NodeKey) :
    Yields (g.demoteNode bank k) fun r => HasLists lists r.1 := by
  refine .bind_any fun v => .bind_any fun found => ?_
  cases found with
  | none => exact .ok h
  | some found => exact .bind (modify_lists (adopt_lists h found.2) k _) fun g2 h2 => .ok h2

theorem demoteActivations_lists (bank : Bank ρ) :
    Yields (g.demoteActivations bank) fun r => HasLists lists r.1 := by
  refine .bind (P := fun r : Graph ρ × Bool => HasLists lists r.1) ?_ ?_
  · refine .foldlM (Q := fun r : Graph ρ × Bool => HasLists lists r.1) h (fun r k h1 => ?_) _
    exact .bind (demoteNode_lists h1 bank k) fun _ h2 => .ok h2
  · intro r h1
    dsimp only
    split
    · exact .bind (rebuild_lists h1 false) fun g2 h2 => .ok h2
    · exact .ok h1

theorem materialize_lists (positions : OrderedSet Nat) (group : FusionGroup ρ) :
    Yields (g.materialize positions group) fun r => HasLists lists r.1 := by
  refine .foldlM (Q := fun r : Graph ρ × OrderedSet Nat => HasLists lists r.1)
    (adopt_lists h group.description) (fun r v h1 => ?_) _
  exact .bind_any fun member => .bind (redirect_lists h1 _ _ false) fun g2 h2 => .ok h2

theorem fuseRange_lists (bank : Bank ρ) (first last : Nat) :
    Yields (g.fuseRange bank first last) fun r => HasLists lists r.1 := by
  refine .bind_any fun groups => ?_
  exact .foldlM (Q := fun r : Graph ρ × OrderedSet Nat => HasLists lists r.1) h
    (fun r group h1 => materialize_lists h1 r.2 group) groups

theorem fuseWindows_lists (bank : Bank ρ) (positions : OrderedSet Nat) (count first : Nat) :
    Yields (g.fuseWindows bank positions count first) fun r => HasLists lists r.1 := by
  fun_induction fuseWindows bank g positions count first with
  | case1 g positions first hlt last ih =>
      exact .bind (fuseRange_lists h bank first last) fun r h1 => ih r.1 r.2 h1
  | case2 g positions first hge => exact .ok h

theorem fuse_lists (bank : Bank ρ) :
    Yields (g.fuse bank) fun r => HasLists lists r.1 := by
  refine .bind (fuseWindows_lists h bank _ _ _) fun r h1 => ?_
  dsimp only
  split
  · exact .ok h1
  · exact .bind (deleteNodes_lists h1 _) fun g2 h2 =>
      .bind (rebuild_lists h2 true) fun g3 h3 => .ok h3

end Kept

end Graph

theorem Pass.run_lists (bank : Bank ρ) (g : Graph ρ) (pass : Pass) :
    Yields (pass.run bank g) fun r => r.1.HasLists g.currentLists := by
  cases pass with
  | listgen => exact Graph.optimizeListgen_lists rfl
  | deadStores => exact Graph.eliminateDeadStores_lists rfl bank
  | demotion => exact Graph.demoteActivations_lists rfl bank
  | fusion => exact Graph.fuse_lists rfl bank

end LaunchGraph
