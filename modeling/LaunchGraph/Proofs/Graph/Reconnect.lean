import LaunchGraph.Graph.Delete
import LaunchGraph.Graph.Redirect
import LaunchGraph.Proofs.Graph.Insert

/-!
# What changes of edges leave alone

Redirections, and what deletions and insertions do to edges, touch edges, owners and readers
only.  Whatever else is said of a graph is as true of the graph that they end with, even if they
are done where they make no sense.
-/

namespace LaunchGraph

variable {ρ : Type}

namespace Graph

def Reconnected (g0 g : Graph ρ) : Prop := g.skeleton = g0.skeleton

theorem Reconnected.refl (g : Graph ρ) : g.Reconnected g := rfl

section Reconnected

variable {g0 g : Graph ρ} (h : g0.Reconnected g)

include h

theorem modify_reconnects (k : NodeKey) {f : Node ρ -> Node ρ}
    (hf : forall n, (f n).disconnected = n.disconnected) :
    Yields (g.modify k f) g0.Reconnected :=
  .bind_any fun _ => .ok ((skeleton_congr (frame_update hf)).trans h)

theorem insertEdge_reconnects (u v : NodeKey) (s : State) :
    Yields (g.insertEdge u v s) g0.Reconnected := by
  rw [insertEdge]
  split
  · exact .ok h
  · refine .bind_any fun _ => .bind_any fun _ => .ok ?_
    have hsource : (g.update u fun n => { n with outputs := n.outputs.insert s v }).frame = g.frame :=
      frame_update fun _ => rfl
    have htarget := frame_update (k := v) (f := fun n => { n with inputs := n.inputs.insert s u })
      (g := g.update u fun n => { n with outputs := n.outputs.insert s v }) fun _ => rfl
    exact (skeleton_congr (htarget.trans hsource)).trans h

theorem insertEdgesInto_reconnects (sources : List NodeKey) (v : NodeKey) (s : State) :
    Yields (g.insertEdgesInto sources v s) g0.Reconnected :=
  .foldlM h (fun _ u h1 => insertEdge_reconnects h1 u v s) sources

theorem dropOutput_reconnects (u v : NodeKey) (s : State) :
    Yields (g.dropOutput u v s) g0.Reconnected :=
  modify_reconnects h u fun _ => rfl

theorem dropInput_reconnects (u v : NodeKey) (s : State) :
    Yields (g.dropInput u v s) g0.Reconnected :=
  modify_reconnects h v fun _ => rfl

theorem redirectOutputs_reconnects (a b : NodeKey) :
    Yields (g.redirectOutputs a b) g0.Reconnected := by
  refine .bind_any fun v => .bind (modify_reconnects h a fun _ => rfl) fun g1 h1 => ?_
  refine .foldlM h1 (fun g2 p h2 => ?_) _
  exact .bind (dropInput_reconnects h2 _ _ _) fun g3 h3 => insertEdge_reconnects h3 _ _ _

theorem redirectInputs_reconnects (a b : NodeKey) :
    Yields (g.redirectInputs a b) g0.Reconnected := by
  refine .bind_any fun v => .bind (modify_reconnects h a fun _ => rfl) fun g1 h1 => ?_
  refine .foldlM h1 (fun g2 p h2 => ?_) _
  exact .bind (dropOutput_reconnects h2 _ _ _) fun g3 h3 => insertEdge_reconnects h3 _ _ _

theorem redirect_reconnects (a b : NodeKey) (outputsOnly : Bool) :
    Yields (g.redirect a b outputsOnly) g0.Reconnected := by
  rw [redirect]
  split
  · exact .ok h
  · refine .bind (redirectOutputs_reconnects h a b) fun g1 h1 => ?_
    cases outputsOnly with
    | true => exact .ok h1
    | false => exact .bind (redirectInputs_reconnects h1 a b) fun g2 h2 => .ok h2

theorem connectWrite_reconnects (key : NodeKey) (s : State) :
    Yields (g.connectWrite key s) g0.Reconnected := by
  refine .bind (insertEdge_reconnects h _ key s) fun g1 h1 => ?_
  have hread : g0.Reconnected { g1 with readers := g1.readers.eraseState s } := h1
  exact .bind (insertEdgesInto_reconnects hread _ key s) fun g2 h2 => .ok h2

theorem addReaders_reconnects (key : NodeKey) (states : List State) :
    g0.Reconnected (states.foldl (fun g s => g.addReader key s) g) := by
  induction states generalizing g with
  | nil => exact h
  | cons s states ih => exact ih h

theorem isolate_reconnects (k : NodeKey) : Yields (g.isolate k) g0.Reconnected := by
  refine .bind_any fun v => .bind (modify_reconnects h k fun _ => rfl) fun g1 h1 => ?_
  refine .bind (P := g0.Reconnected) ?_ fun g2 h2 => ?_
  · exact .foldlM h1 (fun _ p h2 => dropOutput_reconnects h2 p.2 k p.1) _
  · refine .bind (P := g0.Reconnected) ?_ fun g3 h3 => ?_
    · exact .foldlM h2 (fun _ p h3 => dropInput_reconnects h3 k p.2 p.1) _
    · refine .bind (P := g0.Reconnected) ?_ fun g4 h4 => .ok h4
      refine .foldlM h3 (fun g4 p h4 => ?_) _
      exact .foldlM h4 (fun _ target h5 => insertEdge_reconnects h5 _ target _) _

end Reconnected

theorem insertNode_reconnects (g : Graph ρ) (n : Node ρ) :
    Yields (g.insertNode n) fun r => (g.withArrival n).Reconnected r.1 := by
  have hstart : (g.withArrival n).Reconnected (g.withArrival n) := rfl
  refine .bind (P := (g.withArrival n).Reconnected) ?_ fun g1 h1 => ?_
  · exact .foldlM hstart (fun _ s h1 => insertEdge_reconnects h1 _ _ s) _
  · refine .bind (P := (g.withArrival n).Reconnected) ?_ fun g2 h2 => ?_
    · exact .foldlM h1 (fun _ s h2 => connectWrite_reconnects h2 _ s) _
    · exact .ok (addReaders_reconnects h2 _ _)

end Graph

end LaunchGraph
