import LaunchGraph.Proofs.Graph.Redirect
import LaunchGraph.Proofs.Session

/-!
# A redirection renames one end of the edges, or both

After a redirection the graph has the edges that it had before with one node renamed at
their sources, and unless only outputs are handed over also at their targets.  An edge
that would then lead from a node to itself is gone.  This is so however the two nodes were
connected before, with each other or with the same third node.
-/

namespace LaunchGraph

namespace Graph

variable {ρ : Type}

/-- What becomes of a target when `a` is renamed to `b`: it keeps its name if only sources
are renamed. -/
def renameTarget (a b : NodeKey) (outputsOnly : Bool) (k : NodeKey) : NodeKey :=
  if outputsOnly then k else rename a b k

/-- An edge of `g` leads from `u` to `v` on `s` once its ends are renamed. -/
def LeavesRenamed (g : Graph ρ) (a b : NodeKey) (outputsOnly : Bool) (u v : NodeKey) (s : State) :
    Prop :=
  exists x y, g.Leaves x y s ∧ rename a b x = u ∧ renameTarget a b outputsOnly y = v

/-- The graph `g'` is `g` with its edges, owners and readers redirected from `a` to `b`. -/
structure Redirected (g : Graph ρ) (a b : NodeKey) (outputsOnly : Bool) (g' : Graph ρ) : Prop where
  skeleton : g'.skeleton = g.skeleton
  mirrored : forall u v s, g'.Leaves u v s ↔ g'.Enters u v s
  leaves_iff : forall u v s, u ≠ v -> (g'.Leaves u v s ↔ g.LeavesRenamed a b outputsOnly u v s)
  loop_iff : forall k s, g'.Leaves k k s ↔ k ≠ a ∧ g.Leaves k k s
  mem_readers : forall s k, k ∈ g'.readers.get s ↔
    exists j, j ∈ g.readers.get s ∧ renameTarget a b outputsOnly j = k
  nodup_readers : forall s, (g'.readers.get s).Nodup
  readers_kept : outputsOnly = true -> g'.readers = g.readers
  owners_get : forall s, g'.owners.get? s = (g.owners.get? s).map (rename a b)

namespace Redirected

variable {g g' : Graph ρ} {a b : NodeKey} {outputsOnly : Bool}

theorem loopless (h : g.Redirected a b outputsOnly g') (hg : g.Loopless) : g'.Loopless := by
  intro k s hk
  exact hg k s ((h.loop_iff k s).mp hk).right

theorem leaves_iff_of_loopless (h : g.Redirected a b outputsOnly g') (hg : g.Loopless)
    (u v : NodeKey) (s : State) :
    g'.Leaves u v s ↔ u ≠ v ∧ g.LeavesRenamed a b outputsOnly u v s := by
  by_cases huv : u = v
  · subst huv
    constructor
    · intro hloop
      exact absurd hloop (h.loopless hg u s)
    · intro hnot
      exact absurd rfl hnot.left
  · rw [h.leaves_iff u v s huv]
    exact (and_iff_right huv).symm

end Redirected

section Redirect

variable {g : Graph ρ} {a b : NodeKey}

theorem redirect_redirected_outputs (hmirrored : forall u v s, g.Leaves u v s ↔ g.Enters u v s)
    (hab : a ≠ b) (ha : a ∈ g.keys) (hb : b ∈ g.keys) :
    exists g', g.redirect a b true = .ok g' ∧ g.Redirected a b true g' := by
  rcases redirect_outputs_ok hmirrored hab ha hb with ⟨g', hrun, h⟩
  have hleaves : forall u v s, g'.Leaves u v s ↔
      (u ≠ a ∧ g.Leaves u v s) ∨ (u = b ∧ v ≠ b ∧ g.Leaves a v s) := by
    intro u v s
    rw [h.mirrored, h.enters_iff, hmirrored, hmirrored]
  refine ⟨g', hrun, h.skeleton, h.mirrored, ?_, ?_, ?_, ?_, fun _ => h.readers, h.owners_get⟩
  · intro u v s huv
    rw [hleaves]
    constructor
    · rintro (⟨hu, hold⟩ | ⟨rfl, _, hold⟩)
      · exact ⟨u, v, hold, rename_of_ne hu, rfl⟩
      · exact ⟨a, v, hold, rename_self .., rfl⟩
    · rintro ⟨x, y, hold, rfl, rfl⟩
      by_cases hx : x = a
      · subst hx
        rw [rename_self] at huv ⊢
        exact Or.inr ⟨rfl, Ne.symm huv, hold⟩
      · rw [rename_of_ne hx]
        exact Or.inl ⟨hx, hold⟩
  · intro k s
    rw [hleaves]
    constructor
    · rintro (hold | ⟨hk, hnot, _⟩)
      · exact hold
      · exact absurd hk hnot
    · exact Or.inl
  · intro s k
    rw [h.readers]
    simp [renameTarget]
  · intro s
    exact g'.readers.nodup_get s

theorem redirect_redirected (hmirrored : forall u v s, g.Leaves u v s ↔ g.Enters u v s)
    (hab : a ≠ b) (ha : a ∈ g.keys) (hb : b ∈ g.keys) (outputsOnly : Bool) :
    exists g', g.redirect a b outputsOnly = .ok g' ∧ g.Redirected a b outputsOnly g' := by
  cases outputsOnly with
  | true => exact redirect_redirected_outputs hmirrored hab ha hb
  | false =>
      rcases redirect_takenOver hmirrored hab ha hb with ⟨g', hrun, h⟩
      refine ⟨g', hrun, h.skeleton, h.mirrored, ?_, ?_, h.mem_readers, ?_, ?_, h.owners_get⟩
      · intro u v s huv
        rw [h.mirrored, h.enters_iff u v s huv]
        simp only [LeavesRenamed, renameTarget, hmirrored, Bool.false_eq_true, if_false]
      · intro k s
        rw [h.mirrored, h.loop_iff, hmirrored]
      · intro s
        exact g'.readers.nodup_get s
      · intro hfalse
        cases hfalse

/-- A redirection goes through.  Its edges are those that there were, renamed; none leads
from a node to itself, all are known at both ends, and none is kept twice. -/
theorem redirect_renames_edges (hmirrored : forall u v s, g.Leaves u v s ↔ g.Enters u v s)
    (hab : a ≠ b) (ha : a ∈ g.keys) (hb : b ∈ g.keys) (outputsOnly : Bool) :
    exists g', g.redirect a b outputsOnly = .ok g' ∧ g.Redirected a b outputsOnly g' ∧
      (g.Loopless -> g'.Loopless ∧ forall u v s,
        g'.Leaves u v s ↔ u ≠ v ∧ g.LeavesRenamed a b outputsOnly u v s) ∧
      forall v, v ∈ g'.vertices -> forall e, e ∈ v.inputs.entries ++ v.outputs.entries ->
        e.2 ≠ [] ∧ e.2.Nodup := by
  rcases redirect_redirected hmirrored hab ha hb outputsOnly with ⟨g', hrun, h⟩
  refine ⟨g', hrun, h, ?_, ?_⟩
  · intro hg
    exact ⟨h.loopless hg, h.leaves_iff_of_loopless hg⟩
  · intro v _ e he
    rcases List.mem_append.mp he with hin | hout
    · exact Links.nodup_of_mem_entries hin
    · exact Links.nodup_of_mem_entries hout

end Redirect

end Graph

namespace Sample

def copied : Session (Program Task) :=
  match Session.new.perform bank (.insertTasks false [fill, copy, copy]) with
  | .ok s => s
  | .error _ => .new

end Sample

namespace Graph

/-- The first copy hands its edges over to the filler, which it read from.  The edge between
them is gone, and the second copy now waits for the filler on both fields. -/
theorem redirect_renames_edges_copied :
    exists g', Sample.copied.graph.redirect ⟨2⟩ ⟨1⟩ false = .ok g' ∧
      g'.Leaves ⟨1⟩ ⟨3⟩ (Sample.cell 0) ∧ g'.Leaves ⟨1⟩ ⟨3⟩ (Sample.cell 1) ∧
      ¬g'.Leaves ⟨1⟩ ⟨1⟩ (Sample.cell 0) ∧ (g'.readers.get (Sample.cell 0)).Nodup ∧
      g'.owners.get? (Sample.cell 0) = some ⟨1⟩ := by
  have hreachable : Session.Reachable Sample.bank Session.Allowed Sample.copied :=
    .step (a := .insertTasks false [Sample.fill, Sample.copy, Sample.copy]) .start trivial rfl
  have hconsistent := hreachable.consistent fun _ _ h => h.deletable
  have hkeys : Sample.copied.graph.keys = [⟨0⟩, ⟨1⟩, ⟨2⟩, ⟨3⟩] := rfl
  rcases redirect_renames_edges hconsistent.sound.wired.mirrored (a := ⟨2⟩) (b := ⟨1⟩)
      (by decide) (by simp [hkeys]) (by simp [hkeys]) false with ⟨g', hrun, h, hloops, _⟩
  have hloopless := hconsistent.forward.loopless hconsistent.sound.linked
  have hleaves := (hloops hloopless).right
  refine ⟨g', hrun, ?_, ?_, (hloops hloopless).left _ _, h.nodup_readers _, ?_⟩
  · rw [hleaves]
    refine ⟨by decide, ⟨1⟩, ⟨3⟩, ?_, rfl, rfl⟩
    exact List.mem_of_elem_eq_true rfl
  · rw [hleaves]
    refine ⟨by decide, ⟨2⟩, ⟨3⟩, ?_, rfl, rfl⟩
    exact List.mem_of_elem_eq_true rfl
  · rw [h.owners_get]
    rfl

end Graph
end LaunchGraph
