import LaunchGraph.Proofs.Graph.Grow
import LaunchGraph.Proofs.Graph.Retire

/-!
# Two graphs in step

Which launches are left out, how they are counted and which nodes they make depends on what a
graph counts and tracks, and not on its nodes.  So two graphs that count alike gain nodes with
the same titles from the same launches, and count alike afterwards.
-/

namespace LaunchGraph
namespace Graph

variable {ρ : Type}

structure Gains (g : Graph ρ) (titles : List (TaskHandle × Nat)) (g' : Graph ρ) : Prop where
  executed : g'.executed.map Vertex.mark = g.executed.map Vertex.mark
  pending : g'.pending.map (·.title) = g.pending.map (·.title) ++ titles

theorem Gains.refl (g : Graph ρ) : g.Gains [] g := ⟨rfl, (List.append_nil _).symm⟩

theorem Gains.trans {g g1 g2 : Graph ρ} {titles more : List (TaskHandle × Nat)}
    (h1 : g.Gains titles g1) (h2 : g1.Gains more g2) : g.Gains (titles ++ more) g2 := by
  refine ⟨h2.executed.trans h1.executed, ?_⟩
  rw [h2.pending, h1.pending, List.append_assoc]

theorem Gains.initial_key {g g' : Graph ρ} {titles : List (TaskHandle × Nat)}
    (h : g.Gains titles g') : g'.initial.key = g.initial.key :=
  congrArg Prod.fst (List.cons.inj h.executed).left

theorem Gains.initial_title {g g' : Graph ρ} {titles : List (TaskHandle × Nat)}
    (h : g.Gains titles g') : g'.initial.title = g.initial.title :=
  congrArg Prod.snd (List.cons.inj h.executed).left

theorem Extended.gains {g g' : Graph ρ} {nodes : List (Node ρ)} (h : g.Extended nodes g') :
    g.Gains (nodes.map (·.title)) g' :=
  ⟨map_congr_of_bare (fun _ => rfl) h.bareExecuted, h.map_pending Prod.snd⟩

/-- The graphs `g` and `h`, which were `g0` and `h0`, count alike and gained nodes with the same
titles. -/
structure InStep (g0 h0 g h : Graph ρ) : Prop where
  sound : g.Sound ∧ h.Sound
  counts : g.counts = h.counts
  gained : exists titles, g0.Gains titles g ∧ h0.Gains titles h

section Steps

variable {g0 h0 g h : Graph ρ}

theorem InStep.refl (hg : g.Sound) (hh : h.Sound) (hcounts : g.counts = h.counts) :
    InStep g h g h :=
  ⟨⟨hg, hh⟩, hcounts, [], .refl g, .refl h⟩

theorem InStep.withCounts (hs : InStep g0 h0 g h) (launches : Table String Nat)
    (currentLists : OrderedSet SNodeId) (nextSerial : Nat) (window : FusionWindow) :
    InStep g0 h0 (g.withCounts launches currentLists nextSerial window)
      (h.withCounts launches currentLists nextSerial window) := by
  rcases hs.gained with ⟨titles, hg, hh⟩
  exact ⟨⟨hs.sound.left.withCounts .., hs.sound.right.withCounts ..⟩, rfl, titles,
    ⟨hg.executed, hg.pending⟩, ⟨hh.executed, hh.pending⟩⟩

theorem InStep.setWindow (hs : InStep g0 h0 g h) (size : Nat) :
    InStep g0 h0 (g.setWindow size) (h.setWindow size) := by
  have hsame := congrArg (·.setWindow size) (withCounts_of_counts_eq hs.counts)
  rw [← hsame]
  exact hs.withCounts ..

theorem InStep.insertNode (hs : InStep g0 h0 g h) (n : Node ρ) :
    exists g' h', g.insertNode n = .ok (g', g.freshKey) ∧
      h.insertNode n = .ok (h', h.freshKey) ∧ InStep g0 h0 g' h' := by
  rcases insertNode_ok hs.sound.left n with ⟨g', hrun, hi⟩
  rcases insertNode_ok hs.sound.right n with ⟨h', hrun', hi'⟩
  rcases hs.gained with ⟨titles, hg, hh⟩
  refine ⟨g', h', hrun, hrun', ⟨hi.sound hs.sound.left, hi'.sound hs.sound.right⟩, ?_, _,
    hg.trans hi.extended.gains, hh.trans hi'.extended.gains⟩
  rw [hi.extended.counts, hi'.extended.counts, hs.counts]

theorem InStep.insertTask (hs : InStep g0 h0 g h) (bank : Bank ρ) (filter : Bool) (record : ρ) :
    exists g' h' inserted, g.insertTask bank filter record = .ok (g', inserted) ∧
      h.insertTask bank filter record = .ok (h', inserted) ∧ InStep g0 h0 g' h' := by
  rcases trackLists_congr bank filter hs.counts (bank.describe record).task
    with ⟨hnone, hnone'⟩ | ⟨currentLists, hsome, hsome'⟩
  · exact ⟨g, h, false, insertTask_of_none hnone, insertTask_of_none hnone', hs⟩
  · have htracked := hs.withCounts g.launches currentLists g.nextSerial g.window
    rcases newNodeOf_congr htracked.counts record (bank.describe record)
      with ⟨launches, serial, n, hnode, hnode'⟩
    rcases (htracked.withCounts launches currentLists serial g.window).insertNode n
      with ⟨g', h', hrun, hrun', hs'⟩
    exact ⟨g', h', true, insertTask_of_some hsome hnode hrun,
      insertTask_of_some hsome' hnode' hrun', hs'⟩

theorem InStep.insertTasks (hs : InStep g0 h0 g h) (bank : Bank ρ) (filter : Bool)
    (records : List ρ) :
    Tracks (fun r r' => InStep g0 h0 r.1 r'.1) (g.insertTasks bank filter records)
      (h.insertTasks bank filter records) := by
  refine Tracks.foldlM (P := Eq) (List.forall₂_same.mpr fun _ _ => rfl) ?_ hs
  rintro ⟨g1, count⟩ ⟨h1, count'⟩ record _ h1 rfl
  rcases h1.insertTask bank filter record with ⟨g', h', inserted, hrun, hrun', hs'⟩
  dsimp only
  rw [hrun, hrun']
  exact .ok hs'

theorem InStep.rebuild (hg : g.Consistent) (hh : h.Consistent) (hcounts : g.counts = h.counts)
    (sort : Bool) :
    exists g' h', g.rebuild sort = .ok g' ∧ h.rebuild sort = .ok h' ∧ InStep g h g' h' := by
  rcases hg.rebuild_extended sort with ⟨g', hrun, hsound, hextended⟩
  rcases hh.rebuild_extended sort with ⟨h', hrun', hsound', hextended'⟩
  refine ⟨g', h', hrun, hrun', ⟨hsound, hsound'⟩, ?_, [], hextended.gains, hextended'.gains⟩
  rw [hextended.counts, hextended'.counts, hcounts]

end Steps

end Graph
end LaunchGraph
