import LaunchGraph.Proofs.FusionOrder
import LaunchGraph.Proofs.Graph.Sources
import LaunchGraph.Proofs.Pass.Survivors

/-!
# What reads are attached to after dead store elimination

Every read of a node that survives dead store elimination has exactly one writer, before the
pass and after it.  If the writer is pending, the two are the same launch.  If it was executed,
the read stays attached to it as long as no other node lost a store of the state.  Otherwise
the read is attached to the initial node.
-/

namespace LaunchGraph

variable {ρ : Type}

namespace Graph

/-- Two nodes, one before the pass and one after it, are the same launch: they are paired, or
they are the same executed node. -/
def Counterparts (g : Graph ρ) (pairs : List (Vertex ρ × Vertex ρ)) (u u' : NodeKey) : Prop :=
  (exists p, p ∈ pairs ∧ p.1.key = u ∧ p.2.key = u') ∨ (u ∈ g.executed.map (·.key) ∧ u' = u)

/-!
## From node to node
-/

/-- A state after some pending nodes comes from the same launch before the pass and after it, or
from where the state came from before all of them, or from a dead store. -/
def Traced (g : Graph ρ) (origin origin' : State -> NodeKey) (s : State) (l : List (Vertex ρ))
    (pairs : List (Vertex ρ × Vertex ρ)) : Prop :=
  exists u u', NearestWriter origin s (l.map Vertex.entry) u ∧
    NearestWriter origin' s ((pairs.map (·.2)).map Vertex.entry) u' ∧
    ((exists p, p ∈ pairs ∧ p.1.key = u ∧ p.2.key = u') ∨ (u = origin s ∧ u' = origin' s) ∨
      exists v, v ∈ l ∧ v.key = u ∧ g.DeadAt u s)

section Step

variable {origin : State -> NodeKey} {s : State} {l : List (Vertex ρ)} {v : Vertex ρ}

theorem nearestWriter_last (hv : v.task.writes s = true) :
    NearestWriter origin s ((l ++ [v]).map Vertex.entry) v.key := by
  rw [List.map_append, List.map_singleton, nearestWriter_append_singleton]
  exact Or.inl ⟨hv, rfl⟩

theorem nearestWriter_skip (hv : v.task.writes s = false) {u : NodeKey}
    (h : NearestWriter origin s (l.map Vertex.entry) u) :
    NearestWriter origin s ((l ++ [v]).map Vertex.entry) u := by
  rw [List.map_append, List.map_singleton, nearestWriter_append_singleton]
  exact Or.inr ⟨hv, h⟩

end Step

namespace Thinned

variable {g : Graph ρ} {l : List (Vertex ρ)} {pairs : List (Vertex ρ × Vertex ρ)}

/-- The walk keeps track of where a state comes from: a node that is left passes on what it
writes or hides a dead store, and a node that goes hides nothing but dead stores. -/
theorem traced (h : g.Thinned l pairs) (origin origin' : State -> NodeKey) (s : State) :
    g.Traced origin origin' s l pairs := by
  induction h with
  | nil =>
      exact ⟨_, _, nearestWriter_nil.mpr rfl, nearestWriter_nil.mpr rfl, Or.inr (Or.inl ⟨rfl, rfl⟩)⟩
  | @stay l pairs v v' _ _ strips ih =>
      rcases ih with ⟨u, u', hu, hu', hcases⟩
      have hlast : (pairs ++ [(v, v')]).map (·.2) = pairs.map (·.2) ++ [v'] := List.map_append
      rw [Traced, hlast]
      cases hwrites : v.task.writes s with
      | false =>
          have hwrites' : v'.task.writes s = false := by
            rw [← Bool.not_eq_true]
            intro htrue
            rw [strips.fewer s htrue] at hwrites
            cases hwrites
          refine ⟨u, u', nearestWriter_skip hwrites hu, nearestWriter_skip hwrites' hu', ?_⟩
          rcases hcases with ⟨p, hp, hkeys⟩ | horigin | ⟨w, hw, hdead⟩
          · exact Or.inl ⟨p, List.mem_append_left _ hp, hkeys⟩
          · exact Or.inr (Or.inl horigin)
          · exact Or.inr (Or.inr ⟨w, List.mem_append_left _ hw, hdead⟩)
      | true =>
          cases hwrites' : v'.task.writes s with
          | true =>
              exact ⟨v.key, v'.key, nearestWriter_last hwrites, nearestWriter_last hwrites',
                Or.inl ⟨(v, v'), by simp, rfl, rfl⟩⟩
          | false =>
              exact ⟨v.key, u', nearestWriter_last hwrites, nearestWriter_skip hwrites' hu',
                Or.inr (Or.inr ⟨v, by simp, rfl, strips.dead s hwrites hwrites'⟩)⟩
  | @go l pairs v _ _ dead ih =>
      rcases ih with ⟨u, u', hu, hu', hcases⟩
      cases hwrites : v.task.writes s with
      | false =>
          refine ⟨u, u', nearestWriter_skip hwrites hu, hu', ?_⟩
          rcases hcases with hpair | horigin | ⟨w, hw, hdead⟩
          · exact Or.inl hpair
          · exact Or.inr (Or.inl horigin)
          · exact Or.inr (Or.inr ⟨w, List.mem_append_left _ hw, hdead⟩)
      | true =>
          exact ⟨v.key, u', nearestWriter_last hwrites, hu',
            Or.inr (Or.inr ⟨v, by simp, rfl, dead s hwrites⟩)⟩

theorem split (h : g.Thinned l pairs) {p : Vertex ρ × Vertex ρ} (hp : p ∈ pairs) :
    exists a b before after, l = a ++ p.1 :: b ∧ pairs = before ++ p :: after ∧
      g.Thinned a before ∧ g.Strips p.1 p.2.task := by
  induction h with
  | nil => cases hp
  | @stay l pairs v v' thinned _ strips ih =>
      rcases List.mem_append.mp hp with hp | hp
      · rcases ih hp with ⟨a, b, before, after, rfl, rfl, hrest⟩
        exact ⟨a, b ++ [v], before, after ++ [(v, v')], by simp, by simp, hrest⟩
      · rw [List.mem_singleton.mp hp]
        exact ⟨l, [], pairs, [], rfl, rfl, thinned, strips⟩
  | @go l pairs v _ _ _ ih =>
      rcases ih hp with ⟨a, b, before, after, rfl, hpairs, hrest⟩
      exact ⟨a, b ++ [v], before, after, by simp, hpairs, hrest⟩

end Thinned

/-!
## Reads and owners
-/

namespace Survives

variable {g g' : Graph ρ} {origin origin' : State -> NodeKey}
  {pairs : List (Vertex ρ × Vertex ρ)} (h : g.Survives g' origin origin' pairs)
  (hg : g.Built origin)

include h

theorem mem_pending {p : Vertex ρ × Vertex ρ} (hp : p ∈ pairs) : p.1 ∈ g.pending := by
  rcases h.thinned.split hp with ⟨a, b, _, _, hsplit, _⟩
  rw [hsplit]
  simp

include hg

theorem counterparts_origin {s : State} (hs : ¬Stripped pairs s) :
    g.Counterparts pairs (origin s) (origin' s) :=
  Or.inr ⟨hg.origin_executed s, h.kept s hs⟩

theorem read_source {p : Vertex ρ × Vertex ρ} (hp : p ∈ pairs) {s : State}
    (hreads : p.1.task.reads s = true) :
    exists u u', g.WriterOf p.1.key s u ∧ g'.WriterOf p.2.key s u' ∧
      (u ∈ g.pendingKeys ∨ ¬Stripped pairs s -> g.Counterparts pairs u u') ∧
      (u ∉ g.pendingKeys -> Stripped pairs s -> u' = g.initial.key) := by
  rcases h.thinned.split hp with ⟨a, b, before, after, hsplit, hpairs, hthinned, hstrips⟩
  rcases hthinned.traced origin origin' s with ⟨u, u', hu, hu', hcases⟩
  have hsplit' : g'.pending = before.map (·.2) ++ p.2 :: after.map (·.2) := by
    rw [← h.pending, hpairs, List.map_append, List.map_cons]
  have hreads' : p.2.task.reads s = true := by
    rw [hstrips.same]
    exact hreads
  refine ⟨u, u', hg.writerOf (entries_split hsplit) (Or.inl hreads) hu,
    h.built.writerOf (entries_split hsplit') (Or.inl hreads') hu', ?_⟩
  rcases hcases with ⟨q, hq, hkey, hkey'⟩ | ⟨rfl, rfl⟩ | ⟨v, hv, rfl, hdead⟩
  · have hq' : q ∈ pairs := by
      rw [hpairs]
      exact List.mem_append_left _ hq
    have hpending : u ∈ g.pendingKeys := hkey ▸ List.mem_map_of_mem (h.mem_pending hq')
    exact ⟨fun _ => Or.inl ⟨q, hq', hkey, hkey'⟩, fun hnot => absurd hpending hnot⟩
  · refine ⟨?_, fun _ hstripped => h.lost s hstripped⟩
    intro hor
    exact h.counterparts_origin hg (hor.resolve_left hg.origin_not_pending)
  · rw [hdead.not_reads hg hsplit hu] at hreads
    cases hreads

theorem owner (s : State) : g.Counterparts pairs (g.ownerOrInitial s) (g'.ownerOrInitial s) := by
  rcases h.thinned.traced origin origin' s with ⟨u, u', hu, hu', hcases⟩
  rw [h.pending] at hu'
  have howner : g.ownerOrInitial s = u := (hg.owner_nearest s).unique hu
  have howner' : g'.ownerOrInitial s = u' := (h.built.owner_nearest s).unique hu'
  rw [howner, howner']
  rcases hcases with hpair | ⟨rfl, rfl⟩ | ⟨v, hv, rfl, hdead⟩
  · exact Or.inl hpair
  · -- No pending node writes the state, so none was stripped of it.
    apply h.counterparts_origin hg
    intro hstripped
    rcases hstripped with ⟨p, hp, hwrote, _⟩
    have hne : g.ownerOrInitial s ≠ p.1.key := by
      intro heq
      have hpending : p.1.key ∈ g.pendingKeys := List.mem_map_of_mem (h.mem_pending hp)
      rw [← heq, howner] at hpending
      exact hg.origin_not_pending hpending
    have hpending := (hg.comesBefore_owner (h.mem_pending hp) hwrote hne).right_mem
    rw [howner] at hpending
    exact hg.origin_not_pending hpending
  · exact absurd howner (hdead.not_owner hg.sound hv)

end Survives

end Graph

/-!
## Sessions
-/

theorem Program.stripsOutputs (base : Bank ρ) : (Program.bank base).StripsOutputs := by
  intro record dead stripped h
  cases h
  rfl

namespace Session

/-- Dead store elimination goes through.  Every state keeps its owner, and every read that is left
keeps its writer, unless the writer was executed and another node was stripped of the state. -/
theorem deadStores_read_sources {bank : Bank ρ} (hbank : bank.StripsOutputs) {s : Session ρ}
    (h : Reachable bank (fun s a => s.Allowed a ∧ Action.Builds a) s) :
    exists s' pairs, s.perform bank (.runPass .deadStores) = .ok s' ∧
      s.graph.Thinned s.graph.pending pairs ∧ pairs.map (·.2) = s'.graph.pending ∧
      s'.graph.executed.map Vertex.core = s.graph.executed.map Vertex.core ∧
      (forall t, s.graph.Counterparts pairs (s.graph.ownerOrInitial t)
        (s'.graph.ownerOrInitial t)) ∧
      forall p t, p ∈ pairs -> p.1.task.reads t = true ->
        exists u u', s.graph.WriterOf p.1.key t u ∧ s'.graph.WriterOf p.2.key t u' ∧
          (u ∈ s.graph.pendingKeys ∨ ¬Graph.Stripped pairs t -> s.graph.Counterparts pairs u u') ∧
          (u ∉ s.graph.pendingKeys -> Graph.Stripped pairs t -> u' = s.graph.initial.key) := by
  have hdescribed : s.graph.Described bank := (h.mono fun _ _ may => may.left).described.left
  rcases h.built with ⟨origin, hbuilt⟩
  rcases Graph.eliminateDeadStores_survives hbuilt hbank hdescribed
    with ⟨g', changed, pairs, origin', hrun, hsurvives⟩
  refine ⟨{ s with graph := g' }, pairs, ?_, hsurvives.thinned, hsurvives.pending,
    hsurvives.executed, hsurvives.owner hbuilt, fun p t hp => hsurvives.read_source hbuilt hp⟩
  show (s.graph.eliminateDeadStores bank >>= fun r => .ok { s with graph := r.1 }) = _
  rw [hrun]
  rfl

end Session

namespace Sample

def spread : Program Task := .launch
  { name := "spread", taskType := .serial, outputs := .ofList [cell 0, cell 2] }

def superseding : List (Action (Program Task)) :=
  [.insertTasks false [fill], .extractToExecute, .insertTasks false [copy, spread, fill]]

def superseded : Session (Program Task) :=
  match superseding.foldlM (Session.perform bank) .new with
  | .ok s => s
  | .error _ => .new

theorem superseded_reachable :
    Session.Reachable bank (fun s a => s.Allowed a ∧ Session.Action.Builds a) superseded := by
  have hrun : superseding.foldlM (Session.perform bank) .new = .ok superseded := rfl
  refine Session.Reachable.run .start ?_ hrun
  intro a ha s
  simp only [superseding, List.mem_cons, List.not_mem_nil, or_false] at ha
  rcases ha with rfl | rfl | rfl
  · exact ⟨trivial, trivial⟩
  · exact ⟨trivial, trivial⟩
  · exact ⟨trivial, trivial⟩

def swept : Session (Program Task) :=
  match superseded.perform bank (.runPass .deadStores) with
  | .ok s => s
  | .error _ => .new

theorem superseded_swept : superseded.perform bank (.runPass .deadStores) = .ok swept := rfl

end Sample

namespace Session

theorem deadStores_read_sources_superseded :
    exists pairs, Sample.superseded.graph.Thinned Sample.superseded.graph.pending pairs ∧
      pairs.map (·.2) = Sample.swept.graph.pending ∧ pairs.length = 3 ∧
      Sample.superseded.graph.Counterparts pairs
        (Sample.superseded.graph.ownerOrInitial (Sample.cell 0))
        (Sample.swept.graph.ownerOrInitial (Sample.cell 0)) ∧
      forall p, p ∈ pairs -> p.1.task.reads (Sample.cell 0) = true ->
        exists u u', Sample.superseded.graph.WriterOf p.1.key (Sample.cell 0) u ∧
          Sample.swept.graph.WriterOf p.2.key (Sample.cell 0) u' := by
  rcases deadStores_read_sources (Program.stripsOutputs _) Sample.superseded_reachable
    with ⟨s', pairs, hrun, hthinned, hpending, _, howner, hread⟩
  cases Sample.superseded_swept.symm.trans hrun
  have hlength := congrArg List.length hpending
  rw [List.length_map] at hlength
  refine ⟨pairs, hthinned, hpending, hlength.trans rfl, howner _, fun p hp hreads => ?_⟩
  rcases hread p _ hp hreads with ⟨u, u', hu, hu', _⟩
  exact ⟨u, u', hu, hu'⟩

/-- A read of what an executed node wrote is attached to the initial node instead, though the
executed node is still there, if a dead store of the same field is stripped from another node. -/
theorem deadStores_detach_read :
    Sample.bank.StripsOutputs ∧
      Reachable Sample.bank (fun s a => s.Allowed a ∧ Action.Builds a) Sample.superseded ∧
      exists s' k k' u, Sample.superseded.perform Sample.bank (.runPass .deadStores) = .ok s' ∧
        k ∈ Sample.superseded.graph.pendingKeys ∧ k' ∈ s'.graph.pendingKeys ∧
        (s'.graph.vertexOf k').launchId = (Sample.superseded.graph.vertexOf k).launchId ∧
        (s'.graph.vertexOf k').task = (Sample.superseded.graph.vertexOf k).task ∧
        Sample.superseded.graph.ReadsAt k (Sample.cell 0) ∧
        Sample.superseded.graph.WriterOf k (Sample.cell 0) u ∧
        s'.graph.WriterOf k' (Sample.cell 0) s'.graph.initial.key ∧
        u ∈ s'.graph.history.map (·.key) ∧ u ≠ s'.graph.initial.key := by
  have hbefore : (Sample.superseded.graph.inputsOf ⟨2⟩).get (Sample.cell 0) = [⟨1⟩] := by
    decide +kernel
  have hafter : (Sample.swept.graph.inputsOf ⟨5⟩).get (Sample.cell 0)
      = [Sample.swept.graph.initial.key] := by
    decide +kernel
  have hreads : Sample.superseded.graph.ReadsAt ⟨2⟩ (Sample.cell 0) :=
    (Graph.vertexOf_reads (by decide +kernel)).mp (by decide +kernel)
  have hwrites : Sample.superseded.graph.WritesAt ⟨1⟩ (Sample.cell 0) :=
    (Graph.vertexOf_writes (by decide +kernel)).mp (by decide +kernel)
  have hinitial : Sample.swept.graph.WritesAt Sample.swept.graph.initial.key (Sample.cell 0) :=
    (Graph.vertexOf_writes (by decide +kernel)).mp (by decide +kernel)
  refine ⟨Program.stripsOutputs _, Sample.superseded_reachable, Sample.swept, ⟨2⟩, ⟨5⟩, ⟨1⟩,
    Sample.superseded_swept, ?_, ?_, ?_, ?_, hreads, .of_sources hbefore hwrites,
    .of_sources hafter hinitial, ?_, ?_⟩
  · decide +kernel
  · decide +kernel
  · decide +kernel
  · decide +kernel
  · decide +kernel
  · decide +kernel

end Session

end LaunchGraph
