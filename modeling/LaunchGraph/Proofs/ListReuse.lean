import LaunchGraph.Proofs.ListCurrency
import LaunchGraph.Proofs.Pass.Relisting

/-!
# Lists that are used again

When a list generation is removed as redundant, an earlier one of the same field stays that has
made the same list.  If list generations write nothing but lists, then every read that is left
has the writer that it had, or the one that stays in its place.

What else a redundant list generation writes is not compared.  A state that it owned stays with
a pending writer only if some node that is left writes it.
-/

namespace LaunchGraph

variable {ρ : Type}

namespace Graph

/-!
## Nodes that are left
-/

/-- The graph `g'` is `g` without some pending nodes.  The nodes that are left are paired with what
they have become, in their order.  In the place of any other node stays its heir, an earlier
node that is left and made the same list. -/
structure Condensed (g g' : Graph ρ) (pairs : List (Vertex ρ × Vertex ρ))
    (heir : NodeKey -> NodeKey) : Prop where
  left : (pairs.map (·.1)).Sublist g.pending
  pending : pairs.map (·.2) = g'.pending
  same : forall p, p ∈ pairs -> p.2.ticket = p.1.ticket
  executed : g'.executed.map Vertex.core = g.executed.map Vertex.core
  stays : forall k, (forall v, v ∈ g.pending -> v.key = k -> v ∈ pairs.map (·.1)) -> heir k = k
  goes : forall b, b ∈ g.pending -> b ∉ pairs.map (·.1) ->
    exists s a, a ∈ pairs.map (·.1) ∧ heir b.key = a.key ∧ g.Remakes (pairs.map (·.1)) s a b

structure Sifted (g g' : Graph ρ) (found : List Redundancy) (origin' : State -> NodeKey) :
    Prop where
  selected : g.Selected found
  tickets : g'.pending.map (·.ticket)
    = (g.pending.filter fun v => decide (v.key ∉ gone found)).map (·.ticket)
  executed : g'.executed.map Vertex.core = g.executed.map Vertex.core
  built : g'.Built origin'

theorem Sifted.refl {g : Graph ρ} {origin : State -> NodeKey} (hg : g.Built origin) :
    g.Sifted g [] origin := by
  have hselected : g.Selected [] := by
    constructor
    · intro r hr
      cases hr
    · intro r hr
      cases hr
  refine ⟨hselected, ?_, rfl, hg⟩
  have hall : (g.pending.filter fun v => decide (v.key ∉ gone [])) = g.pending := by
    rw [List.filter_eq_self]
    intro v _
    exact decide_eq_true fun hin => by cases hin
  rw [hall]

theorem optimizeListgen_sifted {g : Graph ρ} {origin : State -> NodeKey} (hg : g.Built origin) :
    exists g' changed found origin', g.optimizeListgen = .ok (g', changed) ∧
      g.Sifted g' found origin' ∧ (g.ListsOnly -> origin' = origin) := by
  rcases optimizeListgen_cases hg.consistent
    with ⟨g', changed, hrun, ⟨_, rfl⟩ | ⟨_, found, g1, doomed, g2, base, _, h⟩⟩
  · exact ⟨g', changed, [], origin, hrun, .refl hg, fun _ => rfl⟩
  · exact ⟨g', changed, found, _, hrun, ⟨h.selected, h.tickets, h.executed, h.built⟩,
      fun hlists => h.origin_eq hg hlists⟩

structure Sifted.Pairs (g g' : Graph ρ) (found : List Redundancy)
    (pairs : List (Vertex ρ × Vertex ρ)) : Prop where
  before : pairs.map (·.1) = g.pending.filter fun v => decide (v.key ∉ gone found)
  after : pairs.map (·.2) = g'.pending
  same : forall p, p ∈ pairs -> p.2.ticket = p.1.ticket

namespace Sifted

theorem exists_pairs {g g' : Graph ρ} {found : List Redundancy} {origin' : State -> NodeKey}
    (h : g.Sifted g' found origin') : exists pairs, Sifted.Pairs g g' found pairs := by
  rcases exists_pairs_of_map_eq h.tickets.symm with ⟨pairs, hbefore, hafter, hsame⟩
  exact ⟨pairs, hbefore, hafter, fun p hp => (hsame p hp).symm⟩

section Pairs

variable {g g' : Graph ρ} {found : List Redundancy} {pairs : List (Vertex ρ × Vertex ρ)}
  (hpairs : Sifted.Pairs g g' found pairs)

include hpairs

theorem task_eq {p : Vertex ρ × Vertex ρ} (hp : p ∈ pairs) : p.2.task = p.1.task :=
  congrArg (fun t : Option ρ × TaskHandle × Nat => t.2.1.task) (hpairs.same p hp)

theorem mem_left {v : Vertex ρ} : v ∈ pairs.map (·.1) ↔ v ∈ g.pending ∧ v.key ∉ gone found := by
  rw [hpairs.before, List.mem_filter, decide_eq_true_iff]

theorem mem_pending {p : Vertex ρ × Vertex ρ} (hp : p ∈ pairs) : p.1 ∈ g.pending :=
  ((mem_left hpairs).mp (List.mem_map_of_mem hp)).left

theorem mem_pending' {p : Vertex ρ × Vertex ρ} (hp : p ∈ pairs) : p.2 ∈ g'.pending := by
  rw [← hpairs.after]
  exact List.mem_map_of_mem hp

theorem condensed {origin origin' : State -> NodeKey} (h : g.Sifted g' found origin')
    (hg : g.Built origin) : g.Condensed g' pairs (heir found) := by
  refine ⟨?_, hpairs.after, hpairs.same, h.executed, ?_, ?_⟩
  · rw [hpairs.before]
    exact List.filter_sublist
  · intro k hk
    apply heir_of_not_gone
    intro hgone
    rcases exists_pending (h.selected.pending hgone) with ⟨v, hv, rfl⟩
    exact ((mem_left hpairs).mp (hk v hv rfl)).right hgone
  · intro b hb hnot
    have hgone : b.key ∈ gone found := by
      by_contra hstays
      exact hnot ((mem_left hpairs).mpr ⟨hb, hstays⟩)
    rcases h.selected.heir_standsFor hg.sound.keyed hb hgone with ⟨s, a, hheir, ha, hstands⟩
    refine ⟨s, a, (mem_left hpairs).mpr ⟨hstands.before.left_mem, ha⟩, hheir, ?_⟩
    rw [hpairs.before]
    exact hstands.remakes hg (fun _ => h.selected.pending) ha

theorem split {p : Vertex ρ × Vertex ρ} (hg : g.Keyed) (hp : p ∈ pairs) :
    exists l m before after, g.pending = l ++ p.1 :: m ∧ pairs = before ++ p :: after ∧
      before.map (·.1) = l.filter fun v => decide (v.key ∉ gone found) := by
  rcases List.append_of_mem (mem_pending hpairs hp) with ⟨l, m, hsplit⟩
  rcases List.append_of_mem hp with ⟨before, after, rfl⟩
  refine ⟨l, m, before, after, hsplit, rfl, ?_⟩
  have hstays := ((mem_left hpairs).mp (List.mem_map_of_mem hp)).right
  have hfilter : (before ++ p :: after).map (·.1)
      = (l.filter fun v => decide (v.key ∉ gone found)) ++
        p.1 :: m.filter fun v => decide (v.key ∉ gone found) := by
    rw [hpairs.before, hsplit, List.filter_append, List.filter_cons_of_pos (by simpa using hstays)]
  have hsub : ((before ++ p :: after).map (·.1)).Sublist g.pending := by
    rw [hpairs.before]
    exact List.filter_sublist
  exact prefix_eq_of_nodup (hg.nodup_pending.sublist (hsub.map _))
    (by rw [List.map_append, List.map_cons]) hfilter rfl

end Pairs

/-!
## Reads and owners
-/

section ListsOnly

variable {g g' : Graph ρ} {origin : State -> NodeKey} {found : List Redundancy}
  {pairs : List (Vertex ρ × Vertex ρ)} (h : g.Sifted g' found origin)
  (hpairs : Sifted.Pairs g g' found pairs) (hg : g.Built origin) (hlists : g.ListsOnly)

include h hpairs hg hlists

/-- After some nodes, and after what is left of them, a state comes from a node and from what its
heir has become. -/
theorem counterparts {l m : List (Vertex ρ)} (hsplit : g.pending = l ++ m)
    {before : List (Vertex ρ × Vertex ρ)} (hin : forall p, p ∈ before -> p ∈ pairs)
    (hbefore : before.map (·.1) = l.filter fun v => decide (v.key ∉ gone found)) {t : State}
    {u : NodeKey} (hu : NearestWriter origin t (l.map Vertex.entry) u) :
    exists u', NearestWriter origin t ((before.map (·.2)).map Vertex.entry) u' ∧
      g.Inherits (heir found) t u ∧ g.Counterparts pairs (heir found u) u' := by
  rcases h.selected.nearest_heir hg hlists hsplit hu with ⟨hheir, hinherits⟩
  rw [← hbefore] at hheir
  rcases hheir.pairs origin (fun p hp => task_eq hpairs (hin p hp))
    with ⟨u', hu', ⟨p, hp, hkey, hkey'⟩ | ⟨horigin, rfl⟩⟩
  · exact ⟨u', hu', hinherits, Or.inl ⟨p, hin p hp, hkey, hkey'⟩⟩
  · rw [horigin]
    exact ⟨origin t, hu', hinherits, Or.inr ⟨hg.origin_executed t, rfl⟩⟩

theorem read_source {p : Vertex ρ × Vertex ρ} (hp : p ∈ pairs) {t : State}
    (hreads : p.1.task.reads t = true) :
    exists u u', g.WriterOf p.1.key t u ∧ g'.WriterOf p.2.key t u' ∧
      g.Inherits (heir found) t u ∧ g.Counterparts pairs (heir found u) u' := by
  rcases split hpairs hg.sound.keyed hp with ⟨l, m, before, after, hsplit, hsides, hbefore⟩
  have hin : forall q, q ∈ before -> q ∈ pairs := by
    intro q hq
    rw [hsides]
    exact List.mem_append_left _ hq
  have hsplit' : g'.pending = before.map (·.2) ++ p.2 :: after.map (·.2) := by
    rw [← hpairs.after, hsides, List.map_append, List.map_cons]
  have hreads' : p.2.task.reads t = true := by
    rw [task_eq hpairs hp]
    exact hreads
  rcases exists_nearestWriter origin t (l.map Vertex.entry) with ⟨u, hu⟩
  rcases counterparts h hpairs hg hlists hsplit hin hbefore hu with ⟨u', hu', hcounterparts⟩
  exact ⟨u, u', hg.writerOf (entries_split hsplit) (Or.inl hreads) hu,
    h.built.writerOf (entries_split hsplit') (Or.inl hreads') hu', hcounterparts⟩

theorem owner (t : State) : g.Inherits (heir found) t (g.ownerOrInitial t) ∧
    g.Counterparts pairs (heir found (g.ownerOrInitial t)) (g'.ownerOrInitial t) := by
  rcases counterparts h hpairs hg hlists (List.append_nil _).symm (fun _ hp => hp) hpairs.before
    (hg.owner_nearest t) with ⟨u', hu', hcounterparts⟩
  rw [hpairs.after] at hu'
  rw [(h.built.owner_nearest t).unique hu']
  exact hcounterparts

end ListsOnly

section Owners

variable {g g' : Graph ρ} {origin origin' : State -> NodeKey} {found : List Redundancy}
  {pairs : List (Vertex ρ × Vertex ρ)} (h : g.Sifted g' found origin')
  (hpairs : Sifted.Pairs g g' found pairs) (hg : g.Built origin)

include h hpairs

theorem owner_pending_iff (t : State) : g'.ownerOrInitial t ∈ g'.pendingKeys ↔
    exists p, p ∈ pairs ∧ p.1.task.writes t = true := by
  constructor
  · intro hpending
    rcases exists_pending hpending with ⟨v, hv, hkey⟩
    have hwrites : g'.WritesAt v.key t := by
      rw [hkey]
      exact h.built.nearest_writesAt (fun _ he => he) (h.built.owner_nearest t)
    have hpair := hv
    rw [← hpairs.after] at hpair
    rcases List.mem_map.mp hpair with ⟨p, hp, rfl⟩
    refine ⟨p, hp, ?_⟩
    rw [← task_eq hpairs hp]
    exact (h.built.sound.pending_writesAt hv).mp hwrites
  · rintro ⟨p, hp, hwrites⟩
    have hv := mem_pending' hpairs hp
    have hwrites' : p.2.task.writes t = true := by
      rw [task_eq hpairs hp]
      exact hwrites
    by_cases heq : g'.ownerOrInitial t = p.2.key
    · rw [heq]
      exact List.mem_map_of_mem hv
    · exact (h.built.comesBefore_owner hv hwrites' heq).right_mem

include hg

theorem owner_pending {t : State} (ht : g.ownerOrInitial t ∈ g.pendingKeys)
    (hwrites : g.WritesAt (heir found (g.ownerOrInitial t)) t) :
    g'.ownerOrInitial t ∈ g'.pendingKeys ∧ g'.WritesAt (g'.ownerOrInitial t) t := by
  have hstays := h.selected.heir_not_gone (g.ownerOrInitial t)
  rcases exists_pending (h.selected.heir_pending.mpr ht) with ⟨v, hv, hkey⟩
  rw [← hkey] at hwrites hstays
  rcases List.mem_map.mp ((mem_left hpairs).mpr ⟨hv, hstays⟩) with ⟨p, hp, rfl⟩
  exact ⟨(owner_pending_iff h hpairs t).mpr ⟨p, hp, (hg.sound.pending_writesAt hv).mp hwrites⟩,
    h.built.nearest_writesAt (fun _ he => he) (h.built.owner_nearest t)⟩

end Owners

end Sifted

end Graph

/-!
## Sessions
-/

namespace Session

/-- The removal of list generations goes through.  If list generations write nothing but lists,
every read that is left and every latest owner is that of before, or the heir of it on the list
that the heir made. -/
theorem listgen_reuses_lists {bank : Bank ρ} {s : Session ρ}
    (h : Reachable bank (fun s a => s.Allowed a ∧ Action.Builds a) s)
    (hlists : s.graph.ListsOnly) :
    exists s' pairs heir, s.perform bank (.runPass .listgen) = .ok s' ∧
      s.graph.Condensed s'.graph pairs heir ∧
      (forall p t, p ∈ pairs -> p.1.task.reads t = true ->
        exists u u', s.graph.WriterOf p.1.key t u ∧ s'.graph.WriterOf p.2.key t u' ∧
          s.graph.Inherits heir t u ∧ s.graph.Counterparts pairs (heir u) u') ∧
      forall t, s.graph.Inherits heir t (s.graph.ownerOrInitial t) ∧
        s.graph.Counterparts pairs (heir (s.graph.ownerOrInitial t))
          (s'.graph.ownerOrInitial t) := by
  rcases h.built with ⟨origin, hbuilt⟩
  rcases Graph.optimizeListgen_sifted hbuilt with ⟨g', changed, found, origin', hrun, hsifted, heq⟩
  cases heq hlists
  rcases hsifted.exists_pairs with ⟨pairs, hpairs⟩
  exact ⟨{ s with graph := g' }, pairs, Graph.heir found, perform_runPass_eq hrun,
    hsifted.condensed hpairs hbuilt, fun p t hp => hsifted.read_source hpairs hbuilt hlists hp,
    hsifted.owner hpairs hbuilt hlists⟩

end Session

namespace Sample

def useBelow : Program Task := .launch
  { name := "use_below", taskType := .structFor, snode := some ⟨1⟩, inputs := .ofList [list 1],
    outputs := .ofList [cell 1] }

def regenerating : List (Action (Program Task)) :=
  [.insertTasks false [.launch listBelow, useBelow, .launch listBelow, .launch listBelow, useBelow]]

def regenerated : Session (Program Task) :=
  match regenerating.foldlM (Session.perform bank) .new with
  | .ok s => s
  | .error _ => .new

theorem regenerated_reachable :
    Session.Reachable bank (fun s a => s.Allowed a ∧ Session.Action.Builds a) regenerated := by
  have hrun : regenerating.foldlM (Session.perform bank) .new = .ok regenerated := rfl
  refine Session.Reachable.run .start ?_ hrun
  intro a ha s
  rw [regenerating, List.mem_singleton] at ha
  subst ha
  exact ⟨trivial, trivial⟩

def relistedOnce : Session (Program Task) :=
  match regenerated.perform bank (.runPass .listgen) with
  | .ok s => s
  | .error _ => .new

theorem regenerated_relisted : regenerated.perform bank (.runPass .listgen) = .ok relistedOnce :=
  rfl

theorem regenerated_listsOnly : regenerated.graph.ListsOnly := by
  intro v s hv hs
  have hall : forall w, w ∈ regenerated.graph.pending -> Graph.listTarget? w = none ∨
      (Graph.listTarget? w = some ⟨1⟩ ∧ w.task.outputs = .ofList [list 1]) := by
    decide +kernel
  rcases hall v hv with hnone | ⟨hsome, houtputs⟩
  · rw [hnone] at hs
    cases hs
  · rw [hsome] at hs
    cases hs
    intro t
    rw [Task.writes, houtputs, decide_eq_true_iff, OrderedSet.mem_ofList, List.mem_singleton]
    exact Iff.rfl

end Sample

namespace Session

theorem listgen_reuses_lists_regenerated :
    exists pairs heir, Sample.regenerated.graph.ListsOnly ∧
      Sample.regenerated.graph.Condensed Sample.relistedOnce.graph pairs heir ∧
      pairs.length = 3 ∧ Sample.regenerated.graph.pending.length = 5 ∧
      Sample.regenerated.graph.Counterparts pairs
        (heir (Sample.regenerated.graph.ownerOrInitial (Sample.list 1)))
        (Sample.relistedOnce.graph.ownerOrInitial (Sample.list 1)) := by
  rcases listgen_reuses_lists Sample.regenerated_reachable Sample.regenerated_listsOnly
    with ⟨s', pairs, heir, hrun, hcondensed, _, howner⟩
  cases Sample.regenerated_relisted.symm.trans hrun
  have hlength := congrArg List.length hcondensed.pending
  rw [List.length_map] at hlength
  exact ⟨pairs, heir, Sample.regenerated_listsOnly, hcondensed, hlength.trans rfl, rfl,
    (howner _).right⟩

/-- The removal of list generations goes through.  A state has a pending owner after it exactly if
a node that is left writes the state, as the heir of a pending owner may or may not. -/
theorem listgen_keeps_writers {bank : Bank ρ} {s : Session ρ}
    (h : Reachable bank (fun s a => s.Allowed a ∧ Action.Builds a) s) :
    exists s' pairs heir, s.perform bank (.runPass .listgen) = .ok s' ∧
      s.graph.Condensed s'.graph pairs heir ∧
      (forall t, s'.graph.ownerOrInitial t ∈ s'.graph.pendingKeys ↔
        exists p, p ∈ pairs ∧ p.1.task.writes t = true) ∧
      forall t, s.graph.ownerOrInitial t ∈ s.graph.pendingKeys ->
        s.graph.WritesAt (heir (s.graph.ownerOrInitial t)) t ->
        s'.graph.ownerOrInitial t ∈ s'.graph.pendingKeys ∧
          s'.graph.WritesAt (s'.graph.ownerOrInitial t) t := by
  rcases h.built with ⟨origin, hbuilt⟩
  rcases Graph.optimizeListgen_sifted hbuilt with ⟨g', changed, found, origin', hrun, hsifted, _⟩
  rcases hsifted.exists_pairs with ⟨pairs, hpairs⟩
  exact ⟨{ s with graph := g' }, pairs, Graph.heir found, perform_runPass_eq hrun,
    hsifted.condensed hpairs hbuilt, hsifted.owner_pending_iff hpairs,
    fun t => hsifted.owner_pending hpairs hbuilt⟩

theorem listgen_keeps_writers_regenerated :
    exists pairs heir,
      Sample.regenerated.graph.Condensed Sample.relistedOnce.graph pairs heir ∧
      (exists p, p ∈ pairs ∧ p.1.task.writes (Sample.list 1) = true) ∧
      ¬exists p, p ∈ pairs ∧ p.1.task.writes (Sample.list 2) = true := by
  rcases listgen_keeps_writers Sample.regenerated_reachable
    with ⟨s', pairs, heir, hrun, hcondensed, howned, _⟩
  cases Sample.regenerated_relisted.symm.trans hrun
  refine ⟨pairs, heir, hcondensed, (howned _).mp ?_, (howned _).not.mp ?_⟩
  · decide +kernel
  · decide +kernel

end Session

namespace Sample

def listBoth : Program Task := .launch
  { listBelow with name := "list_both", outputs := .ofList [list 1, list 2] }

def overlapping : Session (Program Task) :=
  match Session.new.perform bank (.insertTasks false [.launch listBelow, listBoth]) with
  | .ok s => s
  | .error _ => .new

theorem overlapping_reachable :
    Session.Reachable bank (fun s a => s.Allowed a ∧ Session.Action.Builds a) overlapping := by
  have hrun : Session.new.perform bank (.insertTasks false [.launch listBelow, listBoth])
      = .ok overlapping := rfl
  refine Session.Reachable.step .start ?_ hrun
  exact ⟨trivial, trivial⟩

def overlapped : Session (Program Task) :=
  match overlapping.perform bank (.runPass .listgen) with
  | .ok s => s
  | .error _ => .new

theorem overlapping_relisted : overlapping.perform bank (.runPass .listgen) = .ok overlapped := rfl

end Sample

namespace Session

/-- A list generation that writes the list of another field as well is removed in favour of one
that does not, and nothing pending writes that list any more. -/
theorem listgen_loses_write :
    Reachable Sample.bank (fun s a => s.Allowed a ∧ Action.Builds a) Sample.overlapping ∧
      exists s', Sample.overlapping.perform Sample.bank (.runPass .listgen) = .ok s' ∧
        Sample.overlapping.graph.pending.map (·.record)
          = [some (.launch Sample.listBelow), some Sample.listBoth] ∧
        s'.graph.pending.map (·.record) = [some (.launch Sample.listBelow)] ∧
        Sample.overlapping.graph.ownerOrInitial (Sample.list 2) ∈
          Sample.overlapping.graph.pendingKeys ∧
        s'.graph.ownerOrInitial (Sample.list 2) = s'.graph.initial.key ∧
        s'.graph.initial.key ∉ s'.graph.pendingKeys := by
  refine ⟨Sample.overlapping_reachable, Sample.overlapped, Sample.overlapping_relisted, rfl, rfl,
    ?_, ?_, ?_⟩
  · decide +kernel
  · decide +kernel
  · decide +kernel

end Session

end LaunchGraph
