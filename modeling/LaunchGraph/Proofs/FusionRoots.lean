import LaunchGraph.Proofs.FusionLegality
import LaunchGraph.Proofs.Graph.Roots

/-!
# Fusion and where states come from

A fused node reads and writes what the members of its group do, as long as the bank unites
their states.  So each state that the group takes from outside is taken from the writer
before the first member that touches it, which is outside of the group and is left.  Fusion
therefore changes nothing about the executed nodes that states come from.
-/

namespace LaunchGraph

variable {ρ : Type}

/-- A fused record reads and writes exactly what either part does. -/
structure Bank.UnitesStates (bank : Bank ρ) : Prop where
  inputs : forall a b c, bank.fuse a b = some c -> forall s, s ∈ (bank.describe c).task.inputs ↔
    s ∈ (bank.describe a).task.inputs ∨ s ∈ (bank.describe b).task.inputs
  outputs : forall a b c, bank.fuse a b = some c -> forall s, s ∈ (bank.describe c).task.outputs ↔
    s ∈ (bank.describe a).task.outputs ∨ s ∈ (bank.describe b).task.outputs

structure Task.Unites (tasks : List Task) (t : Task) : Prop where
  reads : forall s, t.reads s = true ↔ exists u, u ∈ tasks ∧ u.reads s = true
  writes : forall s, t.writes s = true ↔ exists u, u ∈ tasks ∧ u.writes s = true

theorem Task.Unites.single (t : Task) : Task.Unites [t] t := by
  constructor
  · intro s
    simp
  · intro s
    simp

theorem Task.Unites.append {bank : Bank ρ} (hbank : bank.UnitesStates) {tasks : List Task}
    {a b c : ρ} (made : bank.fuse a b = some c)
    (h : Task.Unites tasks (bank.describe a).task) :
    Task.Unites (tasks ++ [(bank.describe b).task]) (bank.describe c).task := by
  have hmore : forall P : Task -> Prop,
      (exists u, u ∈ tasks ++ [(bank.describe b).task] ∧ P u) ↔
        (exists u, u ∈ tasks ∧ P u) ∨ P (bank.describe b).task := by
    intro P
    simp [or_and_right, exists_or]
  constructor
  · intro s
    rw [hmore, ← h.reads, Task.reads, Task.reads, Task.reads]
    simp only [decide_eq_true_eq]
    exact hbank.inputs a b c made s
  · intro s
    rw [hmore, ← h.writes, Task.writes, Task.writes, Task.writes]
    simp only [decide_eq_true_eq]
    exact hbank.outputs a b c made s

theorem FusedFrom.unites {bank : Bank ρ} {parts : List (Option ρ × Task)} {p : Option ρ × Task}
    (h : FusedFrom bank parts p) (hdescribed : forall q, q ∈ parts -> Describes bank q)
    (hbank : bank.UnitesStates) : Task.Unites (parts.map (·.2)) p.2 := by
  apply h.accumulates hdescribed
  · exact Task.Unites.single
  · intro tasks a b c made hbefore
    exact hbefore.append hbank made

namespace Graph

/-!
## The nodes that are left
-/

section Left

variable {bank : Bank ρ} {g0 g g' : Graph ρ} {names : NodeKey -> NodeKey}
  {fused : List (Vertex ρ)} {doomed : List NodeKey} {origin : State -> NodeKey}
  (h : Fusing bank g0 names fused g) (hdeleted : g.Deleted doomed g')
  (hdoomed : forall k, k ∈ doomed ↔ k ∈ g0.pendingKeys ∧ names k ≠ k)

include h hdeleted hdoomed

theorem Fusing.eq_of_name_executed {k : NodeKey} (hk : names k ∉ g'.pendingKeys) :
    names k = k ∧ k ∉ g0.pendingKeys := by
  have hnot : k ∉ g0.pendingKeys := fun hin => hk (h.name_left hdoomed hdeleted hin)
  constructor
  · by_contra hne
    exact hnot (h.named k hne).left
  · exact hnot

theorem Fusing.owners_left (s : State) :
    g'.owners.get? s = (g0.owners.get? s).map names := by
  have howners := h.owners_get s
  cases ho : g0.owners.get? s with
  | none =>
      rw [ho] at howners
      exact hdeleted.owners.none s howners
  | some k =>
      rw [ho] at howners
      exact hdeleted.owners.kept s (names k) howners (h.name_not_mem hdoomed k)

theorem Fusing.rooted (henters : forall u v s, g'.Enters u v s ↔ g.Enters u v s)
    (hg : g0.Keyed) (hr : g0.Rooted origin) : g'.Rooted origin := by
  constructor
  · intro u v s huv hu
    rcases (h.enters_iff u v s).mp ((henters u v s).mp huv) with ⟨_, x, y, he, rfl, _⟩
    rcases h.eq_of_name_executed hdeleted hdoomed hu with ⟨hname, hx⟩
    rw [hname]
    exact hr.source x y s he hx
  · intro s hs
    have howners := h.owners_left hdeleted hdoomed s
    cases ho : g0.owners.get? s with
    | none =>
        rw [ho] at howners
        have howner : g'.ownerOrInitial s = g0.ownerOrInitial s := by
          rw [ownerOrInitial, howners, hdeleted.initial_key,
            initial_key_of_bareExecuted h.executed, ownerOrInitial, ho]
          rfl
        rw [howner]
        apply hr.owner
        rw [ownerOrInitial, ho]
        exact hg.initial_not_pending
    | some k =>
        rw [ho] at howners
        have howner : g'.ownerOrInitial s = names k := by
          rw [ownerOrInitial, howners]
          rfl
        rw [howner] at hs ⊢
        rcases h.eq_of_name_executed hdeleted hdoomed hs with ⟨hname, hk⟩
        have hsame : g0.ownerOrInitial s = k := by
          rw [ownerOrInitial, ho]
          rfl
        rw [← hsame] at hk
        rw [hname, ← hr.owner s hk, hsame]

/-!
## What fused nodes touch
-/

variable (hbank : bank.UnitesStates) (hg : g0.Consistent) (hdescribed : g0.Described bank)

include hbank hg hdescribed

theorem Fusing.unites {v : Vertex ρ} (hv : v ∈ g'.pending) :
    Task.Unites ((namedNodes g0 names v.key).map (·.task)) v.task := by
  have hparts : forall q, q ∈ (namedNodes g0 names v.key).map (·.launch) -> Describes bank q := by
    intro q hq
    rcases List.mem_map.mp hq with ⟨u, hu, rfl⟩
    exact hdescribed u (List.mem_filter.mp hu).left
  have hunites := (h.fusedFrom hg.sound.keyed hdeleted hdoomed hv).unites hparts hbank
  rw [List.map_map] at hunites
  exact hunites

theorem Fusing.writesAt_name {k : NodeKey} {s : State} (hk : g0.WritesAt k s) :
    g'.WritesAt (names k) s := by
  by_cases hpending : k ∈ g0.pendingKeys
  · rcases exists_pending hpending with ⟨u, hu, rfl⟩
    rcases exists_pending (h.name_left hdoomed hdeleted hpending) with ⟨v, hv, hkey⟩
    rw [hg.sound.pending_writesAt hu] at hk
    have hnamed : u ∈ namedNodes g0 names v.key :=
      List.mem_filter.mpr ⟨hu, decide_eq_true hkey.symm⟩
    rw [← hkey, hdeleted.sound.pending_writesAt hv]
    have hunites := h.unites hdeleted hdoomed hbank hg hdescribed hv
    exact (hunites.writes s).mpr ⟨u.task, List.mem_map_of_mem hnamed, hk⟩
  · have hname : names k = k := by
      by_contra hne
      exact hpending (h.named k hne).left
    have hnot : k ∉ doomed := fun hin => hpending ((hdoomed k).mp hin).left
    rcases hk with ⟨v, hv, hwrites⟩
    have hkey := key_of_find? hv
    have hexecuted : v ∈ g0.executed := by
      cases List.mem_append.mp (mem_of_find? hv) with
      | inl hx => exact hx
      | inr hp => exact absurd (hkey ▸ List.mem_map_of_mem hp) hpending
    have hbare : v.bare ∈ g.executed.map Vertex.bare := by
      rw [h.executed]
      exact List.mem_map_of_mem hexecuted
    rcases List.mem_map.mp hbare with ⟨w, hw, heq⟩
    have hwkey : w.key = k := (Vertex.key_eq_of_bare_eq heq).trans hkey
    have hwwrites : w.writes s = true := by
      rw [← w.writes_bare, heq, v.writes_bare]
      exact hwrites
    rw [hname, ← hwkey]
    rw [← hwkey] at hnot
    exact hdeleted.writesAt hnot
      ((writesAt_iff h.sound.keyed (mem_vertices_of_executed hw)).mpr hwwrites)

theorem Fusing.exists_member {v : Vertex ρ} (hv : v ∈ g'.pending) {s : State}
    (htouch : v.task.reads s = true ∨ v.task.writes s = true) :
    exists u, u ∈ g0.pending ∧ names u.key = v.key ∧
      (u.task.reads s = true ∨ u.task.writes s = true) := by
  have hunites := h.unites hdeleted hdoomed hbank hg hdescribed hv
  have hmember : forall t, t ∈ (namedNodes g0 names v.key).map (·.task) ->
      exists u, u ∈ g0.pending ∧ names u.key = v.key ∧ u.task = t := by
    intro t ht
    rcases List.mem_map.mp ht with ⟨u, hu, heq⟩
    rcases List.mem_filter.mp hu with ⟨hpending, hname⟩
    exact ⟨u, hpending, decide_eq_true_iff.mp hname, heq⟩
  cases htouch with
  | inl hreads =>
      rcases (hunites.reads s).mp hreads with ⟨t, ht, hts⟩
      rcases hmember t ht with ⟨u, hu, hname, rfl⟩
      exact ⟨u, hu, hname, Or.inl hts⟩
  | inr hwrites =>
      rcases (hunites.writes s).mp hwrites with ⟨t, ht, hts⟩
      rcases hmember t ht with ⟨u, hu, hname, rfl⟩
      exact ⟨u, hu, hname, Or.inr hts⟩

omit hbank hdescribed in
/-- The first member of a group that touches a state takes it from a writer outside of the
group. -/
theorem Fusing.source_outside {v : NodeKey} {s : State}
    (hmember : exists u, u ∈ g0.pending ∧ names u.key = v ∧
      (u.task.reads s = true ∨ u.task.writes s = true)) :
    exists x u, g0.Enters x u s ∧ names u = v ∧ g0.WritesAt x s ∧ names x ≠ v := by
  let member : Vertex ρ -> Bool := fun u =>
    decide (names u.key = v ∧ (u.task.reads s = true ∨ u.task.writes s = true))
  cases hfind : g0.pending.find? member with
  | none =>
      rcases hmember with ⟨u, hu, hname, htouch⟩
      exact absurd (decide_eq_true ⟨hname, htouch⟩) (List.find?_eq_none.mp hfind u hu)
  | some u =>
      rcases List.find?_eq_some_iff_append.mp hfind with ⟨hu, before, after, hsplit, hfirst⟩
      rcases decide_eq_true_iff.mp hu with ⟨hname, htouch⟩
      have hpending : u ∈ g0.pending := List.mem_of_find?_eq_some hfind
      have htouches : g0.ReadsAt u.key s ∨ g0.WritesAt u.key s := by
        rw [hg.sound.pending_writesAt hpending,
          readsAt_iff hg.sound.keyed (mem_vertices_of_pending hpending)]
        exact htouch
      rcases hg.sourced u.key s (List.mem_map_of_mem hpending) htouches with ⟨x, hx, hwrites⟩
      refine ⟨x, u.key, hx, hname, hwrites, ?_⟩
      intro heq
      have hleft : names u.key ∈ g'.pendingKeys :=
        h.name_left hdoomed hdeleted (List.mem_map_of_mem hpending)
      by_cases hxp : x ∈ g0.pendingKeys
      · -- A member that writes the state before `u` would have been found instead of `u`.
        rcases exists_pending hxp with ⟨w, hw, rfl⟩
        have hbefore := comesBefore_pending hg.sound hg.forward hw hpending hx
        have hnodup : g0.pending.Nodup := hg.sound.keyed.nodup_pending.of_map _
        rw [hsplit] at hbefore hnodup
        have hfalse := hfirst w (hbefore.mem_of_split hnodup)
        rw [hg.sound.pending_writesAt hw] at hwrites
        have htrue : member w = true := decide_eq_true ⟨heq, Or.inr hwrites⟩
        rw [htrue] at hfalse
        cases hfalse
      · -- An executed node keeps its name, and no fused node has it.
        have hself : names x = x := by
          by_contra hne
          exact hxp (h.named x hne).left
        rw [hname, ← heq] at hleft
        have hpendingx := (hdeleted.mem_pendingKeys.mp hleft).left
        rw [hself] at hpendingx
        cases h.mem_pendingKeys.mp hpendingx with
        | inl hin => exact hxp hin
        | inr hin =>
            rcases List.mem_map.mp hin with ⟨w, hw, hwx⟩
            exact h.fresh w hw (hwx ▸ hwrites.mem)

theorem Fusing.supplied (henters : forall u v s, g'.Enters u v s ↔ g.Enters u v s) :
    g'.Supplied := by
  constructor
  · intro s k hk
    rw [h.owners_left hdeleted hdoomed] at hk
    rcases Option.map_eq_some_iff.mp hk with ⟨j, hj, rfl⟩
    exact h.writesAt_name hdeleted hdoomed hbank hg hdescribed (hg.owner_writes s j hj)
  · intro k s hk htouch
    rcases exists_pending hk with ⟨v, hv, rfl⟩
    rw [hdeleted.sound.pending_writesAt hv,
      readsAt_iff hdeleted.sound.keyed (mem_vertices_of_pending hv)] at htouch
    have hmember := h.exists_member hdeleted hdoomed hbank hg hdescribed hv htouch
    rcases h.source_outside hdeleted hdoomed hg hmember
      with ⟨x, u, he, hname, hwrites, hne⟩
    refine ⟨names x, ?_, h.writesAt_name hdeleted hdoomed hbank hg hdescribed hwrites⟩
    rw [henters, h.enters_iff]
    exact ⟨hne, x, u, he, rfl, hname⟩

end Left

/-!
## The whole pass
-/

theorem Since.fused {g0 g : Graph ρ} {bank : Bank ρ} (h : g0.Since g)
    (hbank : bank.UnitesStates) (hdescribed : g.Described bank) :
    exists g' changed, g.fuse bank = .ok (g', changed) ∧ g0.Since g' := by
  have hg := h.consistent
  rcases fuse_staged bank hg.sound hg.forward
    with ⟨g', changed, hrun, ⟨_, rfl⟩ | ⟨_, names, fused, doomed, order, g1, g2, g3, base, hstaged⟩⟩
  · exact ⟨_, changed, hrun, h⟩
  · refine ⟨g', changed, hrun, ?_⟩
    have hfusing := hstaged.fusing
    have hsound2 := hstaged.deleted.sound
    have hrooted2 := hfusing.rooted hstaged.deleted hstaged.mem_doomed hstaged.enters_iff
      hg.sound.keyed h.rooted
    have hsupplied2 := hfusing.supplied hstaged.deleted hstaged.mem_doomed hbank hg hdescribed
      hstaged.enters_iff
    have horigin := hstaged.extracted.origin (hstaged.sorted.sound hsound2)
      (hstaged.sorted.supplied hsound2.keyed hsupplied2)
      (hstaged.sorted.rooted hsound2.keyed hrooted2)
    have hbuilt := hstaged.built
    rw [horigin] at hbuilt
    apply h.built hbuilt
    have hcore3 : g3.executed.map Vertex.core = g.executed.map Vertex.core := by
      rw [hstaged.sorted.executed, hstaged.deleted.executed]
      exact map_core_congr hfusing.executed
    exact (map_core_congr hstaged.bareExecuted).trans hcore3

end Graph
end LaunchGraph
