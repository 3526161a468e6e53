import LaunchGraph.Proofs.FusionLegality
import LaunchGraph.Proofs.Session
import Mathlib.Algebra.Order.BigOperators.Group.List
import Mathlib.Algebra.Order.Ring.Nat

/-!
# Passes lighten the graph

A pending node weighs one, and one more for every state that it writes.  A pass that says that
it changed nothing has left the graph as it was.  A pass that changed something has deleted a
node, put one node in the place of several, or taken an output from a node, so that all
pending nodes together weigh less than before.
-/

namespace LaunchGraph

/-!
## Sizes of sets
-/

namespace OrderedSet

variable {α : Type} [Ranked α] {s t u : OrderedSet α}

theorem size_le_add (h : forall a, a ∈ s -> a ∈ t ∨ a ∈ u) : s.size ≤ t.size + u.size := by
  have hsub : s.toList ⊆ t.toList ++ u.toList := fun a ha => List.mem_append.mpr (h a ha)
  have hlength := (List.subperm_of_subset s.nodup hsub).length_le
  rw [List.length_append] at hlength
  exact hlength

theorem size_lt_of_subset {a : α} (h : forall b, b ∈ s -> b ∈ t) (ha : a ∈ t) (hnot : a ∉ s) :
    s.size < t.size := by
  have hsub : (s.insert a).toList ⊆ t.toList := by
    intro b hb
    rcases mem_insert.mp hb with rfl | hb
    · exact ha
    · exact h b hb
  have hlength : (s.insert a).size ≤ t.size :=
    (List.subperm_of_subset (s.insert a).nodup hsub).length_le
  rw [size_insert_of_not_mem hnot] at hlength
  exact hlength

theorem size_lt_of_ne (h : forall a, a ∈ s -> a ∈ t) (hne : s ≠ t) : s.size < t.size := by
  by_cases hall : forall a, a ∈ t -> a ∈ s
  · exact absurd (eq_of_mem_iff fun a => ⟨h a, hall a⟩) hne
  · push Not at hall
    rcases hall with ⟨a, ha, hnot⟩
    exact size_lt_of_subset h ha hnot

end OrderedSet

/-!
## Sums over lists
-/

theorem sum_filter_lt {α : Type} {l : List α} {stays : α -> Bool} {now before : α -> Nat}
    (hle : forall a, a ∈ l -> stays a = true -> now a ≤ before a)
    (hpos : forall a, a ∈ l -> 0 < before a)
    (hlt : exists a, a ∈ l ∧ (stays a = true -> now a < before a)) :
    ((l.filter stays).map now).sum < (l.map before).sum := by
  have hsplit := List.sum_map_ite (fun a => stays a = true) now (fun _ => 0) l
  simp only [Bool.decide_eq_true, List.map_const', List.sum_replicate_nat, Nat.mul_zero,
    Nat.add_zero] at hsplit
  rw [← hsplit]
  refine List.sum_lt_sum _ _ ?_ ?_
  · intro a ha
    split
    · next hstays => exact hle a ha hstays
    · exact Nat.zero_le _
  · rcases hlt with ⟨a, ha, hless⟩
    refine ⟨a, ha, ?_⟩
    split
    · next hstays => exact hless hstays
    · exact hpos a ha

theorem length_lt_length_flatten {α : Type} {parts : List (List α)}
    (hne : forall part, part ∈ parts -> part ≠ [])
    (hseveral : exists part, part ∈ parts ∧ 1 < part.length) :
    parts.length < parts.flatten.length := by
  have hones : (parts.map fun _ => 1).sum < (parts.map List.length).sum :=
    List.sum_lt_sum _ _ (fun part hpart => List.length_pos_iff.mpr (hne part hpart)) hseveral
  rw [List.map_const', List.sum_replicate_nat, Nat.mul_one] at hones
  rw [List.length_flatten]
  exact hones

/-!
## Banks and loads
-/

structure Bank.Shrinks {ρ : Type} (bank : Bank ρ) : Prop where
  eliminated : forall record dead stripped, bank.eliminateStores record dead = some stripped ->
    forall s, s ∈ (bank.describe stripped).task.outputs -> s ∈ (bank.describe record).task.outputs
  demoted : forall record model demoted, bank.demote record model = some demoted ->
    forall s, s ∈ (bank.describe demoted).task.outputs -> s ∈ (bank.describe record).task.outputs
  fused : forall a b c, bank.fuse a b = some c -> forall s, s ∈ (bank.describe c).task.outputs ->
    s ∈ (bank.describe a).task.outputs ∨ s ∈ (bank.describe b).task.outputs

def Task.weight (t : Task) : Nat := 1 + t.outputs.size

theorem Task.weight_pos (t : Task) : 0 < t.weight := by
  rw [weight]
  omega

theorem Task.weight_lt {t u : Task} (h : t.outputs.size < u.outputs.size) :
    t.weight < u.weight := by
  rw [weight, weight]
  omega

theorem Demotes.weight_lt {ρ : Type} {bank : Bank ρ} (hbank : bank.Shrinks)
    {p q : Option ρ × Task} (h : Demotes bank p q) (hp : Describes bank p) :
    q.2.weight < p.2.weight := by
  rcases h with ⟨record, model, demoted, mask, hrecord, hdemote, rfl, hwrote, hnow⟩
  refine Task.weight_lt (OrderedSet.size_lt_of_subset ?_ (of_decide_eq_true hwrote)
    (of_decide_eq_false hnow))
  rw [hp record hrecord]
  exact hbank.demoted record model demoted hdemote

theorem FusedFrom.outputs_size_le {ρ : Type} {bank : Bank ρ} (hbank : bank.Shrinks)
    {parts : List (Option ρ × Task)} {p : Option ρ × Task} (h : FusedFrom bank parts p)
    (hdescribed : forall q, q ∈ parts -> Describes bank q) :
    p.2.outputs.size ≤ (parts.map fun q => q.2.outputs.size).sum := by
  have hsum : p.2.outputs.size ≤ ((parts.map (·.2)).map fun t => t.outputs.size).sum := by
    refine h.accumulates (P := fun tasks t => t.outputs.size ≤ (tasks.map (·.outputs.size)).sum)
      hdescribed ?_ ?_
    · intro task
      simp
    · intro tasks a b c made hle
      have hunion := OrderedSet.size_le_add (hbank.fused a b c made)
      rw [List.map_append, List.sum_append, List.map_singleton, List.sum_singleton]
      omega
  rw [List.map_map] at hsum
  exact hsum

namespace Graph

variable {ρ : Type}

/-- The number of pending nodes, and of the states that each of them writes. -/
def load (g : Graph ρ) : Nat :=
  g.pendingCount + (g.pending.map fun v => v.task.outputs.size).sum

theorem load_eq_sum (g : Graph ρ) : g.load = (g.pending.map fun v => v.task.weight).sum := by
  simp only [Task.weight]
  rw [List.sum_map_add, List.map_const', List.sum_replicate_nat, Nat.mul_one]
  rfl

theorem load_eq_of_launches {g : Graph ρ} {l : List (Vertex ρ)} {f : Vertex ρ -> Option ρ × Task}
    (h : g.pending.map (·.launch) = l.map f) : g.load = (l.map fun v => (f v).2.weight).sum := by
  have hweights := congrArg (List.map fun p : Option ρ × Task => p.2.weight) h
  rw [List.map_map, List.map_map] at hweights
  rw [load_eq_sum]
  exact congrArg List.sum hweights

/-- What a pass makes of a graph: what it was before, if it says that nothing changed, and
else a graph with less load. -/
def Advances (g : Graph ρ) (r : Graph ρ × Bool) : Prop :=
  (r.2 = false ∧ r.1 = g) ∨ (r.2 = true ∧ r.1.load < g.load)

/-!
## Passes that delete or rewrite nodes
-/

theorem optimizeListgen_advances {g : Graph ρ} (hg : g.Consistent) :
    exists r, g.optimizeListgen = .ok r ∧ g.Advances r := by
  rcases optimizeListgen_cases hg
    with ⟨g', changed, hrun, hsame | ⟨hchanged, found, g1, doomed, g2, base, hfound, h⟩⟩
  · exact ⟨(g', changed), hrun, Or.inl hsame⟩
  · refine ⟨(g', changed), hrun, Or.inr ⟨hchanged, ?_⟩⟩
    rw [load_eq_of_launches h.launches, load_eq_sum]
    refine sum_filter_lt (fun v _ _ => Nat.le_refl _) (fun v _ => v.task.weight_pos) ?_
    rcases List.exists_mem_of_ne_nil _ hfound with ⟨r, hr⟩
    rcases exists_pending (h.selected.pending (mem_gone hr)) with ⟨v, hv, hkey⟩
    refine ⟨v, hv, fun hstays => absurd ?_ (of_decide_eq_true hstays)⟩
    rw [hkey]
    exact mem_gone hr

theorem Judged.weight_lt {bank : Bank ρ} (hbank : bank.Shrinks) {g : Graph ρ} {v : Vertex ρ}
    (hv : v.DescribedBy bank) {record : ρ} {d : Description}
    (h : g.Judged bank v (.strip record d)) : d.task.weight < v.task.weight := by
  cases h with
  | @strip own _ dead hown _ eliminated _ differs =>
      refine Task.weight_lt (OrderedSet.size_lt_of_ne ?_ differs)
      rw [hv own hown]
      exact hbank.eliminated own dead record eliminated

theorem Fate.weight_cases {bank : Bank ρ} (hbank : bank.Shrinks) {g : Graph ρ}
    {scan : StoreScan ρ} {doomed : List NodeKey} {v : Vertex ρ} (hv : v.DescribedBy bank)
    (h : Fate bank g scan doomed v) (hstays : v.key ∉ doomed) :
    (scan.graph.find? v.key = some v ∧ (scan.graph.vertexOf v.key).task.weight = v.task.weight) ∨
      (scan.graph.vertexOf v.key).task.weight < v.task.weight := by
  cases h with
  | keep _ now =>
      rw [vertexOf_of_find? now]
      exact Or.inl ⟨now, rfl⟩
  | delete goes _ => exact absurd goes hstays
  | strip _ judged now =>
      have htask := congrArg Prod.snd now
      rw [show (scan.graph.vertexOf v.key).task = _ from htask]
      exact Or.inr (judged.weight_lt hbank hv)

theorem eliminateDeadStores_advances {g : Graph ρ} {bank : Bank ρ} (hbank : bank.Shrinks)
    (hg : g.Consistent) (hdescribed : g.Described bank) :
    exists r, g.eliminateDeadStores bank = .ok r ∧ g.Advances r := by
  rcases eliminateDeadStores_cases bank hg.sound hg.forward
    with ⟨g', changed, hrun, ⟨hchanged, hsame, _⟩ | ⟨hchanged, scan, doomed, g1, base, h⟩⟩
  · exact ⟨(g', changed), hrun, Or.inl ⟨hchanged, hsame⟩⟩
  · refine ⟨(g', changed), hrun, Or.inr ⟨hchanged, ?_⟩⟩
    have hkeyed := hg.sound.keyed
    have hlaunches := h.map_kept hkeyed (f := fun v => v.launch) (fun _ => rfl) h.launches
    have hfate := fun v (hv : v ∈ g.pending) =>
      (h.walked.fate hkeyed h.doomed_at hv).weight_cases hbank (hdescribed v hv)
    rw [load_eq_of_launches hlaunches, load_eq_sum]
    refine sum_filter_lt ?_ (fun v _ => v.task.weight_pos) ?_
    · intro v hv hstays
      rcases hfate v hv (of_decide_eq_true hstays) with ⟨_, heq⟩ | hlt
      · exact Nat.le_of_eq heq
      · exact Nat.le_of_lt hlt
    · rcases h.changed with ⟨v, hv, hgone⟩
      refine ⟨v, hv, fun hstays => ?_⟩
      have hstays' := of_decide_eq_true hstays
      rcases hfate v hv hstays' with ⟨hfind, _⟩ | hlt
      · exact (hgone.elim hstays' fun hne => hne hfind).elim
      · exact hlt

/-!
## Demotion
-/

theorem DemotedAt.load_lt {bank : Bank ρ} (hbank : bank.Shrinks) {g g' : Graph ρ} {k : NodeKey}
    (h : DemotedAt bank k g g') (hg : g.Keyed) (hdescribed : g.Described bank) :
    g'.load < g.load := by
  rcases exists_pending h.pending with ⟨v, hv, rfl⟩
  have hless : (g'.vertexOf v.key).task.weight < v.task.weight := by
    have hdemotes := h.demotes
    rw [hg.vertexOf_key (mem_vertices_of_pending hv)] at hdemotes
    exact hdemotes.weight_lt hbank (hdescribed v hv)
  have hlaunches := congrArg (List.map fun v : Vertex ρ => v.launch) (h.relaunched.pending_eq hg)
  rw [List.map_map] at hlaunches
  rw [load_eq_of_launches hlaunches, load_eq_sum]
  refine List.sum_lt_sum _ _ ?_ ⟨v, hv, hless⟩
  intro w hw
  by_cases heq : w.key = v.key
  · rw [hg.eq_of_key (mem_vertices_of_pending hw) (mem_vertices_of_pending hv) heq]
    exact Nat.le_of_lt hless
  · refine Nat.le_of_eq ?_
    show (g'.vertexOf w.key).task.weight = _
    rw [vertexOf_of_find? ((h.other _ heq).trans (hg.find?_pending hw))]

theorem DemotedSome.load_lt {bank : Bank ρ} (hbank : bank.Shrinks) {g g' : Graph ρ}
    (h : DemotedSome bank g g') (hg : g.Sound) (hdescribed : g.Described bank) :
    g'.load < g.load := by
  induction h with
  | single hstep =>
      rcases hstep with ⟨k, hstep⟩
      exact hstep.load_lt hbank hg.keyed hdescribed
  | @tail g1 g2 hbefore hstep ih =>
      rcases hstep with ⟨k, hstep⟩
      have hsound := (DemotedSome.relaunched hbefore).sound hg
      have hdescribed1 := (DemotedSome.demoted hbefore hg).renews.described hdescribed
      exact (hstep.load_lt hbank hsound.keyed hdescribed1).trans ih

theorem demoteActivations_advances {g : Graph ρ} {bank : Bank ρ} (hbank : bank.Shrinks)
    (hg : g.Consistent) (hdescribed : g.Described bank) :
    exists r, g.demoteActivations bank = .ok r ∧ g.Advances r := by
  rcases demoteActivations_cases bank hg.sound hg.forward
    with ⟨g', changed, hrun, hsame | ⟨hchanged, g1, base, h⟩⟩
  · exact ⟨(g', changed), hrun, Or.inl hsame⟩
  · refine ⟨(g', changed), hrun, Or.inr ⟨hchanged, ?_⟩⟩
    have hload : g'.load = g1.load :=
      (load_eq_of_launches h.launches).trans (load_eq_sum g1).symm
    rw [hload]
    exact h.demoted.load_lt hbank hg.sound hdescribed

/-!
## Fusion
-/

theorem outputs_size_le_of_fused {bank : Bank ρ} (hbank : bank.Shrinks)
    {groups : List (List (Vertex ρ))} {launches : List (Option ρ × Task)}
    (h : List.Forall₂ (fun group p => FusedFrom bank (group.map (·.launch)) p) groups launches)
    (hdescribed : forall v, v ∈ groups.flatten -> v.DescribedBy bank) :
    (launches.map fun p => p.2.outputs.size).sum
      ≤ (groups.flatten.map fun v => v.task.outputs.size).sum := by
  induction h with
  | nil => exact Nat.le_refl _
  | @cons group p groups launches hfused _ ih =>
      rw [List.flatten_cons, List.map_append, List.sum_append, List.map_cons, List.sum_cons]
      refine Nat.add_le_add ?_ (ih fun v hv => hdescribed v ?_)
      · have hparts : forall q, q ∈ group.map (·.launch) -> Describes bank q := by
          intro q hq
          rcases List.mem_map.mp hq with ⟨v, hv, rfl⟩
          exact hdescribed v (by simp [hv])
        have hle := hfused.outputs_size_le hbank hparts
        rw [List.map_map] at hle
        exact hle
      · rw [List.flatten_cons]
        exact List.mem_append_right _ hv

theorem Regrouped.load_lt {bank : Bank ρ} (hbank : bank.Shrinks) {g g' : Graph ρ}
    {groups : List (List (Vertex ρ))} (h : Regrouped bank g g' groups)
    (hdescribed : g.Described bank) (hseveral : exists group, group ∈ groups ∧ 1 < group.length) :
    g'.load < g.load := by
  have hcount : g'.pendingCount < g.pendingCount := by
    have hlength := h.fused.length_eq
    rw [List.length_map] at hlength
    have hless := length_lt_length_flatten (fun group hgroup => ?_) hseveral
    · rw [hlength, h.perm.length_eq] at hless
      exact hless
    · rcases exists_of_forall₂_left h.fused group hgroup with ⟨p, _, hfused⟩
      exact fun hnil => hfused.ne_nil (by rw [hnil, List.map_nil])
  have houtputs := outputs_size_le_of_fused hbank h.fused
    fun v hv => hdescribed v (h.perm.subset hv)
  rw [List.map_map, (h.perm.map fun v : Vertex ρ => v.task.outputs.size).sum_eq] at houtputs
  exact Nat.add_lt_add_of_lt_of_le hcount houtputs

theorem fuse_advances {g : Graph ρ} {bank : Bank ρ} (hbank : bank.Shrinks) (hg : g.Consistent)
    (hdescribed : g.Described bank) : exists r, g.fuse bank = .ok r ∧ g.Advances r := by
  rcases fuse_staged bank hg.sound hg.forward
    with ⟨g', changed, hrun, hsame | ⟨hchanged, names, fused, doomed, order, g1, g2, g3, base, h⟩⟩
  · exact ⟨(g', changed), hrun, Or.inl hsame⟩
  · refine ⟨(g', changed), hrun, Or.inr ⟨hchanged, ?_⟩⟩
    exact (h.regrouped hg.sound hg.forward).load_lt hbank hdescribed h.exists_several


/-!
## All passes
-/

/-- A pass goes through.  If it changes anything, the load becomes smaller. -/
theorem run_advances {g : Graph ρ} {bank : Bank ρ} (hbank : bank.Shrinks) (hg : g.Consistent)
    (hdescribed : g.Described bank) (pass : Pass) :
    exists r, pass.run bank g = .ok r ∧ g.Advances r := by
  cases pass with
  | listgen => exact optimizeListgen_advances hg
  | deadStores => exact eliminateDeadStores_advances hbank hg hdescribed
  | demotion => exact demoteActivations_advances hbank hg hdescribed
  | fusion => exact fuse_advances hbank hg hdescribed

end Graph

end LaunchGraph
