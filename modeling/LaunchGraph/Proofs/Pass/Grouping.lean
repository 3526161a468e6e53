import LaunchGraph.Pass.Fusion
import LaunchGraph.Proofs.Graph.Rebuild
import LaunchGraph.Proofs.Reachability

/-!
# How groups grow

While groups grow in a window, reachability is kept up to date by merging each node
that joins with the first node of its group.  Two nodes then reach each other exactly
if they are in one group.  A node joins only if nothing outside of the group lies
between them, so a merge never closes a way around nodes of different groups.
-/

namespace LaunchGraph

variable {ρ : Type}

/-- A launch made by fusing the launches of a list one after another.  Each one that is added
may share a loop with those before it, put together. -/
inductive FusedFrom (bank : Bank ρ) : List (Option ρ × Task) -> Option ρ × Task -> Prop where
  | single (p : Option ρ × Task) : FusedFrom bank [p] p
  | fuse {launches : List (Option ρ × Task)} {first next fused : ρ} {t u : Task}
      (before : FusedFrom bank launches (some first, t)) (compatible : t.fusible u = true)
      (free : t.hazardFree u = true) (made : bank.fuse first next = some fused) :
      FusedFrom bank (launches ++ [(some next, u)]) (some fused, (bank.describe fused).task)

theorem FusedFrom.ne_nil {bank : Bank ρ} {launches : List (Option ρ × Task)}
    {p : Option ρ × Task} (h : FusedFrom bank launches p) : launches ≠ [] := by
  cases h with
  | single => simp
  | fuse => simp

/-!
## Merging two items
-/

theorem Reachability.Closed.merge_kernel {r : Reachability} {n : Nat} (h : r.Closed n)
    {a b : Nat} {P : Nat -> Prop} (hba : ¬r.reaches b a = true)
    (haa : forall z, r.reaches a z = true -> r.reaches z a = true -> P z)
    (hbb : forall z, r.reaches b z = true -> r.reaches z b = true -> P z)
    (hab : forall z, r.reaches a z = true -> r.reaches z b = true -> P z) {x y : Nat}
    (hxy : (r.merge a b).reaches x y = true) (hyx : (r.merge a b).reaches y x = true) :
    (r.reaches x y = true ∧ r.reaches y x = true) ∨ (P x ∧ P y) := by
  have hmid : forall z, (r.reaches a z = true ∨ r.reaches b z = true) ->
      (r.reaches z a = true ∨ r.reaches z b = true) -> P z := by
    rintro z (haz | hbz) (hza | hzb)
    · exact haa z haz hza
    · exact hab z haz hzb
    · exact absurd (h.trans b z a hbz hza) hba
    · exact hbb z hbz hzb
  rw [h.reaches_merge] at hxy hyx
  rcases hxy with hxy | ⟨hx, hy⟩
  · rcases hyx with hyx | ⟨hy, hx⟩
    · exact Or.inl ⟨hxy, hyx⟩
    · -- The old way from `x` to `y` lies on a way between the merged items.
      refine Or.inr ⟨hmid x hx ?_, hmid y ?_ hy⟩
      · exact hy.imp (h.trans x y a hxy) (h.trans x y b hxy)
      · exact hx.imp (h.trans a x y · hxy) (h.trans b x y · hxy)
  · rcases hyx with hyx | ⟨hy', hx'⟩
    · refine Or.inr ⟨hmid x ?_ hx, hmid y hy ?_⟩
      · exact hy.imp (h.trans a y x · hyx) (h.trans b y x · hyx)
      · exact hx.imp (h.trans y x a hyx) (h.trans y x b hyx)
    · exact Or.inr ⟨hmid x hx' hx, hmid y hy hy'⟩

/-!
## Classes of positions
-/

abbrev Placed (ρ : Type) := Vertex ρ × Nat

def placesOf (c : List (Placed ρ)) : List Nat := c.map (·.2)

def Together (classes : List (List (Placed ρ))) (x y : Nat) : Prop :=
  exists c, c ∈ classes ∧ x ∈ placesOf c ∧ y ∈ placesOf c

theorem Together.append_singleton {classes : List (List (Placed ρ))} {c : List (Placed ρ)}
    {x y : Nat} :
    Together (classes ++ [c]) x y ↔ Together classes x y ∨ (x ∈ placesOf c ∧ y ∈ placesOf c) := by
  constructor
  · rintro ⟨d, hd, hx, hy⟩
    rcases List.mem_append.mp hd with hd | hd
    · exact Or.inl ⟨d, hd, hx, hy⟩
    · rw [List.mem_singleton.mp hd] at hx hy
      exact Or.inr ⟨hx, hy⟩
  · rintro (⟨d, hd, hx, hy⟩ | ⟨hx, hy⟩)
    · exact ⟨d, List.mem_append_left _ hd, hx, hy⟩
    · exact ⟨c, by simp, hx, hy⟩

theorem mem_placesOf_append {c d : List (Placed ρ)} {x : Nat} :
    x ∈ placesOf (c ++ d) ↔ x ∈ placesOf c ∨ x ∈ placesOf d := by
  rw [placesOf, List.map_append, List.mem_append]
  rfl

theorem mem_placesOf_singleton {q : Placed ρ} {x : Nat} : x ∈ placesOf [q] ↔ x = q.2 :=
  List.mem_singleton

theorem mem_tail_append_singleton {classes : List (List (Placed ρ))} {c : List (Placed ρ)}
    {x : Nat} :
    (exists d, d ∈ classes ++ [c] ∧ x ∈ placesOf d.tail) ↔
      (exists d, d ∈ classes ∧ x ∈ placesOf d.tail) ∨ x ∈ placesOf c.tail := by
  constructor
  · rintro ⟨d, hd, hx⟩
    rcases List.mem_append.mp hd with hd | hd
    · exact Or.inl ⟨d, hd, hx⟩
    · rw [List.mem_singleton.mp hd] at hx
      exact Or.inr hx
  · rintro (⟨d, hd, hx⟩ | hx)
    · exact ⟨d, List.mem_append_left _ hd, hx⟩
    · exact ⟨c, by simp, hx⟩

structure Window (items : List (Placed ρ)) : Prop where
  nodup : (placesOf items).Nodup
  lt_length : forall x, x ∈ placesOf items -> x < items.length

theorem window_zipIdx (l : List (Vertex ρ)) : Window l.zipIdx := by
  have hplaces : placesOf l.zipIdx = List.range l.length := by
    rw [placesOf, List.zipIdx_map_snd, List.range_eq_range']
  constructor
  · rw [hplaces]
    exact List.nodup_range
  · intro x hx
    rw [hplaces, List.mem_range] at hx
    rw [List.length_zipIdx]
    exact hx

theorem Window.unique {items : List (Placed ρ)} (h : Window items) {q q' : Placed ρ}
    (hq : q ∈ items) (hq' : q' ∈ items) (heq : q.2 = q'.2) : q = q' :=
  List.inj_on_of_nodup_map h.nodup hq hq' heq

/-- What has been decided about the nodes in `done`, where `classes` are the groups so
far: two positions reach each other exactly if they are equal or in one class. -/
structure Decided (items done : List (Placed ρ)) (classes : List (List (Placed ρ)))
    (p : FusionProgress) : Prop where
  closed : p.reachability.Closed items.length
  kernel : forall x y, p.reachability.reaches x y = true -> p.reachability.reaches y x = true ->
    x = y ∨ Together classes x y
  joined : forall x y, Together classes x y -> p.reachability.reaches x y = true
  absorbed : forall x, x ∈ p.absorbed ↔ exists c, c ∈ classes ∧ x ∈ placesOf c.tail
  leader_done : forall c, c ∈ classes -> exists leader rest, c = leader :: rest ∧ leader ∈ done
  sublist : forall c, c ∈ classes -> c.Sublist items
  disjoint : classes.Pairwise (fun c d => forall x, x ∈ placesOf c -> x ∉ placesOf d)

namespace Decided

variable {items done : List (Placed ρ)} {classes : List (List (Placed ρ))} {p : FusionProgress}

theorem mono (h : Decided items done classes p) {done' : List (Placed ρ)}
    (hsub : forall q, q ∈ done -> q ∈ done') : Decided items done' classes p := by
  refine ⟨h.closed, h.kernel, h.joined, h.absorbed, ?_, h.sublist, h.disjoint⟩
  intro c hc
  rcases h.leader_done c hc with ⟨leader, rest, rfl, hleader⟩
  exact ⟨leader, rest, rfl, hsub leader hleader⟩

theorem not_mem (h : Decided items done classes p) {x : Nat} (hdone : x ∉ placesOf done)
    (habsorbed : x ∉ p.absorbed) {c : List (Placed ρ)} (hc : c ∈ classes) : x ∉ placesOf c := by
  intro hx
  rcases h.leader_done c hc with ⟨leader, rest, rfl, hleader⟩
  rw [placesOf, List.map_cons, List.mem_cons] at hx
  rcases hx with rfl | hx
  · exact hdone (List.mem_map_of_mem hleader)
  · exact habsorbed ((h.absorbed x).mpr ⟨_, hc, hx⟩)

theorem add_singleton (h : Decided items done classes p) {q : Placed ρ} (hq : q ∈ items)
    (hdone : q ∈ done) (hitems : Window items)
    (hfresh : forall c, c ∈ classes -> q.2 ∉ placesOf c) :
    Decided items done (classes ++ [[q]]) p := by
  refine ⟨h.closed, ?_, ?_, ?_, ?_, ?_, ?_⟩
  · intro x y hxy hyx
    exact (h.kernel x y hxy hyx).imp id fun hold =>
      Together.append_singleton.mpr (Or.inl hold)
  · intro x y hxy
    rcases Together.append_singleton.mp hxy with hold | ⟨hx, hy⟩
    · exact h.joined x y hold
    · rw [mem_placesOf_singleton] at hx hy
      rw [hx, hy]
      exact h.closed.refl _ (hitems.lt_length _ (List.mem_map_of_mem hq))
  · intro x
    rw [h.absorbed, mem_tail_append_singleton]
    exact (or_iff_left (List.not_mem_nil)).symm
  · intro c hc
    rcases List.mem_append.mp hc with hc | hc
    · exact h.leader_done c hc
    · exact ⟨q, [], List.mem_singleton.mp hc, hdone⟩
  · intro c hc
    rcases List.mem_append.mp hc with hc | hc
    · exact h.sublist c hc
    · rw [List.mem_singleton.mp hc]
      exact List.singleton_sublist.mpr hq
  · rw [List.pairwise_append]
    refine ⟨h.disjoint, List.pairwise_singleton .., ?_⟩
    intro c hc d hd x hx hxd
    rw [List.mem_singleton.mp hd, mem_placesOf_singleton] at hxd
    rw [hxd] at hx
    exact hfresh c hc hx

theorem drop_singleton {q : Placed ρ} (h : Decided items done (classes ++ [[q]]) p) :
    Decided items done classes p := by
  refine ⟨h.closed, ?_, ?_, ?_, ?_, ?_, ?_⟩
  · intro x y hxy hyx
    rcases h.kernel x y hxy hyx with heq | htogether
    · exact Or.inl heq
    · rcases Together.append_singleton.mp htogether with hold | ⟨hx, hy⟩
      · exact Or.inr hold
      · rw [mem_placesOf_singleton] at hx hy
        exact Or.inl (hx.trans hy.symm)
  · intro x y hxy
    exact h.joined x y (Together.append_singleton.mpr (Or.inl hxy))
  · intro x
    rw [h.absorbed, mem_tail_append_singleton]
    exact or_iff_left (List.not_mem_nil)
  · exact fun c hc => h.leader_done c (List.mem_append_left _ hc)
  · exact fun c hc => h.sublist c (List.mem_append_left _ hc)
  · exact (List.pairwise_append.mp h.disjoint).left

end Decided

/-!
## Offering one node
-/

structure Formed (bank : Bank ρ) (c : List (Placed ρ)) (group : FusionGroup ρ) : Prop where
  members : group.members = c.map (·.1)
  fused : FusedFrom bank (c.map (·.1.launch)) (some group.record, group.description.task)

/-- The state of a group that grows as the nodes in `offered` were offered to it. -/
structure Growing (bank : Bank ρ) (items done offered : List (Placed ρ))
    (classes : List (List (Placed ρ))) (c : List (Placed ρ)) (gg : GrowingGroup ρ) : Prop where
  decided : Decided items done (classes ++ [c]) gg.progress
  formed : Formed bank c gg.group
  sublist : c.Sublist offered
  leader : exists v rest, c = (v, gg.first) :: rest
  positions : forall x, x ∈ gg.positions ↔ x ∈ placesOf c

theorem GrowingGroup.isAdjacent_iff {gg : GrowingGroup ρ} {j : Nat} :
    gg.isAdjacent j = true ↔ ¬gg.progress.reachability.reaches j gg.first = true ∧
      (¬gg.progress.reachability.reaches gg.first j = true ∨
        forall z, z ∈ gg.progress.reachability.between gg.first j ->
          z ∈ gg.positions ∨ z = j) := by
  rw [isAdjacent, Bool.and_eq_true, Bool.or_eq_true, Bool.not_eq_true', Bool.not_eq_true',
    IndexSet.isEmpty_iff]
  simp only [IndexSet.mem_sdiff, IndexSet.mem_single]
  grind

theorem GrowingGroup.fused?_eq_some {bank : Bank ρ} {gg : GrowingGroup ρ} {v : Vertex ρ}
    {record : ρ} {d : Description} (h : gg.fused? bank v = some (record, d)) :
    exists own, v.record = some own ∧ bank.fuse gg.group.record own = some record ∧
      d = bank.describe record := by
  rw [fused?] at h
  cases hown : v.record with
  | none =>
      rw [hown] at h
      cases h
  | some own =>
      rw [hown] at h
      cases hfuse : bank.fuse gg.group.record own with
      | none =>
          dsimp only [Option.bind_eq_bind, Option.bind_some] at h
          rw [hfuse] at h
          cases h
      | some made =>
          dsimp only [Option.bind_eq_bind, Option.bind_some] at h
          rw [hfuse] at h
          dsimp only [Option.bind_some] at h
          split at h
          · cases h
            exact ⟨own, rfl, hfuse, rfl⟩
          · cases h

namespace Growing

variable {bank : Bank ρ} {items done offered : List (Placed ρ)}
  {classes : List (List (Placed ρ))} {c : List (Placed ρ)} {gg : GrowingGroup ρ}

theorem self_mem (h : Growing bank items done offered classes c gg) : gg.first ∈ placesOf c := by
  rcases h.leader with ⟨v, rest, rfl⟩
  exact List.mem_cons_self ..

/-- In a window with a merged node, classes stay what they are, but for the growing
one. -/
theorem merge_kernel (h : Growing bank items done offered classes c gg) {j : Nat}
    (hfresh : forall d, d ∈ classes ++ [c] -> j ∉ placesOf d) (hadjacent : gg.isAdjacent j = true)
    {x y : Nat} (hxy : (gg.progress.reachability.merge gg.first j).reaches x y = true)
    (hyx : (gg.progress.reachability.merge gg.first j).reaches y x = true) :
    (x = y ∨ Together (classes ++ [c]) x y) ∨
      ((x ∈ placesOf c ∨ x = j) ∧ (y ∈ placesOf c ∨ y = j)) := by
  rcases GrowingGroup.isAdjacent_iff.mp hadjacent with ⟨hback, hbetween⟩
  have hkernel := h.decided.closed.merge_kernel (P := fun z => z ∈ placesOf c ∨ z = j) hback
    ?_ ?_ ?_ hxy hyx
  · exact hkernel.imp (fun hold => h.decided.kernel x y hold.left hold.right) id
  · intro z hz hz'
    rcases h.decided.kernel gg.first z hz hz' with heq | ⟨d, hd, hfirst, hzd⟩
    · rw [← heq]
      exact Or.inl h.self_mem
    · rcases List.mem_append.mp hd with hd | hd
      · have hdisjoint := (List.pairwise_append.mp h.decided.disjoint).right.right d hd c (by simp)
        exact absurd h.self_mem (hdisjoint _ hfirst)
      · rw [List.mem_singleton.mp hd] at hzd
        exact Or.inl hzd
  · intro z hz hz'
    rcases h.decided.kernel j z hz hz' with heq | ⟨d, hd, hjd, _⟩
    · exact Or.inr heq.symm
    · exact absurd hjd (hfresh d hd)
  · intro z hz hz'
    rcases hbetween with hno | hall
    · exact absurd (h.decided.closed.trans _ z j hz hz') hno
    · rw [← h.positions]
      refine hall z ?_
      rw [Reachability.between, IndexSet.mem_inter, ← Reachability.reaches_iff,
        h.decided.closed.mirrored]
      exact ⟨hz, hz'⟩

/-- All nodes of the growing class reach each other by way of the first one. -/
theorem reaches_first (h : Growing bank items done offered classes c gg) {x : Nat}
    (hx : x ∈ placesOf c) : gg.progress.reachability.reaches x gg.first = true ∧
      gg.progress.reachability.reaches gg.first x = true :=
  ⟨h.decided.joined x _ (Together.append_singleton.mpr (Or.inr ⟨hx, h.self_mem⟩)),
    h.decided.joined _ x (Together.append_singleton.mpr (Or.inr ⟨h.self_mem, hx⟩))⟩

theorem decided_merge (h : Growing bank items done offered classes c gg) {q : Placed ρ}
    (hsub : (c ++ [q]).Sublist items) (hlt : q.2 < items.length)
    (hfresh : forall d, d ∈ classes ++ [c] -> q.2 ∉ placesOf d)
    (hadjacent : gg.isAdjacent q.2 = true) :
    Decided items done (classes ++ [c ++ [q]])
      ⟨gg.progress.absorbed.insert q.2, gg.progress.reachability.merge gg.first q.2⟩ := by
  have hclosed := h.decided.closed
  have hplaces : forall x, x ∈ placesOf (c ++ [q]) ↔ x ∈ placesOf c ∨ x = q.2 := by
    intro x
    rw [mem_placesOf_append, mem_placesOf_singleton]
  refine ⟨hclosed.merge _ _, ?_, ?_, ?_, ?_, ?_, ?_⟩
  · intro x y hxy hyx
    rw [Together.append_singleton, hplaces, hplaces]
    rcases h.merge_kernel hfresh hadjacent hxy hyx with (heq | htogether) | hboth
    · exact Or.inl heq
    · rw [Together.append_singleton] at htogether
      exact Or.inr (htogether.imp id fun hc => ⟨Or.inl hc.left, Or.inl hc.right⟩)
    · exact Or.inr (Or.inr hboth)
  · intro x y hxy
    refine (hclosed.reaches_merge gg.first q.2 x y).mpr ?_
    rcases Together.append_singleton.mp hxy with hxy | ⟨hx, hy⟩
    · exact Or.inl (h.decided.joined x y (Together.append_singleton.mpr (Or.inl hxy)))
    · refine Or.inr ⟨?_, ?_⟩
      · rcases (hplaces x).mp hx with hx | rfl
        · exact Or.inl (h.reaches_first hx).left
        · exact Or.inr (hclosed.refl _ hlt)
      · rcases (hplaces y).mp hy with hy | rfl
        · exact Or.inl (h.reaches_first hy).right
        · exact Or.inr (hclosed.refl _ hlt)
  · intro x
    rcases h.leader with ⟨w, tail, rfl⟩
    rw [IndexSet.mem_insert, h.decided.absorbed, mem_tail_append_singleton,
      mem_tail_append_singleton, List.cons_append, List.tail_cons, List.tail_cons,
      mem_placesOf_append, mem_placesOf_singleton, or_comm, or_assoc]
  · intro d hd
    rcases List.mem_append.mp hd with hd | hd
    · exact h.decided.leader_done d (List.mem_append_left _ hd)
    · rcases h.decided.leader_done c (by simp) with ⟨leader, rest, heq, hleader⟩
      exact ⟨leader, rest ++ [q], by rw [List.mem_singleton.mp hd, heq]; rfl, hleader⟩
  · intro d hd
    rcases List.mem_append.mp hd with hd | hd
    · exact h.decided.sublist d (List.mem_append_left _ hd)
    · rw [List.mem_singleton.mp hd]
      exact hsub
  · rw [List.pairwise_append]
    have hpairwise := List.pairwise_append.mp h.decided.disjoint
    refine ⟨hpairwise.left, List.pairwise_singleton .., ?_⟩
    intro d hd e he x hx hxe
    rw [List.mem_singleton.mp he, hplaces] at hxe
    rcases hxe with hxe | rfl
    · exact hpairwise.right.right d hd c (by simp) x hx hxe
    · exact hfresh d (List.mem_append_left _ hd) hx

theorem absorb (h : Growing bank items done offered classes c gg) (hitems : Window items)
    {v : Vertex ρ} {j : Nat} {rest : List (Placed ρ)} (hsplit : items = offered ++ (v, j) :: rest)
    (hdone : j ∉ placesOf done) (habsorbed : j ∉ gg.progress.absorbed)
    (hcompatible : gg.isCompatible v = true) (hadjacent : gg.isAdjacent j = true) {record : ρ}
    {d : Description} (hfused : gg.fused? bank v = some (record, d)) :
    Growing bank items done (offered ++ [(v, j)]) classes (c ++ [(v, j)])
      (gg.absorb v j record d) := by
  have hlt : j < items.length := by
    refine hitems.lt_length j (List.mem_map_of_mem (f := (·.2)) (a := (v, j)) ?_)
    rw [hsplit]
    simp
  have hsub : (c ++ [(v, j)]).Sublist items := by
    rw [hsplit]
    exact h.sublist.append (List.singleton_sublist.mpr (List.mem_cons_self ..))
  have hdecided := h.decided_merge hsub hlt
    (fun d hd => h.decided.not_mem hdone habsorbed hd) hadjacent
  rcases h.leader with ⟨w, tail, hc⟩
  rcases GrowingGroup.fused?_eq_some hfused with ⟨own, hown, hmade, rfl⟩
  refine ⟨hdecided, ⟨?_, ?_⟩, ?_, ?_, ?_⟩
  · have hmembers : (gg.absorb v j record (bank.describe record)).group.members
        = gg.group.members ++ [v] := by
      rw [FusionGroup.members, FusionGroup.members, List.cons_append]
      rfl
    rw [hmembers, h.formed.members, List.map_append]
    rfl
  · have hlaunch : v.launch = (some own, v.task) := congrArg (fun r => (r, v.task)) hown
    rw [GrowingGroup.isCompatible, Bool.and_eq_true] at hcompatible
    rw [List.map_append, List.map_singleton, hlaunch]
    exact .fuse h.formed.fused hcompatible.left hcompatible.right hmade
  · exact h.sublist.append (List.Sublist.refl _)
  · exact ⟨w, tail ++ [(v, j)], by rw [hc]; rfl⟩
  · intro x
    show x ∈ gg.positions.insert j ↔ _
    rw [IndexSet.mem_insert, h.positions, mem_placesOf_append, mem_placesOf_singleton, or_comm]

theorem offer (h : Growing bank items done offered classes c gg) (hitems : Window items)
    {v : Vertex ρ} {j : Nat} {rest : List (Placed ρ)} (hsplit : items = offered ++ (v, j) :: rest)
    (hdone : j ∉ placesOf done) :
    exists c', Growing bank items done (offered ++ [(v, j)]) classes c' (gg.offer bank v j) ∧
      forall x y, gg.progress.reachability.reaches x y = true ->
        (gg.offer bank v j).progress.reachability.reaches x y = true := by
  have hstay : Growing bank items done (offered ++ [(v, j)]) classes c gg :=
    ⟨h.decided, h.formed, h.sublist.trans (List.sublist_append_left ..), h.leader, h.positions⟩
  rw [GrowingGroup.offer]
  split
  · exact ⟨c, hstay, fun _ _ hxy => hxy⟩
  · next habsorbed =>
      split
      · next hjoins =>
          rw [Bool.and_eq_true] at hjoins
          split
          · next record d hfused =>
              refine ⟨_, h.absorb hitems hsplit hdone habsorbed hjoins.left hjoins.right hfused, ?_⟩
              intro x y hxy
              exact (h.decided.closed.reaches_merge _ _ x y).mpr (Or.inl hxy)
          · exact ⟨c, hstay, fun _ _ hxy => hxy⟩
      · exact ⟨c, hstay, fun _ _ hxy => hxy⟩

end Growing

/-!
## Growing all groups
-/

theorem not_mem_placesOf_of_split {items offered rest done : List (Placed ρ)} {q : Placed ρ}
    (hitems : Window items) (hsplit : items = offered ++ q :: rest)
    (hsub : forall p, p ∈ done -> p ∈ offered) : q.2 ∉ placesOf done := by
  intro hin
  rcases List.mem_map.mp hin with ⟨p, hp, heq⟩
  have hnodup := hitems.nodup
  rw [hsplit, placesOf, List.map_append, List.nodup_append] at hnodup
  exact hnodup.right.right p.2 (List.mem_map_of_mem (hsub p hp)) q.2 (by simp) heq

theorem Growing.offerAll {bank : Bank ρ} {items done offered : List (Placed ρ)}
    {classes : List (List (Placed ρ))} {c : List (Placed ρ)} {gg : GrowingGroup ρ}
    (h : Growing bank items done offered classes c gg) (hitems : Window items)
    {rest : List (Placed ρ)} (hsplit : items = offered ++ rest)
    (hsub : forall p, p ∈ done -> p ∈ offered) :
    exists c', Growing bank items done items classes c'
        (rest.foldl (fun gg (v, j) => gg.offer bank v j) gg) ∧
      forall x y, gg.progress.reachability.reaches x y = true ->
        (rest.foldl (fun gg (v, j) => gg.offer bank v j) gg).progress.reachability.reaches x y
          = true := by
  induction rest generalizing offered c gg with
  | nil =>
      rw [List.append_nil] at hsplit
      subst hsplit
      exact ⟨c, h, fun _ _ hxy => hxy⟩
  | cons q rest ih =>
      rcases q with ⟨v, j⟩
      have hdone := not_mem_placesOf_of_split hitems hsplit hsub
      rcases h.offer hitems hsplit hdone with ⟨c1, h1, hmono1⟩
      have hsplit' : items = (offered ++ [(v, j)]) ++ rest := by
        rw [hsplit, List.append_assoc]
        rfl
      rcases ih h1 hsplit' (fun p hp => List.mem_append_left _ (hsub p hp)) with ⟨c2, h2, hmono2⟩
      exact ⟨c2, h2, fun x y hxy => hmono2 x y (hmono1 x y hxy)⟩

theorem FusionProgress.start?_eq_some {p : FusionProgress} {leader : Vertex ρ} {i : Nat}
    {gg : GrowingGroup ρ} (h : p.start? leader i = some gg) :
    i ∉ p.absorbed ∧ exists record, leader.record = some record ∧
      gg = ⟨⟨leader, [], record, ⟨leader.task, none⟩⟩, i, .single i, p⟩ := by
  rw [start?] at h
  split at h
  · cases h
  · next hfree =>
      rw [Bool.or_eq_true, not_or, decide_eq_true_iff] at hfree
      rcases Option.map_eq_some_iff.mp h with ⟨record, hrecord, rfl⟩
      exact ⟨hfree.left, record, hrecord, rfl⟩

theorem Decided.start {items done later : List (Placed ρ)}
    {classes : List (List (Placed ρ))} {p : FusionProgress} (h : Decided items done classes p)
    (bank : Bank ρ) (hitems : Window items) {leader : Vertex ρ} {i : Nat}
    (hsplit : items = done ++ (leader, i) :: later) {gg : GrowingGroup ρ}
    (hstart : p.start? leader i = some gg) :
    Growing bank items (done ++ [(leader, i)]) (done ++ [(leader, i)]) classes [(leader, i)] gg := by
  rcases FusionProgress.start?_eq_some hstart with ⟨hfree, record, hrecord, rfl⟩
  have hfresh : forall c, c ∈ classes -> i ∉ placesOf c :=
    fun c hc => h.not_mem (not_mem_placesOf_of_split hitems hsplit fun _ hp => hp) hfree hc
  have hmem : (leader, i) ∈ items := by
    rw [hsplit]
    simp
  have hlaunch : leader.launch = (some record, leader.task) :=
    congrArg (fun r => (r, leader.task)) hrecord
  refine ⟨?_, ⟨rfl, ?_⟩, List.sublist_append_right .., ⟨leader, [], rfl⟩, ?_⟩
  · have hwider : Decided items (done ++ [(leader, i)]) classes p :=
      h.mono fun _ hp => List.mem_append_left _ hp
    exact hwider.add_singleton hmem (by simp) hitems hfresh
  · rw [List.map_singleton, hlaunch]
    exact .single _
  · intro x
    show x ∈ IndexSet.single i ↔ x ∈ [i]
    rw [IndexSet.mem_single, List.mem_singleton]

theorem Growing.decided_alone {bank : Bank ρ} {items done offered : List (Placed ρ)}
    {classes : List (List (Placed ρ))} {c : List (Placed ρ)} {gg : GrowingGroup ρ}
    (h : Growing bank items done offered classes c gg)
    (halone : gg.group.followers.isEmpty = true) : Decided items done classes gg.progress := by
  have hmembers := h.formed.members
  rw [FusionGroup.members, List.isEmpty_iff.mp halone] at hmembers
  rcases List.map_eq_singleton_iff.mp hmembers.symm with ⟨q, rfl, _⟩
  exact h.decided.drop_singleton

/-- Gathering decides about all nodes of a window, and forms one group for every
class. -/
theorem gather_decided (bank : Bank ρ) {items done rest : List (Placed ρ)}
    {classes : List (List (Placed ρ))} {p : FusionProgress} (h : Decided items done classes p)
    (hitems : Window items) (hsplit : items = done ++ rest) :
    exists more p', Decided items items (classes ++ more) p' ∧
      (forall x y, p.reachability.reaches x y = true -> p'.reachability.reaches x y = true) ∧
      List.Forall₂ (Formed bank) more (p.gather bank rest) := by
  induction rest generalizing done classes p with
  | nil =>
      rw [List.append_nil] at hsplit
      subst hsplit
      refine ⟨[], p, ?_, fun _ _ hxy => hxy, .nil⟩
      rw [List.append_nil]
      exact h
  | cons q later ih =>
      rcases q with ⟨leader, i⟩
      have hsplit' : items = (done ++ [(leader, i)]) ++ later := by
        rw [hsplit, List.append_assoc]
        rfl
      rw [FusionProgress.gather]
      cases hstart : p.start? leader i with
      | none => exact ih (h.mono fun _ hp => List.mem_append_left _ hp) hsplit'
      | some start =>
          dsimp only
          rcases FusionProgress.start?_eq_some hstart with ⟨_, _, _, hgg⟩
          rcases (h.start bank hitems hsplit hstart).offerAll hitems hsplit'
            (fun _ hp => hp) with ⟨c, hgrown, hmono⟩
          have hmono' : forall x y, p.reachability.reaches x y = true ->
              (later.foldl (fun gg (v, j) => gg.offer bank v j) start).progress.reachability.reaches
                x y = true := by
            intro x y hxy
            refine hmono x y ?_
            rw [hgg]
            exact hxy
          split
          · next halone =>
              rcases ih (hgrown.decided_alone halone) hsplit' with ⟨more, p', hdone, hmono'', hformed⟩
              exact ⟨more, p', hdone, fun x y hxy => hmono'' x y (hmono' x y hxy), hformed⟩
          · rcases ih hgrown.decided hsplit' with ⟨more, p', hdone, hmono'', hformed⟩
            refine ⟨c :: more, p', ?_, fun x y hxy => hmono'' x y (hmono' x y hxy),
              .cons hgrown.formed hformed⟩
            rw [List.append_assoc] at hdone
            exact hdone

theorem grown_of_mem_gather (bank : Bank ρ) {p : FusionProgress} {window : List (Placed ρ)}
    {group : FusionGroup ρ} (h : group ∈ p.gather bank window) :
    exists (p' : FusionProgress) (q : Placed ρ) (start : GrowingGroup ρ) (later : List (Placed ρ)),
      p'.start? q.1 q.2 = some start ∧
      group = (later.foldl (fun gg q => gg.offer bank q.1 q.2) start).group ∧
      group.followers ≠ [] := by
  induction window generalizing p with
  | nil => cases h
  | cons q later ih =>
      rcases q with ⟨leader, i⟩
      rw [FusionProgress.gather] at h
      cases hstart : p.start? leader i with
      | none =>
          rw [hstart] at h
          exact ih h
      | some start =>
          rw [hstart] at h
          dsimp only at h
          split at h
          · exact ih h
          · next hjoined =>
              rcases List.mem_cons.mp h with rfl | h
              · rw [List.isEmpty_iff] at hjoined
                exact ⟨p, (leader, i), start, later, hstart, rfl, hjoined⟩
              · exact ih h

theorem several_of_mem_gather (bank : Bank ρ) {p : FusionProgress} {window : List (Placed ρ)}
    {group : FusionGroup ρ} (h : group ∈ p.gather bank window) : 1 < group.members.length := by
  rcases grown_of_mem_gather bank h with ⟨_, _, _, _, _, _, hjoined⟩
  rw [FusionGroup.members, List.length_cons]
  exact Nat.succ_lt_succ (List.length_pos_iff.mpr hjoined)

/-!
## Groups by key
-/

namespace FusionGroup

def keys (group : FusionGroup ρ) : List NodeKey := group.members.map (·.key)

theorem mem_keys_of_formed {bank : Bank ρ} {c : List (Placed ρ)} {group : FusionGroup ρ}
    (h : Formed bank c group) {k : NodeKey} :
    k ∈ group.keys ↔ exists q, q ∈ c ∧ q.1.key = k := by
  rw [keys, h.members, List.map_map, List.mem_map]
  rfl

end FusionGroup

/-- Groups of nodes of a window.  The relation `before` contains the edges inside the
window and is transitive, and two nodes are before each other exactly if they are
equal or in one group. -/
structure Grouped (bank : Bank ρ) (window : List (Vertex ρ))
    (edge : NodeKey -> NodeKey -> Prop) (groups : List (FusionGroup ρ))
    (before : NodeKey -> NodeKey -> Prop) : Prop where
  refl : forall v, v ∈ window -> before v.key v.key
  trans : forall u v w, before u v -> before v w -> before u w
  inside : forall u v, before u v -> u ∈ window.map (·.key) ∧ v ∈ window.map (·.key)
  contains_edge : forall u v, u ∈ window -> v ∈ window -> edge u.key v.key -> before u.key v.key
  kernel : forall u v, before u v -> before v u ->
    u = v ∨ exists group, group ∈ groups ∧ u ∈ group.keys ∧ v ∈ group.keys
  joined : forall group, group ∈ groups -> forall u v, u ∈ group.keys -> v ∈ group.keys -> before u v
  sublist : forall group, group ∈ groups -> group.members.Sublist window
  fused : forall group, group ∈ groups ->
    FusedFrom bank (group.members.map (·.launch)) (some group.record, group.description.task)
  disjoint : groups.Pairwise (fun a b => forall k, k ∈ a.keys -> k ∉ b.keys)
  several : forall group, group ∈ groups -> 1 < group.members.length

theorem placed_unique {window : List (Vertex ρ)} (hkeys : (window.map (·.key)).Nodup)
    {q q' : Placed ρ} (hq : q ∈ window.zipIdx) (hq' : q' ∈ window.zipIdx)
    (heq : q.1.key = q'.1.key) : q = q' := by
  have hmap := congrArg (List.map (·.key)) (List.zipIdx_map_fst 0 window)
  rw [List.map_map] at hmap
  rw [← hmap] at hkeys
  exact List.inj_on_of_nodup_map hkeys hq hq' heq

theorem exists_place {window : List (Vertex ρ)} {v : Vertex ρ} (hv : v ∈ window) :
    exists x, (v, x) ∈ window.zipIdx := by
  rw [← List.zipIdx_map_fst 0 window] at hv
  rcases List.mem_map.mp hv with ⟨q, hq, rfl⟩
  exact ⟨q.2, hq⟩

theorem mem_of_placed {window : List (Vertex ρ)} {q : Placed ρ} (hq : q ∈ window.zipIdx) :
    q.1 ∈ window := by
  have hmem := List.mem_map_of_mem (f := Prod.fst) hq
  rw [List.zipIdx_map_fst] at hmem
  exact hmem

def BeforeIn (window : List (Vertex ρ)) (r : Reachability) (u v : NodeKey) : Prop :=
  exists q q', q ∈ window.zipIdx ∧ q' ∈ window.zipIdx ∧ q.1.key = u ∧ q'.1.key = v ∧
    r.reaches q.2 q'.2 = true

theorem beforeIn_iff {window : List (Vertex ρ)} (hkeys : (window.map (·.key)).Nodup)
    {r : Reachability} {q q' : Placed ρ} (hq : q ∈ window.zipIdx) (hq' : q' ∈ window.zipIdx) :
    BeforeIn window r q.1.key q'.1.key ↔ r.reaches q.2 q'.2 = true := by
  constructor
  · rintro ⟨p, p', hp, hp', heq, heq', h⟩
    rw [placed_unique hkeys hp hq heq, placed_unique hkeys hp' hq' heq'] at h
    exact h
  · intro h
    exact ⟨q, q', hq, hq', rfl, rfl, h⟩

theorem BeforeIn.trans {window : List (Vertex ρ)} (hkeys : (window.map (·.key)).Nodup)
    {r : Reachability} {n : Nat} (hclosed : r.Closed n) {u v w : NodeKey}
    (huv : BeforeIn window r u v) (hvw : BeforeIn window r v w) : BeforeIn window r u w := by
  rcases huv with ⟨q1, q2, h1, h2, rfl, rfl, h12⟩
  rcases hvw with ⟨q2', q3, h2', h3, heq, rfl, h23⟩
  rw [placed_unique hkeys h2' h2 heq] at h23
  exact ⟨q1, q3, h1, h3, rfl, rfl, hclosed.trans _ _ _ h12 h23⟩

theorem Decided.nothing {window : List (Vertex ρ)} {r : Reachability}
    (hclosed : r.Closed window.length) (hforward : forall x y, r.reaches x y = true -> x ≤ y) :
    Decided window.zipIdx [] [] ⟨∅, r⟩ := by
  refine ⟨?_, ?_, ?_, ?_, ?_, ?_, List.Pairwise.nil⟩
  · rw [List.length_zipIdx]
    exact hclosed
  · intro x y hxy hyx
    exact Or.inl (Nat.le_antisymm (hforward x y hxy) (hforward y x hyx))
  · rintro x y ⟨c, hc, _⟩
    cases hc
  · intro x
    simp
  · intro c hc
    cases hc
  · intro c hc
    cases hc

section Told

variable {bank : Bank ρ} {window : List (Vertex ρ)} {classes : List (List (Placed ρ))}
  {p : FusionProgress} {groups : List (FusionGroup ρ)}
  (h : Decided window.zipIdx window.zipIdx classes p)
  (hformed : List.Forall₂ (Formed bank) classes groups)

include h

theorem Decided.mem_of_place {c : List (Placed ρ)} (hc : c ∈ classes) {q : Placed ρ}
    (hq : q ∈ window.zipIdx) (hplace : q.2 ∈ placesOf c) : q ∈ c := by
  rcases List.mem_map.mp hplace with ⟨m, hm, heq⟩
  rw [(window_zipIdx window).unique ((h.sublist c hc).subset hm) hq heq] at hm
  exact hm

include hformed

theorem Decided.kernel_keys (hkeys : (window.map (·.key)).Nodup) {u v : NodeKey}
    (huv : BeforeIn window p.reachability u v) (hvu : BeforeIn window p.reachability v u) :
    u = v ∨ exists group, group ∈ groups ∧ u ∈ group.keys ∧ v ∈ group.keys := by
  rcases huv with ⟨q, q', hq, hq', rfl, rfl, hforth⟩
  have hback := (beforeIn_iff hkeys hq' hq).mp hvu
  rcases h.kernel q.2 q'.2 hforth hback with heq | ⟨c, hc, hx, hy⟩
  · rw [(window_zipIdx window).unique hq hq' heq]
    exact Or.inl rfl
  · rcases exists_of_forall₂_left hformed c hc with ⟨group, hin, hform⟩
    exact Or.inr ⟨group, hin,
      (FusionGroup.mem_keys_of_formed hform).mpr ⟨q, h.mem_of_place hc hq hx, rfl⟩,
      (FusionGroup.mem_keys_of_formed hform).mpr ⟨q', h.mem_of_place hc hq' hy, rfl⟩⟩

theorem Decided.joined_keys {group : FusionGroup ρ} (hin : group ∈ groups) {u v : NodeKey}
    (hu : u ∈ group.keys) (hv : v ∈ group.keys) : BeforeIn window p.reachability u v := by
  rcases exists_of_forall₂_right hformed group hin with ⟨c, hc, hform⟩
  rcases (FusionGroup.mem_keys_of_formed hform).mp hu with ⟨q, hq, rfl⟩
  rcases (FusionGroup.mem_keys_of_formed hform).mp hv with ⟨q', hq', rfl⟩
  exact ⟨q, q', (h.sublist c hc).subset hq, (h.sublist c hc).subset hq', rfl, rfl,
    h.joined _ _ ⟨c, hc, List.mem_map_of_mem hq, List.mem_map_of_mem hq'⟩⟩

theorem Decided.disjoint_keys (hkeys : (window.map (·.key)).Nodup) :
    groups.Pairwise (fun a b => forall k, k ∈ a.keys -> k ∉ b.keys) := by
  rw [List.pairwise_iff_getElem]
  intro i j hi hj hij k hk hk'
  have hi' : i < classes.length := by
    rw [hformed.length_eq]
    exact hi
  have hj' : j < classes.length := by
    rw [hformed.length_eq]
    exact hj
  rcases (FusionGroup.mem_keys_of_formed (hformed.get hi' hi)).mp hk with ⟨q, hq, rfl⟩
  rcases (FusionGroup.mem_keys_of_formed (hformed.get hj' hj)).mp hk' with ⟨q', hq', heq⟩
  rw [placed_unique hkeys ((h.sublist _ (List.getElem_mem hj')).subset hq')
    ((h.sublist _ (List.getElem_mem hi')).subset hq) heq] at hq'
  exact List.pairwise_iff_getElem.mp h.disjoint i j hi' hj' hij q.2
    (List.mem_map_of_mem hq) (List.mem_map_of_mem hq')

end Told

/-- What gathering decides about positions, told by key. -/
theorem gather_grouped (bank : Bank ρ) (edge : NodeKey -> NodeKey -> Prop)
    {window : List (Vertex ρ)} {r : Reachability} (hkeys : (window.map (·.key)).Nodup)
    (hclosed : r.Closed window.length)
    (hforward : forall x y, r.reaches x y = true -> x ≤ y)
    (hedge : forall u x v y, (u, x) ∈ window.zipIdx -> (v, y) ∈ window.zipIdx ->
      edge u.key v.key -> r.reaches x y = true) :
    exists before, Grouped bank window edge
      (FusionProgress.gather bank ⟨∅, r⟩ window.zipIdx) before := by
  have hitems := window_zipIdx window
  rcases gather_decided bank (Decided.nothing hclosed hforward) hitems rfl
    with ⟨classes, p, hdecided, hmono, hformed⟩
  rw [List.nil_append] at hdecided
  refine ⟨BeforeIn window p.reachability, ?_, ?_, ?_, ?_, ?_, ?_, ?_, ?_,
    hdecided.disjoint_keys hformed hkeys, fun _ => several_of_mem_gather bank⟩
  · intro v hv
    rcases exists_place hv with ⟨x, hx⟩
    exact ⟨(v, x), (v, x), hx, hx, rfl, rfl,
      hdecided.closed.refl x (hitems.lt_length x (List.mem_map_of_mem hx))⟩
  · exact fun _ _ _ => BeforeIn.trans hkeys hdecided.closed
  · rintro u v ⟨q, q', hq, hq', rfl, rfl, _⟩
    exact ⟨List.mem_map_of_mem (mem_of_placed hq), List.mem_map_of_mem (mem_of_placed hq')⟩
  · intro u v hu hv huv
    rcases exists_place hu with ⟨x, hx⟩
    rcases exists_place hv with ⟨y, hy⟩
    exact ⟨(u, x), (v, y), hx, hy, rfl, rfl, hmono x y (hedge u x v y hx hy huv)⟩
  · exact fun _ _ => hdecided.kernel_keys hformed hkeys
  · exact fun _ hin _ _ => hdecided.joined_keys hformed hin
  · intro group hin
    rcases exists_of_forall₂_right hformed group hin with ⟨c, hc, hform⟩
    have hsublist := (hdecided.sublist c hc).map Prod.fst
    rw [List.zipIdx_map_fst] at hsublist
    rw [hform.members]
    exact hsublist
  · intro group hin
    rcases exists_of_forall₂_right hformed group hin with ⟨c, _, hform⟩
    rw [hform.members, List.map_map]
    exact hform.fused

end LaunchGraph
