import LaunchGraph.Proofs.Graph.Delete
import LaunchGraph.Proofs.Graph.Order
import LaunchGraph.Proofs.Pass.Fusing
import LaunchGraph.Proofs.Pass.Relaunch

/-!
# What fusion does

Fusion puts every pending node into exactly one new node.  Two nodes of one new node
keep their order in it, and two nodes of different new nodes are in the order that the
edges ask for.  The new nodes can be put in such an order since a way that leaves a
group never comes back to it.
-/

namespace LaunchGraph

/-!
## Lists split by name
-/

theorem perm_flatten_filter {α κ : Type} [DecidableEq κ] {l : List α} {f : α -> κ} {ks : List κ}
    (hl : l.Nodup) (hks : ks.Nodup) (hmem : forall a, a ∈ l -> f a ∈ ks) :
    (ks.map fun k => l.filter fun a => decide (f a = k)).flatten.Perm l := by
  refine (List.perm_ext_iff_of_nodup ?_ hl).mpr ?_
  · rw [List.nodup_flatten]
    constructor
    · intro part hpart
      rcases List.mem_map.mp hpart with ⟨k, _, rfl⟩
      exact hl.filter _
    · rw [List.pairwise_map]
      refine hks.imp ?_
      intro j k hjk a haj hak
      have hj := decide_eq_true_iff.mp (List.mem_filter.mp haj).right
      have hk := decide_eq_true_iff.mp (List.mem_filter.mp hak).right
      exact hjk (hj.symm.trans hk)
  · intro a
    rw [List.mem_flatten]
    constructor
    · rintro ⟨part, hpart, ha⟩
      rcases List.mem_map.mp hpart with ⟨k, _, rfl⟩
      exact (List.mem_filter.mp ha).left
    · intro ha
      exact ⟨_, List.mem_map_of_mem (hmem a ha), List.mem_filter.mpr ⟨ha, decide_eq_true rfl⟩⟩

theorem comesBefore_flatten_of_part {α : Type} {parts : List (List α)} {part : List α} {a b : α}
    (hpart : part ∈ parts) (h : ComesBefore part a b) : ComesBefore parts.flatten a b :=
  h.of_sublist (List.sublist_flatten_of_mem hpart)

theorem comesBefore_flatten_of_parts {α κ : Type} {ks : List κ} {part : κ -> List α} {j k : κ}
    {a b : α} (h : ComesBefore ks j k) (ha : a ∈ part j) (hb : b ∈ part k) :
    ComesBefore (ks.map part).flatten a b := by
  rcases h.exists_split with ⟨x, y, z, rfl⟩
  rw [List.map_append, List.flatten_append, ComesBefore.append_iff, List.map_cons,
    List.flatten_cons, ComesBefore.append_iff]
  refine Or.inr (Or.inr (Or.inr (Or.inl ⟨ha, ?_⟩)))
  rw [List.map_append, List.flatten_append, List.map_cons, List.flatten_cons]
  simp [hb]

namespace Graph

variable {ρ : Type}

/-- The pending nodes of `g`, split into the lists `groups`, are what the pending nodes
of `g'` launch: each one launches a list, one launch after another, and edges lead
forward in the lists put together. -/
structure Regrouped (bank : Bank ρ) (g g' : Graph ρ) (groups : List (List (Vertex ρ))) : Prop where
  perm : groups.flatten.Perm g.pending
  fused : List.Forall₂ (fun group p => FusedFrom bank (group.map (·.launch)) p) groups
    (g'.pending.map (·.launch))
  ordered : forall u v s, u ∈ g.pending -> v ∈ g.pending -> g.Enters u.key v.key s ->
    ComesBefore groups.flatten u v

theorem comesBefore_pending {g : Graph ρ} (hg : g.Sound) (hf : g.Forward) {u v : Vertex ρ}
    {s : State} (hu : u ∈ g.pending) (hv : v ∈ g.pending) (he : g.Enters u.key v.key s) :
    ComesBefore g.pending u v := by
  have hbefore := hf u.key v.key s he
  have hne : u ≠ v := by
    rintro rfl
    exact hbefore.irrefl hg.keyed.nodup
  rcases ComesBefore.total hu hv hne with hfore | hback
  · exact hfore
  · exact absurd (keys_before_of_pending hback) (hbefore.asymm hg.keyed.nodup)

theorem Regrouped.refl {g : Graph ρ} (bank : Bank ρ) (hg : g.Sound) (hf : g.Forward) :
    Regrouped bank g g (g.pending.map fun v => [v]) := by
  have hflatten : (g.pending.map fun v => [v]).flatten = g.pending := by
    rw [← List.flatMap_def]
    exact List.flatMap_singleton' _
  refine ⟨by rw [hflatten], ?_, ?_⟩
  · rw [List.forall₂_map_left_iff, List.forall₂_map_right_iff, List.forall₂_same]
    intro v _
    exact .single _
  · intro u v s hu hv he
    rw [hflatten]
    exact comesBefore_pending hg hf hu hv he

/-!
## Deleting the members of groups
-/

section Members

variable {bank : Bank ρ} {g0 g : Graph ρ} {names : NodeKey -> NodeKey} {fused : List (Vertex ρ)}
  {positions : OrderedSet Nat} {doomed : List NodeKey}

theorem Fusing.mem_keysAt (h : Fusing bank g0 names fused g)
    (hpositions : forall p, p ∈ positions ↔
      exists u, u ∈ g0.pending ∧ names u.key ≠ u.key ∧ u.nodeId = p)
    (hdoomed : g.KeysAt positions doomed) (k : NodeKey) :
    k ∈ doomed ↔ k ∈ g0.pendingKeys ∧ names k ≠ k := by
  rw [hdoomed]
  constructor
  · rintro ⟨v, hv, hp, rfl⟩
    rcases (hpositions _).mp hp with ⟨u, hu, hne, hid⟩
    rcases h.exists_place hu with ⟨w, hw, hwkey, hwid⟩
    have hwv : w = v := h.sound.numbered.eq_of_nodeId (mem_vertices_of_pending hw)
      (mem_vertices_of_pending hv) (hwid.trans hid)
    rw [← hwv, hwkey]
    exact ⟨List.mem_map_of_mem hu, hne⟩
  · rintro ⟨hk, hne⟩
    rcases exists_pending hk with ⟨u, hu, rfl⟩
    rcases h.exists_place hu with ⟨w, hw, hwkey, hwid⟩
    exact ⟨w, hw, (hpositions _).mpr ⟨u, hu, hne, hwid.symm⟩, hwkey⟩

section Doomed

variable (h : Fusing bank g0 names fused g)
  (hdoomed : forall k, k ∈ doomed ↔ k ∈ g0.pendingKeys ∧ names k ≠ k)

include h hdoomed

theorem Fusing.name_not_mem (k : NodeKey) : names k ∉ doomed := by
  intro hin
  rcases (hdoomed (names k)).mp hin with ⟨hpending, hne⟩
  exact hne (congrArg names (h.eq_of_name_mem (pendingKeys_subset hpending)))

theorem Fusing.ends_not_mem {u v : NodeKey} {s : State} (he : g.Enters u v s) :
    u ∉ doomed ∧ v ∉ doomed := by
  rcases (h.enters_iff u v s).mp he with ⟨_, x, y, _, rfl, rfl⟩
  exact ⟨h.name_not_mem hdoomed x, h.name_not_mem hdoomed y⟩

theorem Fusing.enters_of_via {u v : NodeKey} {s : State} (hv : g.Via doomed s u v) :
    g.Enters u v s := by
  cases hv with
  | edge enters => exact enters
  | step before through enters => exact absurd through (h.ends_not_mem hdoomed enters).left

theorem Fusing.name_left {g' : Graph ρ} (hdeleted : g.Deleted doomed g') {k : NodeKey}
    (hk : k ∈ g0.pendingKeys) : names k ∈ g'.pendingKeys := by
  apply hdeleted.mem_pendingKeys.mpr
  constructor
  · apply h.mem_pendingKeys.mpr
    by_cases hself : names k = k
    · rw [hself]
      exact Or.inl hk
    · rcases (h.named k hself).right with ⟨v, hv, heq⟩
      exact Or.inr (heq ▸ List.mem_map_of_mem hv)
  · exact h.name_not_mem hdoomed k

end Doomed

theorem Fusing.delete_ok (h : Fusing bank g0 names fused g)
    (hpositions : forall p, p ∈ positions ↔
      exists u, u ∈ g0.pending ∧ names u.key ≠ u.key ∧ u.nodeId = p) :
    exists doomed g', g.deleteNodes positions = .ok g' ∧ g.Deleted doomed g' ∧
      (forall k, k ∈ doomed ↔ k ∈ g0.pendingKeys ∧ names k ≠ k) ∧
      forall u v s, g'.Enters u v s ↔ g.Enters u v s := by
  have hat : forall p, p ∈ positions -> exists v, v ∈ g.pending ∧ v.nodeId = p := by
    intro p hp
    rcases (hpositions p).mp hp with ⟨u, hu, _, rfl⟩
    rcases h.exists_place hu with ⟨w, hw, _, hwid⟩
    exact ⟨w, hw, hwid⟩
  have howners : forall doomed, g.KeysAt positions doomed ->
      exists owners, g.ownersWithout doomed = .ok owners ∧ g.OwnersLeft doomed owners := by
    intro doomed hdoomed
    refine ownersWithout_ok_of_prior fun s k hk hin => ?_
    rw [h.owners_get] at hk
    rcases Option.map_eq_some_iff.mp hk with ⟨j, _, rfl⟩
    exact absurd hin (h.name_not_mem (h.mem_keysAt hpositions hdoomed) j)
  have hloop : forall doomed, g.KeysAt positions doomed -> forall s u, ¬g.Via doomed s u u := by
    intro doomed hdoomed s u hu
    exact h.no_self u s (h.enters_of_via (h.mem_keysAt hpositions hdoomed) hu)
  rcases deleteNodes_ok_of_owners h.sound hat howners hloop
    with ⟨doomed, g', hrun, hkeysAt, hdeleted⟩
  have hdoomed := h.mem_keysAt hpositions hkeysAt
  refine ⟨doomed, g', hrun, hdeleted, hdoomed, ?_⟩
  intro u v s
  rw [hdeleted.enters_iff]
  constructor
  · rintro ⟨_, _, hv⟩
    exact h.enters_of_via hdoomed hv
  · intro he
    rcases h.ends_not_mem hdoomed he with ⟨hu, hv⟩
    exact ⟨hu, hv, .edge he⟩

end Members

/-!
## No cycles
-/

def StrictlyBefore (g0 : Graph ρ) (names : NodeKey -> NodeKey)
    (before : NodeKey -> NodeKey -> Prop) (u v : NodeKey) : Prop :=
  exists x y, x ∈ g0.pendingKeys ∧ y ∈ g0.pendingKeys ∧ names x = u ∧ names y = v ∧
    before x y ∧ ¬before y x

theorem Ordered.strictlyBefore_trans {g0 : Graph ρ} {names : NodeKey -> NodeKey}
    {before : NodeKey -> NodeKey -> Prop} (h : Ordered g0 g0.pendingKeys names before)
    {u v w : NodeKey} (huv : StrictlyBefore g0 names before u v)
    (hvw : StrictlyBefore g0 names before v w) : StrictlyBefore g0 names before u w := by
  rcases huv with ⟨x, y, hx, hy, rfl, rfl, hxy, _⟩
  rcases hvw with ⟨y', z, hy', hz, hyy', rfl, hyz, hnot⟩
  have hback := h.joined y' y hy' hy hyy'
  have hforth := h.joined y y' hy hy' hyy'.symm
  refine ⟨x, z, hx, hz, rfl, rfl, h.trans x y z hxy (h.trans y y' z hforth hyz), ?_⟩
  intro hzx
  exact hnot (h.trans z y y' (h.trans z x y hzx hxy) hforth)

theorem Ordered.strictlyBefore_irrefl {g0 : Graph ρ} {names : NodeKey -> NodeKey}
    {before : NodeKey -> NodeKey -> Prop} (h : Ordered g0 g0.pendingKeys names before)
    (u : NodeKey) : ¬StrictlyBefore g0 names before u u := by
  rintro ⟨x, y, hx, hy, hxu, hyu, _, hnot⟩
  exact hnot (h.joined y x hy hx (hyu.trans hxu.symm))

theorem Fusing.strictlyBefore {bank : Bank ρ} {g0 g : Graph ρ} {names : NodeKey -> NodeKey}
    {fused : List (Vertex ρ)} {before : NodeKey -> NodeKey -> Prop}
    (h : Fusing bank g0 names fused g) (hg : g0.Sound)
    (hordered : Ordered g0 g0.pendingKeys names before) {u v : NodeKey} {s : State}
    (hu : u ∈ g.pendingKeys) (he : g.Enters u v s) : StrictlyBefore g0 names before u v := by
  rcases (h.enters_iff u v s).mp he with ⟨hne, x, y, hxy, rfl, rfl⟩
  have hy := hg.wired.target_pending x y s hxy
  have hx : x ∈ g0.pendingKeys := by
    by_cases hself : names x = x
    · rw [hself] at hu
      rcases h.mem_pendingKeys.mp hu with hx | hx
      · exact hx
      · rcases List.mem_map.mp hx with ⟨w, hw, heq⟩
        exact absurd (heq ▸ hg.wired.source_mem hxy) (h.fresh w hw)
    · exact (h.named x hself).left
  refine ⟨x, y, hx, hy, rfl, rfl, hordered.contains_edge x y s hx hy hxy, ?_⟩
  intro hback
  exact hne (hordered.kernel x y (hordered.contains_edge x y s hx hy hxy) hback)

theorem Fusing.acyclic {bank : Bank ρ} {g0 g g' : Graph ρ} {names : NodeKey -> NodeKey}
    {fused : List (Vertex ρ)} {before : NodeKey -> NodeKey -> Prop} {doomed : List NodeKey}
    (h : Fusing bank g0 names fused g) (hg : g0.Sound)
    (hordered : Ordered g0 g0.pendingKeys names before) (hdeleted : g.Deleted doomed g')
    (henters : forall u v s, g'.Enters u v s ↔ g.Enters u v s) (k : NodeKey) :
    ¬Relation.TransGen g'.Precedes k k := by
  intro hcycle
  have hstep : forall u v, g'.Precedes u v -> StrictlyBefore g0 names before u v := by
    rintro u v ⟨hu, s, he⟩
    exact h.strictlyBefore hg hordered (hdeleted.mem_pendingKeys.mp hu).left
      ((henters u v s).mp he)
  have hstrict : StrictlyBefore g0 names before k k := by
    have hlift : forall u v, Relation.TransGen g'.Precedes u v ->
        StrictlyBefore g0 names before u v := by
      intro u v huv
      induction huv with
      | single huv => exact hstep _ _ huv
      | tail _ hvw ih => exact hordered.strictlyBefore_trans ih (hstep _ _ hvw)
    exact hlift k k hcycle
  exact hordered.strictlyBefore_irrefl k hstrict

/-!
## The whole pass
-/

def namedNodes (g0 : Graph ρ) (names : NodeKey -> NodeKey) (k : NodeKey) : List (Vertex ρ) :=
  g0.pending.filter fun u => decide (names u.key = k)

theorem Fusing.fusedFrom {bank : Bank ρ} {g0 g g' : Graph ρ} {names : NodeKey -> NodeKey}
    {fused : List (Vertex ρ)} {doomed : List NodeKey} (h : Fusing bank g0 names fused g)
    (hg : g0.Keyed) (hdeleted : g.Deleted doomed g')
    (hdoomed : forall k, k ∈ doomed ↔ k ∈ g0.pendingKeys ∧ names k ≠ k) {v : Vertex ρ}
    (hv : v ∈ g'.pending) :
    FusedFrom bank ((namedNodes g0 names v.key).map (·.launch)) v.launch := by
  have hmem : (v.key, v.launch) ∈ g'.pending.map (fun v => (v.key, v.launch)) :=
    List.mem_map_of_mem hv
  rw [hdeleted.map_pending fun _ => rfl] at hmem
  rcases List.mem_map.mp hmem with ⟨w, hw, heq⟩
  rcases List.mem_filter.mp hw with ⟨hwg, hwnot⟩
  rcases Prod.mk.inj heq with ⟨hwkey, hwlaunch⟩
  have hpair : (w.key, w.launch) ∈ (g0.pending ++ fused).map (fun v => (v.key, v.launch)) := by
    rw [← map_congr_of_bare (f := fun v : Vertex ρ => (v.key, v.launch)) (fun _ => rfl) h.pending]
    exact List.mem_map_of_mem hwg
  rcases List.mem_map.mp hpair with ⟨u, hu, heq'⟩
  rcases Prod.mk.inj heq' with ⟨hukey, hulaunch⟩
  rw [← hwkey, ← hwlaunch, ← hukey, ← hulaunch]
  rcases List.mem_append.mp hu with hu | hu
  · -- The node was not renamed, and no other node was renamed to it.
    have hself : names u.key = u.key := by
      by_contra hne
      rw [decide_eq_true_iff, ← hukey] at hwnot
      exact hwnot ((hdoomed u.key).mpr ⟨List.mem_map_of_mem hu, hne⟩)
    have halone : namedNodes g0 names u.key = [u] := by
      have hsub : [u].Sublist g0.pending := List.singleton_sublist.mpr hu
      refine Eq.trans (List.filter_congr fun x hx => ?_)
        (filter_map_mem_of_sublist hg.nodup_pending hsub)
      refine decide_eq_decide.mpr ?_
      rw [List.map_singleton, List.mem_singleton]
      constructor
      · intro hxu
        have hx' := h.eq_of_name_mem (hxu ▸ key_mem_keys (mem_vertices_of_pending hu))
        rw [← hx', hxu]
      · intro hxu
        rw [hxu, hself]
    rw [halone]
    exact .single _
  · exact h.parts u hu

/-- The nodes of all names left, in the order of the names, are the nodes that were
pending, in an order that follows the edges. -/
theorem Fusing.regrouped {bank : Bank ρ} {g0 g g1 g2 g' : Graph ρ} {names : NodeKey -> NodeKey}
    {fused order : List (Vertex ρ)} {doomed : List NodeKey} (h : Fusing bank g0 names fused g)
    (hg : g0.Sound) (hf : g0.Forward) (hdeleted : g.Deleted doomed g1)
    (hdoomed : forall k, k ∈ doomed ↔ k ∈ g0.pendingKeys ∧ names k ≠ k)
    (henters : forall u v s, g1.Enters u v s ↔ g.Enters u v s) (hsorted : g1.Sorted order g2)
    (hlaunches : g'.pending.map (·.launch) = g2.pending.map (·.launch)) :
    Regrouped bank g0 g' ((order.map (·.key)).map (namedNodes g0 names)) := by
  have hleft : forall k, k ∈ g0.pendingKeys -> names k ∈ order.map (·.key) := by
    intro k hk
    rw [(hsorted.perm.map fun v : Vertex ρ => v.key).mem_iff]
    exact h.name_left hdoomed hdeleted hk
  have hnodup : (order.map (·.key)).Nodup :=
    (hsorted.perm.map fun v : Vertex ρ => v.key).nodup_iff.mpr hdeleted.sound.keyed.nodup_pending
  have hpending : g0.pending.Nodup := List.Nodup.of_map _ hg.keyed.nodup_pending
  constructor
  · refine perm_flatten_filter hpending hnodup ?_
    intro u hu
    exact hleft u.key (List.mem_map_of_mem hu)
  · have hsame : g'.pending.map (·.launch) = order.map (·.launch) :=
      hlaunches.trans (hsorted.map_pending fun _ _ _ => rfl)
    rw [hsame, List.map_map, List.forall₂_map_left_iff, List.forall₂_map_right_iff,
      List.forall₂_same]
    intro v hv
    exact h.fusedFrom hg.keyed hdeleted hdoomed (hsorted.perm.mem_iff.mp hv)
  · intro u v s hu hv he
    by_cases hsame : names u.key = names v.key
    · -- Both are in one group, which keeps their order.
      have hbefore := (comesBefore_pending hg hf hu hv he).filter
        (p := fun w : Vertex ρ => decide (names w.key = names v.key)) (decide_eq_true hsame)
        (decide_eq_true rfl)
      refine comesBefore_flatten_of_part ?_ hbefore
      exact List.mem_map_of_mem (hleft v.key (List.mem_map_of_mem hv))
    · have he1 : g1.Enters (names u.key) (names v.key) s := by
        rw [henters]
        exact (h.enters_iff _ _ s).mpr ⟨hsame, u.key, v.key, he, rfl, rfl⟩
      have hself : forall k s, ¬g1.Enters k k s := by
        intro k s hk
        exact h.no_self k s ((henters k k s).mp hk)
      have hforward := hsorted.leads_forward hdeleted.sound hself
      have he2 := ((hsorted.sameNodes hdeleted.sound.keyed).enters_iff _ _ s).mpr he1
      have hbefore := hforward _ _ s he2
      have hu' := hleft u.key (List.mem_map_of_mem hu)
      have hv' := hleft v.key (List.mem_map_of_mem hv)
      have horder : ComesBefore (order.map (·.key)) (names u.key) (names v.key) := by
        have hnodup2 := (hsorted.sound hdeleted.sound).keyed.nodup
        rcases ComesBefore.total hu' hv' hsame with hfore | hback
        · exact hfore
        · rw [← hsorted.pendingKeys] at hback
          exact absurd (hback.of_sublist g2.pendingKeys_sublist) (hbefore.asymm hnodup2)
      exact comesBefore_flatten_of_parts horder
        (List.mem_filter.mpr ⟨hu, decide_eq_true rfl⟩)
        (List.mem_filter.mpr ⟨hv, decide_eq_true rfl⟩)

/-- How fusion gets from `g0` to `g'`: fused nodes take over in `g1`, the members of groups
are deleted in `g2`, what is left is put in order in `g3`, and then rebuilt. -/
structure Staged (bank : Bank ρ) (g0 : Graph ρ) (names : NodeKey -> NodeKey)
    (fused : List (Vertex ρ)) (doomed : List NodeKey) (order : List (Vertex ρ))
    (g1 g2 g3 base g' : Graph ρ) : Prop where
  fusing : Fusing bank g0 names fused g1
  deleted : g1.Deleted doomed g2
  mem_doomed : forall k, k ∈ doomed ↔ k ∈ g0.pendingKeys ∧ names k ≠ k
  enters_iff : forall u v s, g2.Enters u v s ↔ g1.Enters u v s
  sorted : g2.Sorted order g3
  extracted : g3.Extracted base
  built : g'.Built base.ownerOrInitial
  bareExecuted : g'.executed.map Vertex.bare = g3.executed.map Vertex.bare
  launches : g'.pending.map (·.launch) = g3.pending.map (·.launch)
  renamed : exists k, names k ≠ k

section Staged

variable {bank : Bank ρ} {g0 g1 g2 g3 base g' : Graph ρ} {names : NodeKey -> NodeKey}
  {fused order : List (Vertex ρ)} {doomed : List NodeKey}
  (h : Staged bank g0 names fused doomed order g1 g2 g3 base g')

include h

theorem Staged.regrouped (hg : g0.Sound) (hf : g0.Forward) :
    Regrouped bank g0 g' ((order.map (·.key)).map (namedNodes g0 names)) :=
  h.fusing.regrouped hg hf h.deleted h.mem_doomed h.enters_iff h.sorted h.launches

theorem Staged.exists_several : exists group,
    group ∈ (order.map (·.key)).map (namedNodes g0 names) ∧ 1 < group.length := by
  rcases h.renamed with ⟨k, hk⟩
  rcases h.fusing.named k hk with ⟨hpending, v, hv, hname⟩
  refine ⟨namedNodes g0 names (names k), List.mem_map_of_mem ?_, ?_⟩
  · rw [(h.sorted.perm.map fun v : Vertex ρ => v.key).mem_iff]
    exact h.fusing.name_left h.mem_doomed h.deleted hpending
  · rw [← hname]
    exact h.fusing.several v hv

end Staged

/-- Fusion goes through for every bank and every window. -/
theorem fuse_staged {g : Graph ρ} (bank : Bank ρ) (hg : g.Sound) (hf : g.Forward) :
    exists g' changed, g.fuse bank = .ok (g', changed) ∧
      ((changed = false ∧ g' = g) ∨ (changed = true ∧
        exists names fused doomed order g1 g2 g3 base,
          Staged bank g names fused doomed order g1 g2 g3 base g')) := by
  rcases fuseWindows_ok (Passed.start bank hg hf) hg hf (Nat.zero_le _)
    with ⟨names, fused, before, ⟨g1, positions⟩, hrun, ⟨hfusing, _, hordered, hpositions⟩, _, hsame⟩
  rw [List.take_length] at hordered
  by_cases hempty : positions.isEmpty = true
  · have hnotmem : forall p, p ∉ positions := by
      intro p hp
      rw [OrderedSet.mem_def, List.isEmpty_iff.mp hempty] at hp
      cases hp
    refine ⟨g1, false, ?_, Or.inl ⟨rfl, hsame hnotmem⟩⟩
    rw [fuse, pendingCount, hrun, ok_bind]
    show (if positions.isEmpty = true then _ else _) = _
    rw [if_pos hempty]
    rfl
  · rcases hfusing.delete_ok hpositions with ⟨doomed, g2, hdelete, hdeleted, hdoomed, henters⟩
    have hself2 : forall k s, ¬g2.Enters k k s := by
      intro k s hk
      exact hfusing.no_self k s ((henters k k s).mp hk)
    rcases sortPending_ok hdeleted.sound (hfusing.acyclic hg hordered hdeleted henters)
      with ⟨order, g3, hsort, hsorted⟩
    rcases rebuild_built (hsorted.sound hdeleted.sound)
      (hsorted.leads_forward hdeleted.sound hself2)
      with ⟨g4, base, hrebuild, hextracted, hbuilt, hbare, hlaunches, _⟩
    have hrenamed : exists k, names k ≠ k := by
      rcases List.exists_mem_of_ne_nil _ fun hnil => hempty (List.isEmpty_iff.mpr hnil)
        with ⟨p, hp⟩
      rcases (hpositions p).mp hp with ⟨u, _, hne, _⟩
      exact ⟨u.key, hne⟩
    refine ⟨g4, true, ?_, Or.inr ⟨rfl, names, fused, doomed, order, g1, g2, g3, base, hfusing,
      hdeleted, hdoomed, henters, hsorted, hextracted, hbuilt, hbare, hlaunches, hrenamed⟩⟩
    have hrebuild' : g2.rebuild true = .ok g4 := by
      rw [rebuild, if_pos rfl, hsort]
      exact hrebuild
    rw [fuse, pendingCount, hrun, ok_bind]
    show (if positions.isEmpty = true then _ else _) = _
    rw [if_neg hempty, hdelete, ok_bind, hrebuild']
    rfl

theorem fuse_ok {g : Graph ρ} (bank : Bank ρ) (hg : g.Sound) (hf : g.Forward) :
    exists g' changed groups, g.fuse bank = .ok (g', changed) ∧ g.Rebuilt g' ∧
      Regrouped bank g g' groups := by
  rcases fuse_staged bank hg hf
    with ⟨g', changed, hrun, ⟨_, rfl⟩ | ⟨_, _, _, _, order, _, _, _, _, hstaged⟩⟩
  · exact ⟨_, changed, _, hrun, Or.inl rfl, Regrouped.refl bank hg hf⟩
  · exact ⟨g', changed, _, hrun, Or.inr ⟨_, hstaged.built⟩, hstaged.regrouped hg hf⟩

theorem FusedFrom.renews {bank : Bank ρ} {launches : List (Option ρ × Task)}
    {p : Option ρ × Task} (h : FusedFrom bank launches p) :
    p ∈ launches ∨ exists record, p = (some record, (bank.describe record).task) := by
  cases h with
  | single => exact Or.inl (List.mem_singleton.mpr rfl)
  | fuse => exact Or.inr ⟨_, rfl⟩

theorem Regrouped.renews {bank : Bank ρ} {g g' : Graph ρ} {groups : List (List (Vertex ρ))}
    (h : Regrouped bank g g' groups) : g.Renews bank g' := by
  intro v hv
  rcases exists_of_forall₂_right h.fused v.launch (List.mem_map_of_mem hv)
    with ⟨group, hgroup, hfused⟩
  rcases FusedFrom.renews hfused with hold | ⟨record, heq⟩
  · rcases List.mem_map.mp hold with ⟨u, hu, hlaunch⟩
    exact Or.inl ⟨u, h.perm.subset (List.mem_flatten.mpr ⟨group, hgroup, hu⟩), hlaunch⟩
  · rcases Prod.mk.inj heq with ⟨hrecord, htask⟩
    exact Or.inr ⟨record, hrecord, htask⟩

/-!
## Paths
-/

def Connects (g : Graph ρ) (u v : NodeKey) : Prop := exists s, g.Enters u v s

theorem Built.path_of_conflict {g : Graph ρ} {origin : State -> NodeKey} (hg : g.Built origin)
    {x y : Entry} (hxy : ComesBefore g.entries x y) {t : State} (hconflict : Conflict x y t) :
    Relation.TransGen g.Connects x.key y.key := by
  rcases hxy.exists_split with ⟨a, b, c, hsplit⟩
  have hconnects : forall k l, (exists s, CallsFor origin g.entries k l s) -> g.Connects k l := by
    rintro k l ⟨s, hs⟩
    exact ⟨s, (hg.enters_iff k l s).mpr hs⟩
  exact Relation.TransGen.mono hconnects _ _ (LaunchGraph.path_of_conflict hsplit hconflict)

theorem target_pending_of_path {g : Graph ρ} (hg : g.Sound) {u v : NodeKey}
    (h : Relation.TransGen g.Connects u v) : v ∈ g.pendingKeys := by
  cases h with
  | single hlink =>
      rcases hlink with ⟨s, hs⟩
      exact hg.wired.target_pending _ _ s hs
  | tail _ hlink =>
      rcases hlink with ⟨s, hs⟩
      exact hg.wired.target_pending _ _ s hs

theorem Regrouped.of_path {bank : Bank ρ} {g g' : Graph ρ} {groups : List (List (Vertex ρ))}
    (h : Regrouped bank g g' groups) (hg : g.Sound) {u v : Vertex ρ} (hu : u ∈ g.pending)
    (hv : v ∈ g.pending) (hpath : Relation.TransGen g.Connects u.key v.key) :
    ComesBefore groups.flatten u v := by
  have hnodup : groups.flatten.Nodup := by
    have hpending : g.pending.Nodup := hg.keyed.nodup_pending.of_map _
    exact h.perm.nodup_iff.mpr hpending
  have key : forall k, Relation.TransGen g.Connects u.key k ->
      forall w, w ∈ g.pending -> w.key = k -> ComesBefore groups.flatten u w := by
    intro k hk
    induction hk with
    | single hlink =>
        rintro w hw rfl
        rcases hlink with ⟨s, hs⟩
        exact h.ordered u w s hu hw hs
    | @tail j k hj hlink ih =>
        rintro w hw rfl
        rcases hlink with ⟨s, hs⟩
        rcases exists_pending (target_pending_of_path hg hj) with ⟨x, hx, rfl⟩
        exact (ih x hx rfl).trans hnodup (h.ordered x w s hx hw hs)
  exact key v.key hpath v hv rfl

end Graph
end LaunchGraph
