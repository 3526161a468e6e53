import LaunchGraph.Proofs.Graph.Insert
import LaunchGraph.Proofs.Graph.Redirect
import LaunchGraph.Proofs.Graph.Window
import LaunchGraph.Proofs.Pass.Grouping
import LaunchGraph.Proofs.Pass.Relaunch

/-!
# Putting fused nodes in the place of groups

A fused node comes in at the end of the sequence and takes over whatever names a
member of its group.  While this happens the edges need not lead forward.  What stays
true is that the graph is the original one with other names: every edge is an original
edge whose ends were renamed.
-/

namespace LaunchGraph

def collapse (ks : List NodeKey) (fused k : NodeKey) : NodeKey := if k ∈ ks then fused else k

theorem collapse_of_mem {ks : List NodeKey} {fused k : NodeKey} (h : k ∈ ks) :
    collapse ks fused k = fused := if_pos h

theorem collapse_of_not_mem {ks : List NodeKey} {fused k : NodeKey} (h : k ∉ ks) :
    collapse ks fused k = k := if_neg h

theorem rename_collapse (ks : List NodeKey) (a fused k : NodeKey) :
    rename a fused (collapse ks fused k) = collapse (ks ++ [a]) fused k := by
  by_cases hk : k ∈ ks
  · rw [collapse_of_mem hk, collapse_of_mem (List.mem_append_left _ hk), rename, ite_self]
  · by_cases hka : k = a
    · subst hka
      rw [collapse_of_not_mem hk, rename_self, collapse_of_mem (by simp)]
    · rw [collapse_of_not_mem hk, rename_of_ne hka, collapse_of_not_mem (by simp [hk, hka])]

namespace Graph

variable {ρ : Type}

/-!
## The fused node
-/

theorem Sound.withArrival {g : Graph ρ} (h : g.Sound) (n : Node ρ) : (g.withArrival n).Sound := by
  refine ⟨h.keyed.withArrival n, h.numbered.withArrival n, ⟨?_, ?_⟩, ⟨?_, ?_, ?_⟩⟩
  · intro u v s
    rw [leaves_withArrival h.keyed, enters_withArrival h.keyed, h.wired.mirrored]
  · intro u v s huv
    rw [enters_withArrival h.keyed] at huv
    rw [pendingKeys_withArrival]
    exact List.mem_append_left _ (h.wired.target_pending u v s huv)
  · intro s k hk
    rw [keys_withArrival]
    exact List.mem_append_left _ (h.owned.owner_mem s k hk)
  · intro s k hk hnot
    rw [pendingKeys_withArrival, List.mem_append, not_or] at hnot
    exact writesAt_withArrival h.keyed (h.owned.executed_writes s k hk hnot.left)
  · intro s k hk
    rw [pendingKeys_withArrival]
    exact List.mem_append_left _ (h.owned.readers_pending s k hk)

theorem Linked.withArrival {g : Graph ρ} (h : g.Linked) (n : Node ρ) :
    (g.withArrival n).Linked := by
  refine ⟨h.keyed.withArrival n, h.numbered.withArrival n, ?_⟩
  intro u v s
  rw [leaves_withArrival h.keyed, enters_withArrival h.keyed, h.mirrored]

structure Joined (g : Graph ρ) (v : Vertex ρ) (g1 : Graph ρ) : Prop where
  linked : g1.Linked
  sound : g.Sound -> g1.Sound
  key : v.key = g.freshKey
  executed : g1.executed = g.executed
  pending : g1.pending = g.pending ++ [v]
  owners : g1.owners = g.owners
  window : g1.window = g.window
  enters_iff : forall u v s, g1.Enters u v s ↔ g.Enters u v s

theorem appendFused_joined {g : Graph ρ} (hg : g.Linked) (group : FusionGroup ρ) :
    exists v g1, g.appendFused group = (g1, g.freshKey) ∧ g.Joined v g1 ∧
      v.launch = (some group.record, group.description.task) := by
  rcases g.newNodeOf_eq group.record group.description
    with ⟨launches, serial, n, hn, hplain, hlaunch⟩
  -- The fused node arrives as any other one, but with the age of its oldest member.
  let g2 : Graph ρ :=
    { g.withCounts launches g.currentLists serial g.window with nextSeq := group.seq }
  have hlinked : g2.Linked := (hg.withCounts launches _ serial _).with_nextSeq group.seq
  let g1 : Graph ρ := { g2.withArrival n with nextSeq := g.nextSeq }
  have hlinked1 : g1.Linked := (hlinked.withArrival n).with_nextSeq _
  have hsound1 : g.Sound -> g1.Sound := by
    intro hs
    have hsound : g2.Sound := (hs.withCounts launches _ serial _).with_nextSeq group.seq
    exact (hsound.withArrival n).with_nextSeq _
  have hsame : ({ n with seq := group.seq } : Node ρ)
      = { n.disconnected with isInitial := false, seq := group.seq } :=
    congrArg (fun m : Node ρ => ({ m with seq := group.seq } : Node ρ)) hplain.symm
  refine ⟨g2.arrivalVertex n, g1, ?_, ⟨hlinked1, hsound1, rfl, rfl, rfl, rfl, rfl, ?_⟩, hlaunch⟩
  · rw [appendFused, hn]
    show (g.withCounts launches g.currentLists serial g.window).append
      { n with seq := group.seq } = _
    rw [hsame]
    rfl
  · intro u v s
    exact enters_withArrival hlinked.keyed n u v s

/-!
## Renamed graphs
-/

theorem Renamed.sound {g g' : Graph ρ} {names : NodeKey -> NodeKey} (h : g.Renamed names g')
    (hg : g.Sound) (hnames : forall k, names k = k ∨ names k ∈ g.pendingKeys) : g'.Sound := by
  have hpending : forall k, k ∈ g.pendingKeys -> names k ∈ g.pendingKeys := by
    intro k hk
    rcases hnames k with heq | hmem
    · rw [heq]
      exact hk
    · exact hmem
  refine hg.of_skeleton h.skeleton h.mirrored ?_ ?_ ?_
  · intro u v s huv
    rcases (h.enters_iff u v s).mp huv with ⟨_, x, y, he, _, rfl⟩
    exact hpending y (hg.wired.target_pending x y s he)
  · intro s k hk
    rw [h.owners_get] at hk
    rcases Option.map_eq_some_iff.mp hk with ⟨j, hj, rfl⟩
    rcases hnames j with heq | hmem
    · rw [heq]
      exact ⟨hg.owned.owner_mem s j hj, hg.owned.executed_writes s j hj⟩
    · exact ⟨pendingKeys_subset hmem, fun hnot => absurd hmem hnot⟩
  · intro s k hk
    rcases (h.mem_readers s k).mp hk with ⟨j, hj, rfl⟩
    exact hpending j (hg.owned.readers_pending s j hj)

theorem replaceMember_ok {g g1 : Graph ρ} {names : NodeKey -> NodeKey} (h : g.Renamed names g1)
    (hg : g.Keyed) {fused : NodeKey} (hfused : fused ∈ g.keys) {u : Vertex ρ} (hu : u ∈ g.pending)
    (hne : u.key ≠ fused) (positions : OrderedSet Nat) :
    exists g2, g1.replaceMember fused positions u.key = .ok (g2, positions.insert u.nodeId) ∧
      g.Renamed (fun k => rename u.key fused (names k)) g2 := by
  have hkeys := keys_congr h.skeleton
  have hu1 : u.key ∈ g1.keys := by
    rw [hkeys]
    exact key_mem_keys (mem_vertices_of_pending hu)
  have hfused1 : fused ∈ g1.keys := by
    rw [hkeys]
    exact hfused
  rcases exists_find? hu1 with ⟨w, hw⟩
  have hnodeId : w.nodeId = u.nodeId := by
    have hbare := find?_bare_congr h.skeleton u.key
    rw [hw, hg.find?_pending hu] at hbare
    exact Vertex.nodeId_eq_of_bare_eq (Option.some.inj hbare)
  rcases redirect_ok h.mirrored h.no_self hne hu1 hfused1 with ⟨g2, hg2, h2⟩
  refine ⟨g2, ?_, h.trans h2⟩
  rw [replaceMember, find_ok hw, ok_bind, hg2, hnodeId]
  rfl

def PlaceOf (g : Graph ρ) (ks : List NodeKey) (p : Nat) : Prop :=
  exists v, v ∈ g.pending ∧ v.key ∈ ks ∧ v.nodeId = p

theorem not_placeOf_nil (g : Graph ρ) (p : Nat) : ¬g.PlaceOf [] p := by
  rintro ⟨v, _, hin, _⟩
  cases hin

theorem placeOf_append {g : Graph ρ} {ks ls : List NodeKey} {p : Nat} :
    g.PlaceOf (ks ++ ls) p ↔ g.PlaceOf ks p ∨ g.PlaceOf ls p := by
  constructor
  · rintro ⟨v, hv, hin, hp⟩
    rcases List.mem_append.mp hin with hin | hin
    · exact Or.inl ⟨v, hv, hin, hp⟩
    · exact Or.inr ⟨v, hv, hin, hp⟩
  · rintro (⟨v, hv, hin, hp⟩ | ⟨v, hv, hin, hp⟩)
    · exact ⟨v, hv, List.mem_append_left _ hin, hp⟩
    · exact ⟨v, hv, List.mem_append_right _ hin, hp⟩

theorem placeOf_singleton {g : Graph ρ} (hg : g.Keyed) {u : Vertex ρ} (hu : u ∈ g.pending)
    {p : Nat} : g.PlaceOf [u.key] p ↔ p = u.nodeId := by
  constructor
  · rintro ⟨v, hv, hin, rfl⟩
    rw [hg.eq_of_key (mem_vertices_of_pending hv) (mem_vertices_of_pending hu)
      (List.mem_singleton.mp hin)]
  · rintro rfl
    exact ⟨u, hu, List.mem_singleton.mpr rfl, rfl⟩

/-- Handing several nodes over to one collapses their keys. -/
theorem replaceMembers_ok {g : Graph ρ} (hg : g.Linked) (hself : forall k s, ¬g.Enters k k s)
    {fused : NodeKey} (hfused : fused ∈ g.keys) {members : List (Vertex ρ)}
    (hmembers : forall v, v ∈ members -> v.key ∈ g.pendingKeys ∧ v.key ≠ fused)
    (positions : OrderedSet Nat) :
    exists r : Graph ρ × OrderedSet Nat,
      members.foldlM (fun r v => r.1.replaceMember fused r.2 v.key) (g, positions) = .ok r ∧
      g.Renamed (collapse (members.map (·.key)) fused) r.1 ∧
      forall p, p ∈ r.2 ↔ p ∈ positions ∨ g.PlaceOf (members.map (·.key)) p := by
  refine foldlM_ok_of_step (fun (done : List (Vertex ρ)) (r : Graph ρ × OrderedSet Nat) =>
    g.Renamed (collapse (done.map (·.key)) fused) r.1 ∧
      forall p, p ∈ r.2 ↔ p ∈ positions ∨ g.PlaceOf (done.map (·.key)) p) ?_ ?_
  · rintro done v rest ⟨g1, positions1⟩ hsplit ⟨h1, hpositions1⟩
    rcases hmembers v (by simp [hsplit]) with ⟨hv, hne⟩
    rcases exists_pending hv with ⟨u, hu, huv⟩
    rw [← huv] at hne ⊢
    rcases replaceMember_ok h1 hg.keyed hfused hu hne positions1 with ⟨g2, hrun, h2⟩
    refine ⟨(g2, positions1.insert u.nodeId), hrun, ?_, ?_⟩
    · have hnames : (fun k => rename u.key fused (collapse (done.map (·.key)) fused k))
          = collapse ((done ++ [v]).map (·.key)) fused := by
        funext k
        rw [rename_collapse, List.map_append, List.map_singleton, huv]
      rw [hnames] at h2
      exact h2
    · intro p
      rw [OrderedSet.mem_insert, hpositions1, List.map_append, List.map_singleton, ← huv,
        placeOf_append, placeOf_singleton hg.keyed hu, or_comm, or_assoc]
  · refine ⟨renamed_refl hg.mirrored hself, ?_⟩
    intro p
    exact (or_iff_left (g.not_placeOf_nil p)).symm

structure Materialized (g : Graph ρ) (ks : List NodeKey) (v : Vertex ρ) (g' : Graph ρ) : Prop where
  linked : g'.Linked
  sound : g.Sound -> g'.Sound
  key : v.key = g.freshKey
  executed : g'.executed.map Vertex.bare = g.executed.map Vertex.bare
  pending : g'.pending.map Vertex.bare = (g.pending ++ [v]).map Vertex.bare
  owners_get : forall s, g'.owners.get? s = (g.owners.get? s).map (collapse ks v.key)
  window : g'.window = g.window
  enters_iff : forall x y s, g'.Enters x y s ↔
    x ≠ y ∧ exists u w, g.Enters u w s ∧ collapse ks v.key u = x ∧ collapse ks v.key w = y

namespace Materialized

variable {g g' : Graph ρ} {ks : List NodeKey} {v : Vertex ρ} (h : g.Materialized ks v g')

include h

theorem fresh (hg : g.Keyed) : v.key ∉ g.keys := by
  rw [h.key]
  exact hg.freshKey_not_mem

theorem executedKeys : g'.executed.map (·.key) = g.executed.map (·.key) :=
  map_congr_of_bare (fun _ => rfl) h.executed

theorem pendingKeys : g'.pendingKeys = g.pendingKeys ++ [v.key] := by
  have hkeys : g'.pendingKeys = (g.pending ++ [v]).map (·.key) :=
    map_congr_of_bare (fun _ => rfl) h.pending
  rw [hkeys, List.map_append]
  rfl

theorem mem_keys {k : NodeKey} : k ∈ g'.keys ↔ k ∈ g.keys ∨ k = v.key := by
  rw [keys_eq_append, h.executedKeys, h.pendingKeys, ← List.append_assoc, ← keys_eq_append,
    List.mem_append, List.mem_singleton]

end Materialized

theorem materialize_ok {g : Graph ρ} (hg : g.Linked) (hself : forall k s, ¬g.Enters k k s)
    {group : FusionGroup ρ} (hmembers : forall k, k ∈ group.keys -> k ∈ g.pendingKeys)
    (positions : OrderedSet Nat) :
    exists v g' positions', g.materialize positions group = .ok (g', positions') ∧
      g.Materialized group.keys v g' ∧
      v.launch = (some group.record, group.description.task) ∧
      forall p, p ∈ positions' ↔ p ∈ positions ∨ g.PlaceOf group.keys p := by
  rcases appendFused_joined hg group with ⟨v, g1, happend, hjoined, hlaunch⟩
  have hpendingKeys : g1.pendingKeys = g.pendingKeys ++ [v.key] := by
    rw [pendingKeys, hjoined.pending, List.map_append]
    rfl
  have hfresh : v.key ∉ g.pendingKeys := by
    rw [hjoined.key]
    exact fun hin => hg.keyed.freshKey_not_mem (pendingKeys_subset hin)
  have hfused : v.key ∈ g1.pendingKeys := by
    rw [hpendingKeys]
    simp
  have hself1 : forall k s, ¬g1.Enters k k s := by
    intro k s hk
    exact hself k s ((hjoined.enters_iff k k s).mp hk)
  have hmembers1 : forall w, w ∈ group.members -> w.key ∈ g1.pendingKeys ∧ w.key ≠ v.key := by
    intro w hw
    have hpending := hmembers w.key (List.mem_map_of_mem hw)
    rw [hpendingKeys]
    refine ⟨List.mem_append_left _ hpending, ?_⟩
    intro heq
    exact hfresh (heq ▸ hpending)
  rcases replaceMembers_ok hjoined.linked hself1 (pendingKeys_subset hfused) hmembers1 positions
    with ⟨⟨g', positions'⟩, hrun, hrenamed, hpositions⟩
  have hsound : g.Sound -> g'.Sound := by
    intro hs
    refine hrenamed.sound (hjoined.sound hs) fun k => ?_
    rw [collapse]
    split
    · exact Or.inr hfused
    · exact Or.inl rfl
  have hlinked := hjoined.linked.of_skeleton hrenamed.skeleton hrenamed.mirrored
  refine ⟨v, g', positions', ?_, ⟨hlinked, hsound, hjoined.key, ?_, ?_, ?_, ?_, ?_⟩, hlaunch, ?_⟩
  · rw [materialize, happend]
    rw [hjoined.key] at hrun
    exact hrun
  · rw [bareExecuted_congr hrenamed.skeleton, hjoined.executed]
  · rw [barePending_congr hrenamed.skeleton, hjoined.pending]
  · intro s
    rw [hrenamed.owners_get, hjoined.owners]
    rfl
  · have hwindow := congrArg Graph.window hrenamed.skeleton
    exact hwindow.trans hjoined.window
  · intro x y s
    rw [hrenamed.enters_iff]
    simp only [hjoined.enters_iff]
    rfl
  · intro p
    rw [hpositions, PlaceOf, hjoined.pending]
    refine or_congr Iff.rfl (exists_congr fun w => ?_)
    rw [List.mem_append, List.mem_singleton]
    constructor
    · rintro ⟨hw | rfl, hin, rfl⟩
      · exact ⟨hw, hin, rfl⟩
      · exact absurd (hmembers _ hin) hfresh
    · rintro ⟨hw, hin, rfl⟩
      exact ⟨Or.inl hw, hin, rfl⟩

/-!
## Nodes put in so far
-/

/-- The graph `g` is `g0` with the nodes in `fused` at its end, where `names k` is named
in the place of every key `k`. -/
structure Fusing (bank : Bank ρ) (g0 : Graph ρ) (names : NodeKey -> NodeKey)
    (fused : List (Vertex ρ)) (g : Graph ρ) : Prop where
  sound : g.Sound
  executed : g.executed.map Vertex.bare = g0.executed.map Vertex.bare
  pending : g.pending.map Vertex.bare = (g0.pending ++ fused).map Vertex.bare
  owners_get : forall s, g.owners.get? s = (g0.owners.get? s).map names
  window : g.window = g0.window
  enters_iff : forall u v s, g.Enters u v s ↔
    u ≠ v ∧ exists x y, g0.Enters x y s ∧ names x = u ∧ names y = v
  named : forall k, names k ≠ k -> k ∈ g0.pendingKeys ∧ exists v, v ∈ fused ∧ v.key = names k
  fresh : forall v, v ∈ fused -> v.key ∉ g0.keys
  parts : forall v, v ∈ fused -> FusedFrom bank
    ((g0.pending.filter fun u => decide (names u.key = v.key)).map (·.launch)) v.launch
  several : forall v, v ∈ fused ->
    1 < (g0.pending.filter fun u => decide (names u.key = v.key)).length

theorem filter_map_mem_of_sublist {α κ : Type} [DecidableEq κ] {f : α -> κ} {l m : List α}
    (hl : (l.map f).Nodup) (h : m.Sublist l) :
    l.filter (fun a => decide (f a ∈ m.map f)) = m := by
  have hself : m.filter (fun a => decide (f a ∈ m.map f)) = m :=
    List.filter_eq_self.mpr fun a ha => decide_eq_true (List.mem_map_of_mem ha)
  have hsub := h.filter fun a => decide (f a ∈ m.map f)
  rw [hself] at hsub
  have hnodup := List.Nodup.of_map f hl
  have hperm : m.Perm (l.filter fun a => decide (f a ∈ m.map f)) := by
    rw [List.perm_ext_iff_of_nodup (hnodup.sublist h) (hnodup.filter _)]
    intro a
    rw [List.mem_filter, decide_eq_true_iff]
    constructor
    · intro ha
      exact ⟨h.subset ha, List.mem_map_of_mem ha⟩
    · rintro ⟨ha, hin⟩
      rcases List.mem_map.mp hin with ⟨b, hb, heq⟩
      rw [← List.inj_on_of_nodup_map hl (h.subset hb) ha heq]
      exact hb
  exact (hsub.eq_of_length hperm.length_eq).symm

namespace Fusing

variable {bank : Bank ρ} {g0 g : Graph ρ} {names : NodeKey -> NodeKey} {fused : List (Vertex ρ)}

theorem refl (bank : Bank ρ) (hg : g0.Sound) (hself : forall k s, ¬g0.Enters k k s) :
    Fusing bank g0 (fun k => k) [] g0 := by
  refine ⟨hg, rfl, by rw [List.append_nil], ?_, rfl, ?_, ?_, ?_, ?_, ?_⟩
  · intro s
    rw [Option.map_id']
  · exact (renamed_refl hg.wired.mirrored hself).enters_iff
  · intro k hk
    exact absurd rfl hk
  · intro v hv
    cases hv
  · intro v hv
    cases hv
  · intro v hv
    cases hv

theorem keys (h : Fusing bank g0 names fused g) : g.keys = g0.keys ++ fused.map (·.key) := by
  have hexecuted : g.executed.map (·.key) = g0.executed.map (·.key) :=
    map_congr_of_bare (fun _ => rfl) h.executed
  have hpending : g.pendingKeys = (g0.pending ++ fused).map (·.key) :=
    map_congr_of_bare (fun _ => rfl) h.pending
  rw [keys_eq_append, keys_eq_append, hexecuted, hpending, List.map_append, List.append_assoc]
  rfl

theorem mem_pendingKeys (h : Fusing bank g0 names fused g) {k : NodeKey} :
    k ∈ g.pendingKeys ↔ k ∈ g0.pendingKeys ∨ k ∈ fused.map (·.key) := by
  have hpending : g.pendingKeys = (g0.pending ++ fused).map (·.key) :=
    map_congr_of_bare (fun _ => rfl) h.pending
  rw [hpending, List.map_append, List.mem_append]
  exact Iff.rfl

theorem no_self (h : Fusing bank g0 names fused g) (k : NodeKey) (s : State) :
    ¬g.Enters k k s := by
  intro hk
  exact ((h.enters_iff k k s).mp hk).left rfl

theorem eq_of_name_mem (h : Fusing bank g0 names fused g) {k : NodeKey}
    (hk : names k ∈ g0.keys) : names k = k := by
  by_contra hne
  rcases (h.named k hne).right with ⟨v, hv, heq⟩
  exact h.fresh v hv (heq ▸ hk)

theorem name_mem (h : Fusing bank g0 names fused g) {k : NodeKey} (hk : k ∈ g0.keys) :
    names k ∈ g.keys := by
  rw [h.keys, List.mem_append]
  by_cases heq : names k = k
  · rw [heq]
    exact Or.inl hk
  · rcases (h.named k heq).right with ⟨v, hv, hvk⟩
    exact Or.inr (hvk ▸ List.mem_map_of_mem hv)

theorem filter_collapse (h : Fusing bank g0 names fused g) (hg : g0.Keyed)
    {members : List (Vertex ρ)}
    (hsub : (members.map Vertex.bare).Sublist (g0.pending.map Vertex.bare))
    (hids : forall k, k ∈ members.map (·.key) -> names k = k) {v : NodeKey} (hv : v ∉ g.keys) :
    (g0.pending.filter fun u =>
        decide (collapse (members.map (·.key)) v (names u.key) = v)).map (·.launch)
      = members.map (·.launch) := by
  have hmem : forall k, k ∈ members.map (·.key) -> k ∈ g0.keys := by
    intro k hk
    have hkeys := (hsub.map fun v : Vertex ρ => v.key).subset (a := k)
    rw [List.map_map, List.map_map] at hkeys
    exact pendingKeys_subset (hkeys hk)
  have hiff : forall u, u ∈ g0.pending ->
      (collapse (members.map (·.key)) v (names u.key) = v ↔ u.key ∈ members.map (·.key)) := by
    intro u hu
    constructor
    · intro heq
      by_cases hin : names u.key ∈ members.map (·.key)
      · rw [h.eq_of_name_mem (hmem _ hin)] at hin
        exact hin
      · rw [collapse_of_not_mem hin] at heq
        exact absurd (heq ▸ h.name_mem (key_mem_keys (mem_vertices_of_pending hu))) hv
    · intro hin
      rw [hids _ hin, collapse_of_mem hin]
  have hbare : (g0.pending.filter fun u =>
      decide (collapse (members.map (·.key)) v (names u.key) = v)).map Vertex.bare
        = members.map Vertex.bare := by
    have hnodup : ((g0.pending.map Vertex.bare).map (·.key)).Nodup := by
      rw [List.map_map]
      exact hg.nodup_pending
    have hfilter := filter_map_mem_of_sublist hnodup hsub
    rw [List.filter_map] at hfilter
    refine Eq.trans (congrArg (List.map Vertex.bare) (List.filter_congr fun u hu => ?_)) hfilter
    rw [Function.comp_apply, List.map_map]
    exact decide_eq_decide.mpr (hiff u hu)
  exact map_congr_of_bare (fun _ => rfl) hbare

theorem filter_collapse_of_fused (h : Fusing bank g0 names fused g) {ks : List NodeKey}
    (hks : forall k, k ∈ ks -> k ∈ g0.pendingKeys) {v : NodeKey} (hv : v ∉ g.keys) {w : Vertex ρ}
    (hw : w ∈ fused) : (g0.pending.filter fun u => decide (collapse ks v (names u.key) = w.key))
      = g0.pending.filter fun u => decide (names u.key = w.key) := by
  refine List.filter_congr fun u _ => ?_
  by_cases hin : names u.key ∈ ks
  · have hwkeys : w.key ∈ g.keys := by
      rw [h.keys]
      exact List.mem_append_right _ (List.mem_map_of_mem hw)
    have hne : v ≠ w.key := fun heq => hv (heq ▸ hwkeys)
    have hne' : names u.key ≠ w.key :=
      fun heq => h.fresh w hw (heq ▸ pendingKeys_subset (hks _ hin))
    rw [collapse_of_mem hin, decide_eq_false hne, decide_eq_false hne']
  · rw [collapse_of_not_mem hin]

theorem extend (h : Fusing bank g0 names fused g) (hg : g0.Keyed) {members : List (Vertex ρ)}
    {v : Vertex ρ} {g' : Graph ρ} (hm : g.Materialized (members.map (·.key)) v g')
    (hfused : FusedFrom bank (members.map (·.launch)) v.launch)
    (hseveral : 1 < members.length)
    (hsub : (members.map Vertex.bare).Sublist (g0.pending.map Vertex.bare))
    (hids : forall k, k ∈ members.map (·.key) -> names k = k) :
    Fusing bank g0 (fun k => collapse (members.map (·.key)) v.key (names k)) (fused ++ [v]) g' := by
  have hfresh := hm.fresh h.sound.keyed
  have hmem : forall k, k ∈ members.map (·.key) -> k ∈ g0.pendingKeys := by
    intro k hk
    have hkeys := (hsub.map fun v : Vertex ρ => v.key).subset (a := k)
    rw [List.map_map, List.map_map] at hkeys
    exact hkeys hk
  refine ⟨hm.sound h.sound, hm.executed.trans h.executed, ?_, ?_, hm.window.trans h.window, ?_, ?_, ?_, ?_,
    ?_⟩
  · rw [hm.pending, List.map_append, h.pending, ← List.map_append, List.append_assoc]
  · intro s
    rw [hm.owners_get, h.owners_get, Option.map_map]
    rfl
  · intro x y s
    rw [hm.enters_iff]
    constructor
    · rintro ⟨hne, u, w, he, rfl, rfl⟩
      rcases (h.enters_iff u w s).mp he with ⟨_, u', w', he', rfl, rfl⟩
      exact ⟨hne, u', w', he', rfl, rfl⟩
    · rintro ⟨hne, u, w, he, rfl, rfl⟩
      refine ⟨hne, names u, names w, (h.enters_iff _ _ s).mpr ⟨?_, u, w, he, rfl, rfl⟩, rfl, rfl⟩
      intro heq
      exact hne (congrArg (collapse (members.map (·.key)) v.key) heq)
  · intro k hk
    by_cases hin : names k ∈ members.map (·.key)
    · have heq := h.eq_of_name_mem (pendingKeys_subset (hmem _ hin))
      refine ⟨hmem k (heq ▸ hin), v, by simp, ?_⟩
      rw [collapse_of_mem hin]
    · rw [collapse_of_not_mem hin] at hk ⊢
      rcases h.named k hk with ⟨hpending, w, hw, heq⟩
      exact ⟨hpending, w, List.mem_append_left _ hw, heq⟩
  · intro w hw
    rcases List.mem_append.mp hw with hw | hw
    · exact h.fresh w hw
    · rw [List.mem_singleton.mp hw]
      intro hin
      refine hfresh ?_
      rw [h.keys]
      exact List.mem_append_left _ hin
  · intro w hw
    rcases List.mem_append.mp hw with hw | hw
    · rw [h.filter_collapse_of_fused hmem hfresh hw]
      exact h.parts w hw
    · rw [List.mem_singleton.mp hw, h.filter_collapse hg hsub hids hfresh]
      exact hfused
  · intro w hw
    rcases List.mem_append.mp hw with hw | hw
    · rw [h.filter_collapse_of_fused hmem hfresh hw]
      exact h.several w hw
    · rw [List.mem_singleton.mp hw,
        length_eq_of_map_eq (h.filter_collapse hg hsub hids hfresh)]
      exact hseveral

end Fusing

/-!
## One window
-/

/-- The names `names'` are `names` with every group collapsed to a key of its own. -/
structure Assigned (g0 : Graph ρ) (names : NodeKey -> NodeKey) (groups : List (FusionGroup ρ))
    (names' : NodeKey -> NodeKey) : Prop where
  other : forall k, (forall group, group ∈ groups -> k ∉ group.keys) -> names' k = names k
  joined : forall group, group ∈ groups -> forall u v, u ∈ group.keys -> v ∈ group.keys ->
    names' u = names' v
  moved : forall group, group ∈ groups -> forall u, u ∈ group.keys -> names' u ≠ u
  apart : forall group, group ∈ groups -> forall u v, u ∈ group.keys -> v ∈ g0.keys ->
    names' v = names' u -> v ∈ group.keys

theorem Assigned.refl (g0 : Graph ρ) (names : NodeKey -> NodeKey) : Assigned g0 names [] names := by
  refine ⟨fun _ _ => rfl, ?_, ?_, ?_⟩
  · intro group hin
    cases hin
  · intro group hin
    cases hin
  · intro group hin
    cases hin

theorem Assigned.extend {bank : Bank ρ} {g0 g : Graph ρ} {names names' : NodeKey -> NodeKey}
    {groups : List (FusionGroup ρ)} {fused : List (Vertex ρ)} (h : Assigned g0 names groups names')
    (hf : Fusing bank g0 names' fused g) {group : FusionGroup ρ} {v : NodeKey}
    (hmem : forall k, k ∈ group.keys -> k ∈ g0.keys) (hids : forall k, k ∈ group.keys -> names' k = k)
    (hfresh : v ∉ g.keys) :
    Assigned g0 names (groups ++ [group]) (fun k => collapse group.keys v (names' k)) := by
  have hout : forall k, names' k ∈ group.keys -> k ∈ group.keys := by
    intro k hk
    rw [hf.eq_of_name_mem (hmem _ hk)] at hk
    exact hk
  have hold : forall d, d ∈ groups -> forall u, u ∈ d.keys -> names' u ∉ group.keys := by
    intro d hd u hu hin
    exact h.moved d hd u hu (hids u (hout u hin))
  have hv : v ∉ g0.keys := by
    intro hin
    refine hfresh ?_
    rw [hf.keys]
    exact List.mem_append_left _ hin
  constructor
  · intro k hk
    have hnot : names' k ∉ group.keys := fun hin => hk group (by simp) (hout k hin)
    rw [collapse_of_not_mem hnot]
    exact h.other k fun d hd => hk d (List.mem_append_left _ hd)
  · intro d hd x y hx hy
    rcases List.mem_append.mp hd with hd | hd
    · rw [h.joined d hd x y hx hy]
    · rw [List.mem_singleton.mp hd] at hx hy
      rw [hids x hx, hids y hy, collapse_of_mem hx, collapse_of_mem hy]
  · intro d hd x hx
    rcases List.mem_append.mp hd with hd | hd
    · rw [collapse_of_not_mem (hold d hd x hx)]
      exact h.moved d hd x hx
    · rw [List.mem_singleton.mp hd] at hx
      rw [hids x hx, collapse_of_mem hx]
      rintro rfl
      exact hv (hmem _ hx)
  · intro d hd x y hx hy heq
    rcases List.mem_append.mp hd with hd | hd
    · rw [collapse_of_not_mem (hold d hd x hx)] at heq
      by_cases hin : names' y ∈ group.keys
      · rw [collapse_of_mem hin] at heq
        refine absurd ?_ hfresh
        rw [heq]
        by_cases hself : names' x = x
        · exact absurd hself (h.moved d hd x hx)
        · rcases (hf.named x hself).right with ⟨w, hw, hwx⟩
          rw [hf.keys, ← hwx]
          exact List.mem_append_right _ (List.mem_map_of_mem hw)
      · rw [collapse_of_not_mem hin] at heq
        exact h.apart d hd x y hx hy heq
    · rw [List.mem_singleton.mp hd] at hx ⊢
      rw [hids x hx, collapse_of_mem hx] at heq
      by_cases hin : names' y ∈ group.keys
      · exact hout y hin
      · rw [collapse_of_not_mem hin] at heq
        exact absurd (heq ▸ hf.name_mem hy) hfresh

theorem Fusing.bareWindow {bank : Bank ρ} {g0 g : Graph ρ} {names : NodeKey -> NodeKey}
    {fused : List (Vertex ρ)} (h : Fusing bank g0 names fused g) {first last : Nat}
    (hlast : last ≤ g0.pending.length) :
    (g.windowOf first last).map Vertex.bare = (g0.windowOf first last).map Vertex.bare := by
  rw [windowOf, windowOf, List.map_drop, List.map_take, h.pending, List.map_append,
    List.take_append_of_le_length (by simpa using hlast), ← List.map_take, ← List.map_drop]

theorem Fusing.keysWindow {bank : Bank ρ} {g0 g : Graph ρ} {names : NodeKey -> NodeKey}
    {fused : List (Vertex ρ)} (h : Fusing bank g0 names fused g) (first : Nat) {last : Nat}
    (hlast : last ≤ g0.pending.length) :
    (g.windowOf first last).map (·.key) = (g0.windowOf first last).map (·.key) :=
  map_congr_of_bare (fun _ => rfl) (h.bareWindow hlast)

/-- Inside of a window without renamed nodes the edges are the original ones. -/
theorem Fusing.enters_window_iff {bank : Bank ρ} {g0 g : Graph ρ} {names : NodeKey -> NodeKey}
    {fused : List (Vertex ρ)} (h : Fusing bank g0 names fused g) (hg : g0.Sound)
    (hf : g0.Forward) {u v : NodeKey} (hu : u ∈ g0.keys) (hv : v ∈ g0.keys) (hnu : names u = u)
    (hnv : names v = v) (s : State) : g.Enters u v s ↔ g0.Enters u v s := by
  rw [h.enters_iff]
  constructor
  · rintro ⟨_, x, y, he, hx, hy⟩
    have hx' := h.eq_of_name_mem (hx ▸ hu)
    have hy' := h.eq_of_name_mem (hy ▸ hv)
    rw [← hx, ← hy, hx', hy']
    exact he
  · intro he
    refine ⟨?_, u, v, he, hnu, hnv⟩
    rintro rfl
    exact ComesBefore.irrefl hg.keyed.nodup (hf u u s he)

theorem fusionGroups_ok {bank : Bank ρ} {g0 g : Graph ρ} {names : NodeKey -> NodeKey}
    {fused : List (Vertex ρ)} (h : Fusing bank g0 names fused g) (hg : g0.Sound)
    (hf : g0.Forward) {first last : Nat} (hfirst : first ≤ last)
    (hlast : last ≤ g0.pending.length)
    (hids : forall v, v ∈ g0.windowOf first last -> names v.key = v.key) :
    exists groups before, g.fusionGroups bank first last = .ok groups ∧
      Grouped bank (g.windowOf first last) (fun u v => exists s, g0.Enters u v s) groups before := by
  have hlast' : last ≤ g.pending.length := by
    have hlength := congrArg List.length h.pending
    rw [List.length_map, List.length_map, List.length_append] at hlength
    omega
  have hkeys := h.keysWindow first hlast
  have hwindow : forall v, v ∈ g.windowOf first last -> v.key ∈ g0.keys ∧ names v.key = v.key := by
    intro v hv
    have hmem : v.key ∈ (g.windowOf first last).map (·.key) := List.mem_map_of_mem hv
    rw [hkeys] at hmem
    rcases List.mem_map.mp hmem with ⟨w, hw, heq⟩
    rw [← heq]
    exact ⟨key_mem_keys (mem_vertices_of_pending (windowOf_subset hw)), hids w hw⟩
  have hedge : forall u v s, u ∈ g.windowOf first last -> v ∈ g.windowOf first last ->
      (g.Enters u.key v.key s ↔ g0.Enters u.key v.key s) := by
    intro u v s hu hv
    exact h.enters_window_iff hg hf (hwindow u hu).left (hwindow v hv).left (hwindow u hu).right
      (hwindow v hv).right s
  have hsublist : ((g.windowOf first last).map (·.key)).Sublist g0.keys := by
    rw [hkeys]
    exact ((g0.windowOf_sublist first last).map _).trans g0.pendingKeys_sublist
  have hnodup := hg.keyed.nodup.sublist hsublist
  have hforward : forall u v s, u ∈ g.windowOf first last -> v ∈ g.windowOf first last ->
      g.Enters u.key v.key s -> ComesBefore ((g.windowOf first last).map (·.key)) u.key v.key := by
    intro u v s hu hv he
    have hbefore := hf u.key v.key s ((hedge u v s hu hv).mp he)
    have hne := hbefore.ne hg.keyed.nodup
    rcases ComesBefore.total (List.mem_map_of_mem (f := (·.key)) hu)
      (List.mem_map_of_mem (f := (·.key)) hv) hne with hfore | hback
    · exact hfore
    · exact absurd (hback.of_sublist hsublist) (hbefore.asymm hg.keyed.nodup)
  rcases reachability_ok h.sound.linked hfirst hlast' hforward with ⟨r, hr, hclosed, hle, hcontains⟩
  have hreach : forall u x v y, (u, x) ∈ (g.windowOf first last).zipIdx ->
      (v, y) ∈ (g.windowOf first last).zipIdx -> (exists s, g0.Enters u.key v.key s) ->
      r.reaches x y = true := by
    rintro u x v y hu hv ⟨s, hs⟩
    exact hcontains u x v y s hu hv
      ((hedge u v s (mem_of_placed hu) (mem_of_placed hv)).mpr hs)
  rcases gather_grouped bank (fun u v => exists s, g0.Enters u v s) hnodup hclosed hle
    hreach with ⟨before, hgrouped⟩
  refine ⟨_, before, ?_, hgrouped⟩
  rw [fusionGroups, pendingRange_ok hfirst hlast', ok_bind, hr]
  rfl

theorem Fusing.exists_place {bank : Bank ρ} {g0 g : Graph ρ} {names : NodeKey -> NodeKey}
    {fused : List (Vertex ρ)} (h : Fusing bank g0 names fused g) {u : Vertex ρ}
    (hu : u ∈ g0.pending) : exists v, v ∈ g.pending ∧ v.key = u.key ∧ v.nodeId = u.nodeId := by
  have hbare : u.bare ∈ (g0.pending ++ fused).map Vertex.bare :=
    List.mem_map_of_mem (List.mem_append_left _ hu)
  rw [← h.pending] at hbare
  rcases List.mem_map.mp hbare with ⟨v, hv, heq⟩
  exact ⟨v, hv, Vertex.key_eq_of_bare_eq heq, Vertex.nodeId_eq_of_bare_eq heq⟩

theorem Fusing.placeOf_iff {bank : Bank ρ} {g0 g : Graph ρ} {names : NodeKey -> NodeKey}
    {fused : List (Vertex ρ)} (h : Fusing bank g0 names fused g) {ks : List NodeKey}
    (hks : forall k, k ∈ ks -> k ∈ g0.keys) {p : Nat} : g.PlaceOf ks p ↔ g0.PlaceOf ks p := by
  constructor
  · rintro ⟨v, hv, hin, rfl⟩
    have hbare : v.bare ∈ g.pending.map Vertex.bare := List.mem_map_of_mem hv
    rw [h.pending] at hbare
    rcases List.mem_map.mp hbare with ⟨u, hu, heq⟩
    rw [← Vertex.key_eq_of_bare_eq heq] at hin
    rcases List.mem_append.mp hu with hu | hu
    · exact ⟨u, hu, hin, Vertex.nodeId_eq_of_bare_eq heq⟩
    · exact absurd (hks u.key hin) (h.fresh u hu)
  · rintro ⟨u, hu, hin, rfl⟩
    rcases h.exists_place hu with ⟨v, hv, hkey, hnodeId⟩
    exact ⟨v, hv, hkey ▸ hin, hnodeId⟩

/-- Fused nodes are in the place of the groups in `done`, and the positions are those of
the members of these groups. -/
structure InPlace (bank : Bank ρ) (g0 : Graph ρ) (names : NodeKey -> NodeKey)
    (done : List (FusionGroup ρ)) (names' : NodeKey -> NodeKey) (fused : List (Vertex ρ))
    (r : Graph ρ × OrderedSet Nat) : Prop where
  fusing : Fusing bank g0 names' fused r.1
  assigned : Assigned g0 names done names'
  found : forall p, p ∈ r.2 ↔ g0.PlaceOf (done.flatMap (·.keys)) p

theorem InPlace.next {bank : Bank ρ} {g0 : Graph ρ} {names names' : NodeKey -> NodeKey}
    {done : List (FusionGroup ρ)} {fused : List (Vertex ρ)} {r : Graph ρ × OrderedSet Nat}
    (h : InPlace bank g0 names done names' fused r) (hg : g0.Keyed) {group : FusionGroup ρ}
    (hfused : FusedFrom bank (group.members.map (·.launch)) (some group.record, group.description.task))
    (hseveral : 1 < group.members.length)
    (hsub : (group.members.map Vertex.bare).Sublist (g0.pending.map Vertex.bare))
    (hmem : forall k, k ∈ group.keys -> k ∈ g0.pendingKeys ∧ names k = k)
    (hdisjoint : forall d, d ∈ done -> forall k, k ∈ d.keys -> k ∉ group.keys) :
    exists names'' fused' r', r.1.materialize r.2 group = .ok r' ∧
      InPlace bank g0 names (done ++ [group]) names'' fused' r' := by
  have hids : forall k, k ∈ group.keys -> names' k = k := by
    intro k hk
    refine (h.assigned.other k fun d hd hkd => ?_).trans (hmem k hk).right
    exact hdisjoint d hd k hkd hk
  have hpending : forall k, k ∈ group.keys -> k ∈ r.1.pendingKeys :=
    fun k hk => h.fusing.mem_pendingKeys.mpr (Or.inl (hmem k hk).left)
  have hkeys : forall k, k ∈ group.keys -> k ∈ g0.keys :=
    fun k hk => pendingKeys_subset (hmem k hk).left
  rcases materialize_ok h.fusing.sound.linked h.fusing.no_self hpending r.2
    with ⟨v, g', positions', hrun, hm, hlaunch, hpositions⟩
  rw [← hlaunch] at hfused
  have hfresh : v.key ∉ r.1.keys := by
    rw [hm.key]
    exact h.fusing.sound.keyed.freshKey_not_mem
  refine ⟨_, _, (g', positions'), hrun, h.fusing.extend hg hm hfused hseveral hsub hids,
    h.assigned.extend h.fusing hkeys hids hfresh, ?_⟩
  intro p
  rw [hpositions, h.found, h.fusing.placeOf_iff hkeys, List.flatMap_append, List.flatMap_singleton,
    placeOf_append]

/-- Fusing in one window goes through.  The positions found are those of the nodes that
were renamed. -/
theorem fuseRange_ok {bank : Bank ρ} {g0 g : Graph ρ} {names : NodeKey -> NodeKey}
    {fused : List (Vertex ρ)} (h : Fusing bank g0 names fused g) (hg : g0.Sound)
    (hf : g0.Forward) {first last : Nat} (hfirst : first ≤ last)
    (hlast : last ≤ g0.pending.length)
    (hids : forall v, v ∈ g0.windowOf first last -> names v.key = v.key) :
    exists names' fused' groups before r, g.fusionGroups bank first last = .ok groups ∧
      g.fuseRange bank first last = .ok r ∧
      Grouped bank (g.windowOf first last) (fun u v => exists s, g0.Enters u v s) groups before ∧
      InPlace bank g0 names groups names' fused' r ∧ ((forall p, p ∉ r.2) -> r.1 = g) := by
  rcases fusionGroups_ok h hg hf hfirst hlast hids with ⟨groups, before, hrun, hgrouped⟩
  have hsub : forall group, group ∈ groups ->
      (group.members.map Vertex.bare).Sublist (g0.pending.map Vertex.bare) := by
    intro group hin
    have hsublist := (hgrouped.sublist group hin).map Vertex.bare
    rw [h.bareWindow hlast] at hsublist
    exact hsublist.trans ((g0.windowOf_sublist first last).map _)
  have hmem : forall group, group ∈ groups -> forall k, k ∈ group.keys ->
      k ∈ g0.pendingKeys ∧ names k = k := by
    intro group hin k hk
    have hkey := ((hgrouped.sublist group hin).map (·.key)).subset hk
    rw [h.keysWindow first hlast] at hkey
    rcases List.mem_map.mp hkey with ⟨v, hv, rfl⟩
    exact ⟨List.mem_map_of_mem (windowOf_subset hv), hids v hv⟩
  have loop : exists r : Graph ρ × OrderedSet Nat,
      groups.foldlM (fun r group => r.1.materialize r.2 group) (g, ∅) = .ok r ∧
      exists names' fused', InPlace bank g0 names groups names' fused' r := by
    refine foldlM_ok_of_step (fun (done : List (FusionGroup ρ)) (r : Graph ρ × OrderedSet Nat) =>
      exists names' fused', InPlace bank g0 names done names' fused' r) ?_ ?_
    · rintro done group rest r hsplit ⟨names1, fused1, h1⟩
      have hin : group ∈ groups := by simp [hsplit]
      have hdisjoint := hgrouped.disjoint
      rw [hsplit, List.pairwise_append] at hdisjoint
      rcases h1.next hg.keyed (hgrouped.fused group hin) (hgrouped.several group hin)
        (hsub group hin) (hmem group hin) (fun d hd => hdisjoint.right.right d hd group (by simp))
        with ⟨names2, fused2, r', hmaterialize, h2⟩
      exact ⟨r', hmaterialize, names2, fused2, h2⟩
    · refine ⟨names, fused, h, Assigned.refl g0 names, ?_⟩
      intro p
      exact iff_of_false (OrderedSet.not_mem_empty p) (g0.not_placeOf_nil p)
  rcases loop with ⟨r, hloop, names', fused', hplaced⟩
  refine ⟨names', fused', groups, before, r, hrun, ?_, hgrouped, hplaced, ?_⟩
  · rw [fuseRange, hrun, ok_bind]
    exact hloop
  · intro hnone
    cases groups with
    | nil =>
        cases hloop
        rfl
    | cons group rest =>
        have hleader : group.leader.key ∈ group.keys := List.mem_cons_self ..
        rcases exists_pending (hmem group (by simp) _ hleader).left with ⟨u, hu, hkey⟩
        refine absurd ((hplaced.found u.nodeId).mpr ⟨u, hu, ?_, rfl⟩) (hnone u.nodeId)
        rw [hkey, List.flatMap_cons]
        exact List.mem_append_left _ hleader

/-!
## Window after window
-/

/-- An order on the nodes in `done` that follows the edges, and in which two nodes are
before each other exactly if they have the same name. -/
structure Ordered (g0 : Graph ρ) (done : List NodeKey) (names : NodeKey -> NodeKey)
    (before : NodeKey -> NodeKey -> Prop) : Prop where
  trans : forall u v w, before u v -> before v w -> before u w
  inside : forall u v, before u v -> u ∈ done ∧ v ∈ done
  contains_edge : forall u v s, u ∈ done -> v ∈ done -> g0.Enters u v s -> before u v
  kernel : forall u v, before u v -> before v u -> names u = names v
  joined : forall u v, u ∈ done -> v ∈ done -> names u = names v -> before u v

theorem Ordered.nil (g0 : Graph ρ) : Ordered g0 [] (fun k => k) (fun _ _ => False) := by
  constructor
  · intro u v w h
    exact h.elim
  · intro u v h
    exact h.elim
  · intro u v s hu
    cases hu
  · intro u v h
    exact h.elim
  · intro u v hu
    cases hu

def stacked (done later : List NodeKey) (before beforeW : NodeKey -> NodeKey -> Prop)
    (u v : NodeKey) : Prop :=
  before u v ∨ (u ∈ done ∧ v ∈ later) ∨ beforeW u v

section Stacked

variable {done later : List NodeKey} {before beforeW : NodeKey -> NodeKey -> Prop}
  (hdisjoint : forall k, k ∈ done -> k ∉ later)
  (hin : forall u v, before u v -> u ∈ done ∧ v ∈ done)
  (hinW : forall u v, beforeW u v -> u ∈ later ∧ v ∈ later)

include hin hinW

theorem stacked_inside {u v : NodeKey} (h : stacked done later before beforeW u v) :
    u ∈ done ++ later ∧ v ∈ done ++ later := by
  rcases h with huv | ⟨hu, hv⟩ | huv
  · exact ⟨List.mem_append_left _ (hin u v huv).left, List.mem_append_left _ (hin u v huv).right⟩
  · exact ⟨List.mem_append_left _ hu, List.mem_append_right _ hv⟩
  · exact ⟨List.mem_append_right _ (hinW u v huv).left,
      List.mem_append_right _ (hinW u v huv).right⟩

include hdisjoint

theorem stacked_trans (htrans : forall u v w, before u v -> before v w -> before u w)
    (htransW : forall u v w, beforeW u v -> beforeW v w -> beforeW u w) {u v w : NodeKey}
    (huv : stacked done later before beforeW u v) (hvw : stacked done later before beforeW v w) :
    stacked done later before beforeW u w := by
  rcases huv with huv | ⟨hu, hv⟩ | huv
  · rcases hvw with hvw | ⟨_, hw⟩ | hvw
    · exact Or.inl (htrans u v w huv hvw)
    · exact Or.inr (Or.inl ⟨(hin u v huv).left, hw⟩)
    · exact absurd (hinW v w hvw).left (hdisjoint v (hin u v huv).right)
  · rcases hvw with hvw | ⟨hv', _⟩ | hvw
    · exact absurd hv (hdisjoint v (hin v w hvw).left)
    · exact absurd hv (hdisjoint v hv')
    · exact Or.inr (Or.inl ⟨hu, (hinW v w hvw).right⟩)
  · rcases hvw with hvw | ⟨hv, _⟩ | hvw
    · exact absurd (hinW u v huv).right (hdisjoint v (hin v w hvw).left)
    · exact absurd (hinW u v huv).right (hdisjoint v hv)
    · exact Or.inr (Or.inr (htransW u v w huv hvw))

theorem stacked_both {u v : NodeKey} (huv : stacked done later before beforeW u v)
    (hvu : stacked done later before beforeW v u) :
    (before u v ∧ before v u) ∨ (beforeW u v ∧ beforeW v u) := by
  rcases huv with huv | ⟨hu, hv⟩ | huv
  · rcases hvu with hvu | ⟨_, hu⟩ | hvu
    · exact Or.inl ⟨huv, hvu⟩
    · exact absurd hu (hdisjoint u (hin u v huv).left)
    · exact absurd (hinW v u hvu).left (hdisjoint v (hin u v huv).right)
  · rcases hvu with hvu | ⟨hv', _⟩ | hvu
    · exact absurd hv (hdisjoint v (hin v u hvu).left)
    · exact absurd hv (hdisjoint v hv')
    · exact absurd (hinW v u hvu).right (hdisjoint u hu)
  · rcases hvu with hvu | ⟨hv, _⟩ | hvu
    · exact absurd (hinW u v huv).right (hdisjoint v (hin v u hvu).left)
    · exact absurd (hinW u v huv).right (hdisjoint v hv)
    · exact Or.inr ⟨huv, hvu⟩

end Stacked

section Windows

variable {bank : Bank ρ} {g0 g : Graph ρ} {done : List NodeKey} {names names' : NodeKey -> NodeKey}
  {before beforeW : NodeKey -> NodeKey -> Prop} {window : List (Vertex ρ)}
  {groups : List (FusionGroup ρ)} {fused : List (Vertex ρ)}

theorem Assigned.of_same_name (h : Assigned g0 names groups names') {x y : NodeKey}
    (hx : x ∈ g0.keys) (hy : names y = y) (heq : names' x = names' y) :
    (exists group, group ∈ groups ∧ x ∈ group.keys ∧ y ∈ group.keys) ∨ names' x = y := by
  by_cases hin : exists group, group ∈ groups ∧ y ∈ group.keys
  · rcases hin with ⟨group, hin, hyg⟩
    exact Or.inl ⟨group, hin, h.apart group hin y x hyg hx heq, hyg⟩
  · have hother := h.other y fun group hg hyg => hin ⟨group, hg, hyg⟩
    exact Or.inr (heq.trans (hother.trans hy))

/-- Nodes of one window with the same name are before each other. -/
theorem joined_of_same_name
    (hw : Grouped bank window (fun u v => exists s, g0.Enters u v s) groups beforeW)
    (ha : Assigned g0 names groups names')
    (hids : forall k, k ∈ window.map (·.key) -> k ∈ g0.keys ∧ names k = k) {u v : NodeKey}
    (hu : u ∈ window.map (·.key)) (hv : v ∈ window.map (·.key)) (heq : names' u = names' v) :
    beforeW u v := by
  rcases ha.of_same_name (hids u hu).left (hids v hv).right heq with ⟨group, hin, hug, hvg⟩ | hname
  · exact hw.joined group hin u v hug hvg
  · rcases ha.of_same_name (hids v hv).left (hids u hu).right heq.symm
      with ⟨group, hin, hvg, hug⟩ | hname'
    · exact hw.joined group hin u v hug hvg
    · have huv : u = v := hname'.symm.trans (heq.symm.trans hname)
      rcases List.mem_map.mp hu with ⟨x, hx, rfl⟩
      rw [← huv]
      exact hw.refl x hx

theorem Ordered.extend (h : Ordered g0 done names before) (hg : g0.Keyed) (hf : g0.Forward)
    (hpending : (done ++ window.map (·.key)).Sublist g0.pendingKeys)
    (hw : Grouped bank window (fun u v => exists s, g0.Enters u v s) groups beforeW)
    (ha : Assigned g0 names groups names') (hfusing : Fusing bank g0 names fused g)
    (hids : forall k, k ∈ window.map (·.key) -> names k = k) :
    Ordered g0 (done ++ window.map (·.key)) names'
      (stacked done (window.map (·.key)) before beforeW) := by
  have hnodup := hg.nodup_pending.sublist hpending
  have hdisjoint : forall k, k ∈ done -> k ∉ window.map (·.key) :=
    fun k hk hkw => (List.nodup_append.mp hnodup).right.right k hk k hkw rfl
  have hmem : forall k, k ∈ done ++ window.map (·.key) -> k ∈ g0.keys :=
    fun k hk => pendingKeys_subset (hpending.subset hk)
  have hidsW : forall k, k ∈ window.map (·.key) -> k ∈ g0.keys ∧ names k = k :=
    fun k hk => ⟨hmem k (List.mem_append_right _ hk), hids k hk⟩
  have hgroup : forall group, group ∈ groups -> forall k, k ∈ group.keys -> k ∈ window.map (·.key) :=
    fun group hin k hk => ((hw.sublist group hin).map _).subset hk
  have hdone : forall k, k ∈ done -> names' k = names k := by
    intro k hk
    exact ha.other k fun group hin hkg => hdisjoint k hk (hgroup group hin k hkg)
  have hapart : forall u v, u ∈ window.map (·.key) -> v ∈ done -> names' u ≠ names' v := by
    intro u v hu hv heq
    rcases ha.of_same_name (hmem v (List.mem_append_left _ hv)) (hids u hu) heq.symm
      with ⟨group, hin, hvg, _⟩ | hname
    · exact hdisjoint v hv (hgroup group hin v hvg)
    · -- The node would have been renamed to one that is there already.
      rw [hdone v hv] at hname
      have hsame := hfusing.eq_of_name_mem (hname ▸ (hidsW u hu).left)
      rw [hname] at hsame
      exact hdisjoint v hv (hsame ▸ hu)
  constructor
  · exact fun _ _ _ => stacked_trans hdisjoint h.inside hw.inside h.trans hw.trans
  · exact fun _ _ => stacked_inside h.inside hw.inside
  · intro u v s hu hv he
    rcases List.mem_append.mp hu with hu | hu
    · rcases List.mem_append.mp hv with hv | hv
      · exact Or.inl (h.contains_edge u v s hu hv he)
      · exact Or.inr (Or.inl ⟨hu, hv⟩)
    · rcases List.mem_append.mp hv with hv | hv
      · -- An edge back from the window would not lead forward.
        have hback : ComesBefore (done ++ window.map (·.key)) v u :=
          ComesBefore.append_iff.mpr (Or.inr (Or.inl ⟨hv, hu⟩))
        have hback' := (hback.of_sublist hpending).of_sublist g0.pendingKeys_sublist
        exact absurd hback' ((hf u v s he).asymm hg.nodup)
      · rcases List.mem_map.mp hu with ⟨x, hx, rfl⟩
        rcases List.mem_map.mp hv with ⟨y, hy, rfl⟩
        exact Or.inr (Or.inr (hw.contains_edge x y hx hy ⟨s, he⟩))
  · intro u v huv hvu
    rcases stacked_both hdisjoint h.inside hw.inside huv hvu with ⟨huv, hvu⟩ | ⟨huv, hvu⟩
    · rw [hdone u (h.inside u v huv).left, hdone v (h.inside u v huv).right]
      exact h.kernel u v huv hvu
    · rcases hw.kernel u v huv hvu with rfl | ⟨group, hin, hug, hvg⟩
      · rfl
      · exact ha.joined group hin u v hug hvg
  · intro u v hu hv heq
    rcases List.mem_append.mp hu with hu | hu
    · rcases List.mem_append.mp hv with hv | hv
      · rw [hdone u hu, hdone v hv] at heq
        exact Or.inl (h.joined u v hu hv heq)
      · exact Or.inr (Or.inl ⟨hu, hv⟩)
    · rcases List.mem_append.mp hv with hv | hv
      · exact absurd heq (hapart u v hu hv)
      · exact Or.inr (Or.inr (joined_of_same_name hw ha hidsW hu hv heq))

end Windows

/-- The windows up to `first` are done: what comes after has not been renamed, and what
comes before is in an order. -/
structure Passed (bank : Bank ρ) (g0 : Graph ρ) (first : Nat) (names : NodeKey -> NodeKey)
    (fused : List (Vertex ρ)) (before : NodeKey -> NodeKey -> Prop)
    (r : Graph ρ × OrderedSet Nat) : Prop where
  fusing : Fusing bank g0 names fused r.1
  untouched : forall v, v ∈ g0.pending.drop first -> names v.key = v.key
  ordered : Ordered g0 ((g0.pending.take first).map (·.key)) names before
  positions : forall p, p ∈ r.2 ↔ exists u, u ∈ g0.pending ∧ names u.key ≠ u.key ∧ u.nodeId = p

section Passed

variable {bank : Bank ρ} {g0 : Graph ρ} {first last : Nat} {names names' : NodeKey -> NodeKey}
  {fused fused' : List (Vertex ρ)} {before : NodeKey -> NodeKey -> Prop}
  {r r' : Graph ρ × OrderedSet Nat} {groups : List (FusionGroup ρ)}

theorem take_append_windowOf (g : Graph ρ) (hle : first ≤ last) :
    g.pending.take first ++ g.windowOf first last = g.pending.take last := by
  have htake : g.pending.take first = (g.pending.take last).take first := by
    rw [List.take_take, Nat.min_eq_left hle]
  rw [windowOf, htake, List.take_append_drop]

theorem mem_drop_of_mem_windowOf {g : Graph ρ} {v : Vertex ρ} (hv : v ∈ g.windowOf first last) :
    v ∈ g.pending.drop first := by
  rw [windowOf, List.drop_take] at hv
  exact List.mem_of_mem_take hv

theorem Assigned.untouched (h : Assigned g0 names groups names') (hg : g0.Keyed)
    (hle : first ≤ last) (hids : forall v, v ∈ g0.pending.drop first -> names v.key = v.key)
    (hgroups : forall group, group ∈ groups -> forall k, k ∈ group.keys ->
      k ∈ (g0.windowOf first last).map (·.key)) {v : Vertex ρ} (hv : v ∈ g0.pending.drop last) :
    names' v.key = v.key := by
  have hdrop : v ∈ g0.pending.drop first := by
    have hsub := List.drop_sublist (last - first) (g0.pending.drop first)
    rw [List.drop_drop, Nat.add_sub_cancel' hle] at hsub
    exact hsub.subset hv
  refine (h.other v.key fun group hin hk => ?_).trans (hids v hdrop)
  have hnodup := hg.nodup_pending
  rw [pendingKeys, ← List.take_append_drop last g0.pending, List.map_append,
    List.nodup_append] at hnodup
  refine hnodup.right.right v.key ?_ v.key (List.mem_map_of_mem hv) rfl
  rw [← take_append_windowOf g0 hle, List.map_append]
  exact List.mem_append_right _ (hgroups group hin v.key hk)

theorem Assigned.renamed_iff (h : Assigned g0 names groups names') (k : NodeKey) :
    names' k ≠ k ↔ names k ≠ k ∨ k ∈ groups.flatMap (·.keys) := by
  rw [List.mem_flatMap]
  by_cases hin : exists group, group ∈ groups ∧ k ∈ group.keys
  · rcases hin with ⟨group, hin, hk⟩
    exact iff_of_true (h.moved group hin k hk) (Or.inr ⟨group, hin, hk⟩)
  · rw [h.other k fun group hg hk => hin ⟨group, hg, hk⟩]
    exact (or_iff_left hin).symm

theorem Passed.next (h : Passed bank g0 first names fused before r) (hg : g0.Sound)
    (hf : g0.Forward) (hle : first ≤ last) (hlast : last ≤ g0.pending.length) :
    exists names' fused' before' r', r.1.fuseRange bank first last = .ok r' ∧
      Passed bank g0 last names' fused' before' (r'.1, r.2 ∪ r'.2) ∧
      ((forall p, p ∉ r'.2) -> r'.1 = r.1) := by
  have hids : forall v, v ∈ g0.windowOf first last -> names v.key = v.key :=
    fun v hv => h.untouched v (mem_drop_of_mem_windowOf hv)
  rcases fuseRange_ok h.fusing hg hf hle hlast hids
    with ⟨names', fused', groups, beforeW, r', _, hrun, hgrouped, hplaced, hsame⟩
  have hkeys := h.fusing.keysWindow first hlast
  have hwindow : (g0.pending.take first).map (·.key) ++ (r.1.windowOf first last).map (·.key)
      = (g0.pending.take last).map (·.key) := by
    rw [hkeys, ← List.map_append, take_append_windowOf g0 hle]
  have hidsW : forall k, k ∈ (r.1.windowOf first last).map (·.key) -> names k = k := by
    intro k hk
    rw [hkeys] at hk
    rcases List.mem_map.mp hk with ⟨v, hv, rfl⟩
    exact hids v hv
  have hgroups : forall group, group ∈ groups -> forall k, k ∈ group.keys ->
      k ∈ (r.1.windowOf first last).map (·.key) :=
    fun group hin k hk => ((hgrouped.sublist group hin).map _).subset hk
  have hordered := h.ordered.extend hg.keyed hf (by
    rw [hwindow]
    exact (List.take_sublist ..).map _) hgrouped hplaced.assigned h.fusing hidsW
  rw [hwindow] at hordered
  refine ⟨names', fused', _, r', hrun, ⟨hplaced.fusing, ?_, hordered, ?_⟩, hsame⟩
  · intro v hv
    refine hplaced.assigned.untouched hg.keyed hle h.untouched ?_ hv
    intro group hin k hk
    rw [← hkeys]
    exact hgroups group hin k hk
  · intro p
    rw [OrderedSet.mem_union, h.positions, hplaced.found, PlaceOf, ← exists_or]
    refine exists_congr fun u => ?_
    rw [hplaced.assigned.renamed_iff, ← and_or_left, ← or_and_right]

theorem Passed.start (bank : Bank ρ) {g : Graph ρ} (hg : g.Sound) (hf : g.Forward) :
    Passed bank g 0 (fun k => k) [] (fun _ _ => False) (g, ∅) := by
  refine ⟨Fusing.refl bank hg fun k s hk => ?_, fun _ _ => rfl, Ordered.nil g, ?_⟩
  · exact (hf k k s hk).irrefl hg.keyed.nodup
  · intro p
    simp

/-- Fusing window after window goes through, and leaves an order on all nodes. -/
theorem fuseWindows_ok (h : Passed bank g0 first names fused before r) (hg : g0.Sound)
    (hf : g0.Forward) (hfirst : first ≤ g0.pending.length) :
    exists names' fused' before' r',
      r.1.fuseWindows bank r.2 g0.pending.length first = .ok r' ∧
      Passed bank g0 g0.pending.length names' fused' before' r' ∧
      (forall p, p ∈ r.2 -> p ∈ r'.2) ∧ ((forall p, p ∉ r'.2) -> r'.1 = r.1) := by
  induction hn : g0.pending.length - first using Nat.strongRecOn
    generalizing names fused first before r with
  | ind n ih =>
      rw [fuseWindows]
      by_cases hlt : first < g0.pending.length
      · rw [if_pos hlt]
        have hsize := r.1.window.two_le
        let last := min (first + r.1.window.size) g0.pending.length
        have hmore : first < last := Nat.lt_min.mpr ⟨by omega, hlt⟩
        have hlast : last ≤ g0.pending.length := Nat.min_le_right ..
        rcases h.next hg hf (Nat.le_of_lt hmore) hlast
          with ⟨names1, fused1, before1, r1, hrun, h1, hsame⟩
        rcases ih (g0.pending.length - last) (by omega) h1 hlast rfl
          with ⟨names', fused', before', r', hrest, h', hkept, hsame'⟩
        refine ⟨names', fused', before', r', ?_, h', ?_, ?_⟩
        · show (r.1.fuseRange bank first last >>= fun q =>
            q.1.fuseWindows bank (r.2 ∪ q.2) g0.pending.length last) = _
          rw [hrun]
          exact hrest
        · exact fun p hp => hkept p (OrderedSet.mem_union.mpr (Or.inl hp))
        · intro hnone
          refine (hsame' hnone).trans (hsame fun p hp => hnone p ?_)
          exact hkept p (OrderedSet.mem_union.mpr (Or.inr hp))
      · rw [if_neg hlt]
        have hall : first = g0.pending.length := by omega
        subst hall
        exact ⟨names, fused, before, r, rfl, h, fun _ hp => hp, fun _ => rfl⟩

end Passed

end Graph
end LaunchGraph
