import LaunchGraph.Graph.Redirect
import LaunchGraph.Proofs.Graph.Sound

/-!
# What a redirection does

Redirecting edges renames one key: every edge that named the first node then names
the second.  Edges that would lead from the second node to itself disappear.
-/

namespace LaunchGraph

def rename (a b k : NodeKey) : NodeKey := if k = a then b else k

theorem rename_self (a b : NodeKey) : rename a b a = b := if_pos rfl

theorem rename_of_ne {a b k : NodeKey} (h : k ≠ a) : rename a b k = k := if_neg h

namespace Graph

variable {ρ : Type}

/-!
## Edges out of a node
-/

theorem moveOutputs_rewired {g : Graph ρ} {a b : NodeKey} {edges : List (State × NodeKey)}
    (hab : a ≠ b) (hb : b ∈ g.keys) (htargets : forall e, e ∈ edges -> e.2 ∈ g.keys) :
    exists g', edges.foldlM (fun g (s, target) => do
        (← g.dropInput a target s).insertEdge b target s) g = .ok g' ∧
      g.Rewired g' (fun u v t => g.Leaves u v t ∨ (u = b ∧ v ≠ b ∧ (t, v) ∈ edges))
        (fun u v t => (g.Enters u v t ∧ ¬(u = a ∧ (t, v) ∈ edges)) ∨
          (u = b ∧ v ≠ b ∧ (t, v) ∈ edges)) := by
  refine foldlM_ok_of_step
    (fun done g' =>
      g.Rewired g' (fun u v t => g.Leaves u v t ∨ (u = b ∧ v ≠ b ∧ (t, v) ∈ done))
        (fun u v t => (g.Enters u v t ∧ ¬(u = a ∧ (t, v) ∈ done)) ∨
          (u = b ∧ v ≠ b ∧ (t, v) ∈ done))) ?_ ?_
  · rintro done ⟨s, w⟩ rest g1 hsplit h1
    have hw : w ∈ g1.keys := by
      rw [h1.keys]
      exact htargets (s, w) (by simp [hsplit])
    rcases dropInput_rewired hw a s with ⟨g2, hg2, h2⟩
    have hb2 : b ∈ g2.keys := by
      rw [h2.keys, h1.keys]
      exact hb
    have hw2 : w ∈ g2.keys := by
      rw [h2.keys]
      exact hw
    rcases insertEdge_rewired hb2 hw2 s with ⟨g3, hg3, h3⟩
    refine ⟨g3, ?_, h3.frame.trans (h2.frame.trans h1.frame), ?_, ?_⟩
    · show (g1.dropInput a w s >>= fun g => g.insertEdge b w s) = .ok g3
      rw [hg2, ok_bind]
      exact hg3
    · intro u v t
      rw [h3.leaves_iff, h2.leaves_iff, h1.leaves_iff, List.mem_append, List.mem_singleton,
        Prod.mk.injEq]
      grind
    · intro u v t
      rw [h3.enters_iff, h2.enters_iff, h1.enters_iff, List.mem_append, List.mem_singleton,
        Prod.mk.injEq]
      grind
  · refine ⟨rfl, ?_, ?_⟩
    · intro u v t
      simp
    · intro u v t
      simp

theorem redirectOutputs_rewired {g : Graph ρ}
    (hmirrored : forall u v s, g.Leaves u v s ↔ g.Enters u v s) {a b : NodeKey} (hab : a ≠ b)
    (ha : a ∈ g.keys) (hb : b ∈ g.keys) :
    exists g', g.redirectOutputs a b = .ok g' ∧
      g.Rewired g'
        (fun u v s => (u ≠ a ∧ g.Enters u v s) ∨ (u = b ∧ v ≠ b ∧ g.Enters a v s))
        (fun u v s => (u ≠ a ∧ g.Enters u v s) ∨ (u = b ∧ v ≠ b ∧ g.Enters a v s)) := by
  rcases exists_find? ha with ⟨w, hw⟩
  have hout : forall s v, (s, v) ∈ w.outputs.pairs ↔ g.Enters a v s := by
    intro s v
    rw [Links.mem_pairs, ← hmirrored, Leaves, outputsOf_of_find? hw]
  let g1 := g.update a fun n => { n with outputs := ∅ }
  have hframe1 : g1.frame = g.frame := frame_update fun _ => rfl
  have hkeys1 : g1.keys = g.keys := keys_congr (skeleton_congr hframe1)
  have hleaves1 : forall u v s, g1.Leaves u v s ↔ u ≠ a ∧ g.Enters u v s := by
    intro u v s
    rw [← hmirrored, Leaves, outputsOf_update hw, Leaves]
    by_cases hu : u = a
    · simp [hu]
    · simp [hu]
  have henters1 : forall u v s, g1.Enters u v s ↔ g.Enters u v s := by
    intro u v s
    rw [Enters, inputsOf_update hw, Enters]
    by_cases hv : v = a
    · rw [if_pos hv, hv, inputsOf_of_find? hw]
    · rw [if_neg hv]
  have htargets : forall e, e ∈ w.outputs.pairs -> e.2 ∈ g1.keys := by
    rintro ⟨s, v⟩ he
    rw [hkeys1]
    exact ((hout s v).mp he).target_mem
  rcases moveOutputs_rewired hab (hkeys1.symm ▸ hb) htargets with ⟨g2, hg2, h2⟩
  refine ⟨g2, ?_, h2.frame.trans hframe1, ?_, ?_⟩
  · rw [redirectOutputs, find_ok hw, ok_bind, modify_ok ha, ok_bind]
    exact hg2
  · intro u v s
    rw [h2.leaves_iff, hleaves1, hout]
  · intro u v s
    rw [h2.enters_iff, henters1, hout]
    grind

/-!
## Edges into a node
-/

theorem moveInputs_rewired {g : Graph ρ} {a b : NodeKey} {edges : List (State × NodeKey)}
    (hab : a ≠ b) (hb : b ∈ g.keys) (hsources : forall e, e ∈ edges -> e.2 ∈ g.keys) :
    exists g', edges.foldlM (fun g (s, source) => do
        (← g.dropOutput source a s).insertEdge source b s) g = .ok g' ∧
      g.Rewired g' (fun u v t => (g.Leaves u v t ∧ ¬(v = a ∧ (t, u) ∈ edges)) ∨
          (v = b ∧ u ≠ b ∧ (t, u) ∈ edges))
        (fun u v t => g.Enters u v t ∨ (v = b ∧ u ≠ b ∧ (t, u) ∈ edges)) := by
  refine foldlM_ok_of_step
    (fun done g' =>
      g.Rewired g' (fun u v t => (g.Leaves u v t ∧ ¬(v = a ∧ (t, u) ∈ done)) ∨
          (v = b ∧ u ≠ b ∧ (t, u) ∈ done))
        (fun u v t => g.Enters u v t ∨ (v = b ∧ u ≠ b ∧ (t, u) ∈ done))) ?_ ?_
  · rintro done ⟨s, w⟩ rest g1 hsplit h1
    have hw : w ∈ g1.keys := by
      rw [h1.keys]
      exact hsources (s, w) (by simp [hsplit])
    rcases dropOutput_rewired hw a s with ⟨g2, hg2, h2⟩
    have hb2 : b ∈ g2.keys := by
      rw [h2.keys, h1.keys]
      exact hb
    have hw2 : w ∈ g2.keys := by
      rw [h2.keys]
      exact hw
    rcases insertEdge_rewired hw2 hb2 s with ⟨g3, hg3, h3⟩
    refine ⟨g3, ?_, h3.frame.trans (h2.frame.trans h1.frame), ?_, ?_⟩
    · show (g1.dropOutput w a s >>= fun g => g.insertEdge w b s) = .ok g3
      rw [hg2, ok_bind]
      exact hg3
    · intro u v t
      rw [h3.leaves_iff, h2.leaves_iff, h1.leaves_iff, List.mem_append, List.mem_singleton,
        Prod.mk.injEq]
      grind
    · intro u v t
      rw [h3.enters_iff, h2.enters_iff, h1.enters_iff, List.mem_append, List.mem_singleton,
        Prod.mk.injEq]
      grind
  · refine ⟨rfl, ?_, ?_⟩
    · intro u v t
      simp
    · intro u v t
      simp

theorem redirectInputs_rewired {g : Graph ρ}
    (hmirrored : forall u v s, g.Leaves u v s ↔ g.Enters u v s) {a b : NodeKey} (hab : a ≠ b)
    (ha : a ∈ g.keys) (hb : b ∈ g.keys) :
    exists g', g.redirectInputs a b = .ok g' ∧
      g.Rewired g'
        (fun u v s => (v ≠ a ∧ g.Enters u v s) ∨ (v = b ∧ u ≠ b ∧ g.Enters u a s))
        (fun u v s => (v ≠ a ∧ g.Enters u v s) ∨ (v = b ∧ u ≠ b ∧ g.Enters u a s)) := by
  rcases exists_find? ha with ⟨w, hw⟩
  have hin : forall s u, (s, u) ∈ w.inputs.pairs ↔ g.Enters u a s := by
    intro s u
    rw [Links.mem_pairs, Enters, inputsOf_of_find? hw]
  let g1 := g.update a fun n => { n with inputs := ∅ }
  have hframe1 : g1.frame = g.frame := frame_update fun _ => rfl
  have hkeys1 : g1.keys = g.keys := keys_congr (skeleton_congr hframe1)
  have hleaves1 : forall u v s, g1.Leaves u v s ↔ g.Enters u v s := by
    intro u v s
    rw [← hmirrored, Leaves, outputsOf_update hw, Leaves]
    by_cases hu : u = a
    · rw [if_pos hu, hu, outputsOf_of_find? hw]
    · rw [if_neg hu]
  have henters1 : forall u v s, g1.Enters u v s ↔ v ≠ a ∧ g.Enters u v s := by
    intro u v s
    rw [Enters, inputsOf_update hw, Enters]
    by_cases hv : v = a
    · simp [hv]
    · simp [hv]
  have hsources : forall e, e ∈ w.inputs.pairs -> e.2 ∈ g1.keys := by
    rintro ⟨s, u⟩ he
    rw [hkeys1]
    exact ((hmirrored u a s).mpr ((hin s u).mp he)).source_mem
  rcases moveInputs_rewired hab (hkeys1.symm ▸ hb) hsources with ⟨g2, hg2, h2⟩
  refine ⟨g2, ?_, h2.frame.trans hframe1, ?_, ?_⟩
  · rw [redirectInputs, find_ok hw, ok_bind, modify_ok ha, ok_bind]
    exact hg2
  · intro u v s
    rw [h2.leaves_iff, hleaves1, hin]
    grind
  · intro u v s
    rw [h2.enters_iff, henters1, hin]

/-!
## Owners
-/

theorem get?_redirectOwners (g : Graph ρ) (a b : NodeKey) (s : State) :
    (g.redirectOwners a b).owners.get? s = (g.owners.get? s).map (rename a b) :=
  Table.get?_map

/-!
## The whole redirection
-/

structure Rerouted (g : Graph ρ) (a b : NodeKey) (g' : Graph ρ) : Prop where
  skeleton : g'.skeleton = g.skeleton
  owners_get : forall s, g'.owners.get? s = (g.owners.get? s).map (rename a b)
  readers : g'.readers = g.readers
  mirrored : forall u v s, g'.Leaves u v s ↔ g'.Enters u v s
  enters_iff : forall u v s, g'.Enters u v s ↔
    (u ≠ a ∧ g.Enters u v s) ∨ (u = b ∧ v ≠ b ∧ g.Enters a v s)

theorem redirect_outputs_ok {g : Graph ρ}
    (hmirrored : forall u v s, g.Leaves u v s ↔ g.Enters u v s) {a b : NodeKey} (hab : a ≠ b)
    (ha : a ∈ g.keys) (hb : b ∈ g.keys) :
    exists g', g.redirect a b true = .ok g' ∧ g.Rerouted a b g' := by
  rcases redirectOutputs_rewired hmirrored hab ha hb with ⟨g1, hg1, h1⟩
  have hskeleton : g1.skeleton = g.skeleton := skeleton_congr h1.frame
  have hreaders : g1.readers = g.readers := readers_congr h1.frame
  refine ⟨g1.redirectOwners a b, ?_, hskeleton, ?_, hreaders, ?_, ?_⟩
  · rw [redirect, if_neg hab, hg1]
    rfl
  · intro s
    rw [get?_redirectOwners, owners_congr h1.frame]
  · intro u v s
    exact (h1.leaves_iff u v s).trans (h1.enters_iff u v s).symm
  · exact h1.enters_iff

namespace Rerouted

theorem sound {g g' : Graph ρ} {a b : NodeKey} (h : g.Rerouted a b g') (hg : g.Sound)
    (hb : b ∈ g.pendingKeys) : g'.Sound := by
  refine hg.of_skeleton h.skeleton h.mirrored ?_ ?_ ?_
  · intro u v s huv
    rcases (h.enters_iff u v s).mp huv with ⟨_, he⟩ | ⟨_, _, he⟩
    · exact hg.wired.target_pending _ v s he
    · exact hg.wired.target_pending _ v s he
  · intro s k hk
    rw [h.owners_get] at hk
    rcases Option.map_eq_some_iff.mp hk with ⟨j, hj, rfl⟩
    by_cases hja : j = a
    · rw [hja, rename_self]
      exact ⟨pendingKeys_subset hb, fun hnot => absurd hb hnot⟩
    · rw [rename_of_ne hja]
      exact ⟨hg.owned.owner_mem s j hj, hg.owned.executed_writes s j hj⟩
  · intro s k hk
    rw [h.readers] at hk
    exact hg.owned.readers_pending s k hk

/-- Edges still lead forward if they are handed over to an earlier node. -/
theorem forward {g g' : Graph ρ} {a b : NodeKey} (h : g.Rerouted a b g') (hg : g.Keyed)
    (hf : g.Forward) (hba : ComesBefore g.keys b a) : g'.Forward := by
  intro u v s huv
  rw [keys_congr h.skeleton]
  rcases (h.enters_iff u v s).mp huv with ⟨_, he⟩ | ⟨rfl, _, he⟩
  · exact hf u v s he
  · exact ComesBefore.trans hg.nodup hba (hf a v s he)

end Rerouted

/-- The graph `g'` is `g` with `b` named wherever `a` was.  An edge between the two is
gone; an edge from any other node to itself would stay. -/
structure TakenOver (g : Graph ρ) (a b : NodeKey) (g' : Graph ρ) : Prop where
  skeleton : g'.skeleton = g.skeleton
  owners_get : forall s, g'.owners.get? s = (g.owners.get? s).map (rename a b)
  mem_readers : forall s k, k ∈ g'.readers.get s ↔
    exists j, j ∈ g.readers.get s ∧ rename a b j = k
  mirrored : forall u v s, g'.Leaves u v s ↔ g'.Enters u v s
  enters_iff : forall u v s, u ≠ v -> (g'.Enters u v s ↔
    exists x y, g.Enters x y s ∧ rename a b x = u ∧ rename a b y = v)
  loop_iff : forall k s, g'.Enters k k s ↔ k ≠ a ∧ g.Enters k k s

theorem redirect_takenOver {g : Graph ρ}
    (hmirrored : forall u v s, g.Leaves u v s ↔ g.Enters u v s) {a b : NodeKey} (hab : a ≠ b)
    (ha : a ∈ g.keys) (hb : b ∈ g.keys) :
    exists g', g.redirect a b false = .ok g' ∧ g.TakenOver a b g' := by
  rcases redirectOutputs_rewired hmirrored hab ha hb with ⟨g1, hg1, h1⟩
  have hmirrored1 : forall u v s, g1.Leaves u v s ↔ g1.Enters u v s :=
    fun u v s => (h1.leaves_iff u v s).trans (h1.enters_iff u v s).symm
  rcases redirectInputs_rewired hmirrored1 hab (h1.keys.symm ▸ ha) (h1.keys.symm ▸ hb)
    with ⟨g2, hg2, h2⟩
  let g3 : Graph ρ := { g2 with readers := g2.readers.replace a b }
  have hframe : g2.frame = g.frame := h2.frame.trans h1.frame
  have hskeleton : g2.skeleton = g.skeleton := skeleton_congr hframe
  refine ⟨g3.redirectOwners a b, ?_, hskeleton, ?_, ?_, ?_, ?_, ?_⟩
  · rw [redirect, if_neg hab, hg1, ok_bind, if_neg (by simp), hg2]
    rfl
  · intro s
    rw [get?_redirectOwners]
    show (g2.owners.get? s).map _ = _
    rw [owners_congr hframe]
  · intro s k
    show k ∈ (g2.readers.replace a b).get s ↔ _
    rw [Links.mem_get_replace, readers_congr hframe]
    exact Iff.rfl
  · intro u v s
    exact (h2.leaves_iff u v s).trans (h2.enters_iff u v s).symm
  · intro u v s hne
    show g2.Enters u v s ↔ _
    rw [h2.enters_iff, h1.enters_iff, h1.enters_iff]
    constructor
    · rintro (⟨hv, ⟨hu, he⟩ | ⟨rfl, _, he⟩⟩ | ⟨rfl, hub, ⟨hu, he⟩ | ⟨hub', _⟩⟩)
      · exact ⟨u, v, he, rename_of_ne hu, rename_of_ne hv⟩
      · exact ⟨a, v, he, rename_self .., rename_of_ne hv⟩
      · exact ⟨u, a, he, rename_of_ne hu, rename_self ..⟩
      · exact absurd hub' hub
    · rintro ⟨x, y, he, rfl, rfl⟩
      by_cases hx : x = a
      · subst hx
        rw [rename_self] at hne ⊢
        by_cases hy : y = x
        · subst hy
          exact absurd (rename_self y b).symm hne
        · rw [rename_of_ne hy] at hne ⊢
          exact Or.inl ⟨hy, Or.inr ⟨rfl, Ne.symm hne, he⟩⟩
      · rw [rename_of_ne hx] at hne ⊢
        by_cases hy : y = a
        · subst hy
          rw [rename_self] at hne ⊢
          exact Or.inr ⟨rfl, hne, Or.inl ⟨hx, he⟩⟩
        · rw [rename_of_ne hy]
          exact Or.inl ⟨hy, Or.inl ⟨hx, he⟩⟩
  · intro k s
    show g2.Enters k k s ↔ _
    rw [h2.enters_iff, h1.enters_iff]
    constructor
    · rintro (⟨hk, ⟨_, he⟩ | ⟨hkb, hnot, _⟩⟩ | ⟨hkb, hnot, _⟩)
      · exact ⟨hk, he⟩
      · exact absurd hkb hnot
      · exact absurd hkb hnot
    · rintro ⟨hk, he⟩
      exact Or.inl ⟨hk, Or.inl ⟨hk, he⟩⟩

/-- The graph `g'` is `g` with the keys that edges and tables name changed by
`names`. -/
structure Renamed (g : Graph ρ) (names : NodeKey -> NodeKey) (g' : Graph ρ) : Prop where
  skeleton : g'.skeleton = g.skeleton
  owners_get : forall s, g'.owners.get? s = (g.owners.get? s).map names
  mem_readers : forall s k, k ∈ g'.readers.get s ↔ exists j, j ∈ g.readers.get s ∧ names j = k
  mirrored : forall u v s, g'.Leaves u v s ↔ g'.Enters u v s
  enters_iff : forall u v s, g'.Enters u v s ↔
    u ≠ v ∧ exists x y, g.Enters x y s ∧ names x = u ∧ names y = v

theorem TakenOver.renamed {g g' : Graph ρ} {a b : NodeKey} (h : g.TakenOver a b g')
    (hself : forall k s, ¬g.Enters k k s) : g.Renamed (rename a b) g' := by
  refine ⟨h.skeleton, h.owners_get, h.mem_readers, h.mirrored, ?_⟩
  intro u v s
  by_cases huv : u = v
  · subst huv
    constructor
    · intro hloop
      exact absurd ((h.loop_iff u s).mp hloop).right (hself u s)
    · intro hnot
      exact absurd rfl hnot.left
  · rw [h.enters_iff u v s huv]
    exact (and_iff_right huv).symm

theorem redirect_ok {g : Graph ρ} (hmirrored : forall u v s, g.Leaves u v s ↔ g.Enters u v s)
    (hself : forall k s, ¬g.Enters k k s) {a b : NodeKey} (hab : a ≠ b) (ha : a ∈ g.keys)
    (hb : b ∈ g.keys) :
    exists g', g.redirect a b false = .ok g' ∧ g.Renamed (rename a b) g' := by
  rcases redirect_takenOver hmirrored hab ha hb with ⟨g', hrun, h⟩
  exact ⟨g', hrun, h.renamed hself⟩

namespace Renamed

theorem trans {g g1 g2 : Graph ρ} {names names' : NodeKey -> NodeKey}
    (h1 : g.Renamed names g1) (h2 : g1.Renamed names' g2) :
    g.Renamed (fun k => names' (names k)) g2 := by
  refine ⟨h2.skeleton.trans h1.skeleton, ?_, ?_, h2.mirrored, ?_⟩
  · intro s
    rw [h2.owners_get, h1.owners_get, Option.map_map]
    rfl
  · intro s k
    rw [h2.mem_readers]
    constructor
    · rintro ⟨j, hj, rfl⟩
      rcases (h1.mem_readers s j).mp hj with ⟨i, hi, rfl⟩
      exact ⟨i, hi, rfl⟩
    · rintro ⟨i, hi, rfl⟩
      exact ⟨names i, (h1.mem_readers s _).mpr ⟨i, hi, rfl⟩, rfl⟩
  · intro u v s
    rw [h2.enters_iff]
    constructor
    · rintro ⟨hne, x, y, he, rfl, rfl⟩
      rcases (h1.enters_iff x y s).mp he with ⟨_, x', y', he', rfl, rfl⟩
      exact ⟨hne, x', y', he', rfl, rfl⟩
    · rintro ⟨hne, x, y, he, rfl, rfl⟩
      refine ⟨hne, names x, names y, ?_, rfl, rfl⟩
      refine (h1.enters_iff _ _ s).mpr ⟨?_, x, y, he, rfl, rfl⟩
      intro heq
      exact hne (congrArg names' heq)

theorem no_self {g g' : Graph ρ} {names : NodeKey -> NodeKey} (h : g.Renamed names g')
    (k : NodeKey) (s : State) : ¬g'.Enters k k s := by
  intro hk
  exact ((h.enters_iff k k s).mp hk).left rfl

end Renamed

theorem renamed_refl {g : Graph ρ} (hmirrored : forall u v s, g.Leaves u v s ↔ g.Enters u v s)
    (hself : forall k s, ¬g.Enters k k s) : g.Renamed (fun k => k) g := by
  refine ⟨rfl, ?_, ?_, hmirrored, ?_⟩
  · intro s
    rw [Option.map_id']
  · intro s k
    simp
  · intro u v s
    constructor
    · intro he
      refine ⟨?_, u, v, he, rfl, rfl⟩
      rintro rfl
      exact hself u s he
    · rintro ⟨_, x, y, he, rfl, rfl⟩
      exact he

end Graph
end LaunchGraph
