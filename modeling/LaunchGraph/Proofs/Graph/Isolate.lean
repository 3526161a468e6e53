import LaunchGraph.Graph.Delete
import LaunchGraph.Proofs.Graph.Sound

/-!
# Taking nodes out of edges

Isolating nodes leaves, on every state, an edge between two other nodes exactly
where a way led from one to the other through isolated nodes only.
-/

namespace LaunchGraph
namespace Graph

variable {ρ : Type}

/-!
## Loops over edges
-/

theorem dropOutputs_rewired {g : Graph ρ} {edges : List (State × NodeKey)}
    (hsources : forall e, e ∈ edges -> e.2 ∈ g.keys) (k : NodeKey) :
    exists g', edges.foldlM (fun g (s, source) => g.dropOutput source k s) g = .ok g' ∧
      g.Rewired g' (fun u v t => g.Leaves u v t ∧ ¬((t, u) ∈ edges ∧ v = k)) g.Enters := by
  refine foldlM_ok_of_step
    (fun done g' => g.Rewired g'
      (fun u v t => g.Leaves u v t ∧ ¬((t, u) ∈ done ∧ v = k)) g.Enters) ?_ ?_
  · rintro done ⟨s, a⟩ rest g1 hsplit h1
    have ha : a ∈ g1.keys := by
      rw [h1.keys]
      exact hsources (s, a) (by simp [hsplit])
    rcases dropOutput_rewired ha k s with ⟨g2, hg2, h2⟩
    refine ⟨g2, hg2, h2.frame.trans h1.frame, ?_, ?_⟩
    · intro u v t
      rw [h2.leaves_iff, h1.leaves_iff, List.mem_append, List.mem_singleton, Prod.mk.injEq]
      grind
    · intro u v t
      rw [h2.enters_iff, h1.enters_iff]
  · refine ⟨rfl, ?_, fun _ _ _ => Iff.rfl⟩
    intro u v t
    simp

theorem dropInputs_rewired {g : Graph ρ} {edges : List (State × NodeKey)}
    (htargets : forall e, e ∈ edges -> e.2 ∈ g.keys) (k : NodeKey) :
    exists g', edges.foldlM (fun g (s, target) => g.dropInput k target s) g = .ok g' ∧
      g.Rewired g' g.Leaves (fun u v t => g.Enters u v t ∧ ¬((t, v) ∈ edges ∧ u = k)) := by
  refine foldlM_ok_of_step
    (fun done g' => g.Rewired g' g.Leaves
      (fun u v t => g.Enters u v t ∧ ¬((t, v) ∈ done ∧ u = k))) ?_ ?_
  · rintro done ⟨s, b⟩ rest g1 hsplit h1
    have hb : b ∈ g1.keys := by
      rw [h1.keys]
      exact htargets (s, b) (by simp [hsplit])
    rcases dropInput_rewired hb k s with ⟨g2, hg2, h2⟩
    refine ⟨g2, hg2, h2.frame.trans h1.frame, ?_, ?_⟩
    · intro u v t
      rw [h2.leaves_iff, h1.leaves_iff]
    · intro u v t
      rw [h2.enters_iff, h1.enters_iff, List.mem_append, List.mem_singleton, Prod.mk.injEq]
      grind
  · refine ⟨rfl, fun _ _ _ => Iff.rfl, ?_⟩
    intro u v t
    simp

theorem insertEdgesFrom_rewired {g : Graph ρ} {a : NodeKey} {targets : List NodeKey}
    (ha : a ∈ g.keys) (htargets : forall b, b ∈ targets -> b ∈ g.keys) (s : State) :
    exists g', targets.foldlM (fun g target => g.insertEdge a target s) g = .ok g' ∧
      g.Rewired g' (fun u v t => g.Leaves u v t ∨ (u = a ∧ v ∈ targets ∧ u ≠ v ∧ t = s))
        (fun u v t => g.Enters u v t ∨ (u = a ∧ v ∈ targets ∧ u ≠ v ∧ t = s)) := by
  refine foldlM_ok_of_step
    (fun done g' =>
      g.Rewired g' (fun u v t => g.Leaves u v t ∨ (u = a ∧ v ∈ done ∧ u ≠ v ∧ t = s))
        (fun u v t => g.Enters u v t ∨ (u = a ∧ v ∈ done ∧ u ≠ v ∧ t = s))) ?_ ?_
  · intro done b rest g1 hsplit h1
    have hb : b ∈ g1.keys := by
      rw [h1.keys]
      exact htargets b (by simp [hsplit])
    rcases insertEdge_rewired (h1.keys.symm ▸ ha) hb s with ⟨g2, hg2, h2⟩
    refine ⟨g2, hg2, h2.frame.trans h1.frame, ?_, ?_⟩
    · intro u v t
      rw [h2.leaves_iff, h1.leaves_iff, List.mem_append, List.mem_singleton]
      grind
    · intro u v t
      rw [h2.enters_iff, h1.enters_iff, List.mem_append, List.mem_singleton]
      grind
  · refine ⟨rfl, ?_, ?_⟩
    · intro u v t
      simp
    · intro u v t
      simp

theorem bridge_rewired {g : Graph ρ} {inputs outputs : Links}
    (hsources : forall s k, k ∈ inputs.get s -> k ∈ g.keys)
    (htargets : forall s k, k ∈ outputs.get s -> k ∈ g.keys) :
    exists g', g.bridge inputs outputs = .ok g' ∧
      g.Rewired g'
        (fun u v t => g.Leaves u v t ∨ (u ∈ inputs.get t ∧ v ∈ outputs.get t ∧ u ≠ v))
        (fun u v t => g.Enters u v t ∨ (u ∈ inputs.get t ∧ v ∈ outputs.get t ∧ u ≠ v)) := by
  have loop : exists g', g.bridge inputs outputs = .ok g' ∧
      g.Rewired g'
        (fun u v t => g.Leaves u v t ∨ ((t, u) ∈ inputs.pairs ∧ v ∈ outputs.get t ∧ u ≠ v))
        (fun u v t => g.Enters u v t ∨ ((t, u) ∈ inputs.pairs ∧ v ∈ outputs.get t ∧ u ≠ v)) := by
    refine foldlM_ok_of_step
      (fun done g' => g.Rewired g'
        (fun u v t => g.Leaves u v t ∨ ((t, u) ∈ done ∧ v ∈ outputs.get t ∧ u ≠ v))
        (fun u v t => g.Enters u v t ∨ ((t, u) ∈ done ∧ v ∈ outputs.get t ∧ u ≠ v))) ?_ ?_
    · rintro done ⟨s, a⟩ rest g1 hsplit h1
      have ha : a ∈ g1.keys := by
        rw [h1.keys]
        exact hsources s a (Links.mem_pairs.mp (by simp [hsplit]))
      have hb : forall b, b ∈ outputs.get s -> b ∈ g1.keys := by
        intro b hb
        rw [h1.keys]
        exact htargets s b hb
      rcases insertEdgesFrom_rewired ha hb s with ⟨g2, hg2, h2⟩
      refine ⟨g2, hg2, h2.frame.trans h1.frame, ?_, ?_⟩
      · intro u v t
        rw [h2.leaves_iff, h1.leaves_iff, List.mem_append, List.mem_singleton, Prod.mk.injEq]
        grind
      · intro u v t
        rw [h2.enters_iff, h1.enters_iff, List.mem_append, List.mem_singleton, Prod.mk.injEq]
        grind
    · refine ⟨rfl, ?_, ?_⟩
      · intro u v t
        simp
      · intro u v t
        simp
  simp only [Links.mem_pairs] at loop
  exact loop

/-!
## One node
-/

structure Isolated (g : Graph ρ) (k : NodeKey) (g' : Graph ρ) : Prop where
  skeleton : g'.skeleton = g.skeleton
  owners : g'.owners = g.owners
  mem_readers : forall s j, j ∈ g'.readers.get s ↔ j ∈ g.readers.get s ∧ j ≠ k
  mirrored : forall u v s, g'.Leaves u v s ↔ g'.Enters u v s
  enters_iff : forall u v s, g'.Enters u v s ↔
    u ≠ k ∧ v ≠ k ∧ (g.Enters u v s ∨ (u ≠ v ∧ g.Enters u k s ∧ g.Enters k v s))

theorem leaves_disconnected {g : Graph ρ} {k : NodeKey} {v : Vertex ρ} (hv : g.find? k = some v)
    (u w : NodeKey) (s : State) :
    (g.update k (·.disconnected)).Leaves u w s ↔ g.Leaves u w s ∧ u ≠ k := by
  rw [Leaves, outputsOf_update hv, Leaves]
  by_cases hu : u = k
  · simp [hu, Node.disconnected]
  · simp [hu]

theorem enters_disconnected {g : Graph ρ} {k : NodeKey} {v : Vertex ρ} (hv : g.find? k = some v)
    (u w : NodeKey) (s : State) :
    (g.update k (·.disconnected)).Enters u w s ↔ g.Enters u w s ∧ w ≠ k := by
  rw [Enters, inputsOf_update hv, Enters]
  by_cases hw : w = k
  · simp [hw, Node.disconnected]
  · simp [hw]

theorem isolate_ok {g : Graph ρ} (hmirrored : forall u v s, g.Leaves u v s ↔ g.Enters u v s)
    {k : NodeKey} (hk : k ∈ g.keys) (hself : forall s, ¬g.Enters k k s) :
    exists g', g.isolate k = .ok g' ∧ g.Isolated k g' := by
  rcases exists_find? hk with ⟨v, hv⟩
  have hin : forall s u, u ∈ v.inputs.get s ↔ g.Enters u k s := by
    intro s u
    rw [Enters, inputsOf_of_find? hv]
  have hout : forall s w, w ∈ v.outputs.get s ↔ g.Enters k w s := by
    intro s w
    rw [← hmirrored, Leaves, outputsOf_of_find? hv]
  have hsource : forall s u, u ∈ v.inputs.get s -> u ∈ g.keys := by
    intro s u hu
    exact ((hmirrored u k s).mpr ((hin s u).mp hu)).source_mem
  have htarget : forall s w, w ∈ v.outputs.get s -> w ∈ g.keys := by
    intro s w hw
    exact ((hout s w).mp hw).target_mem
  let g1 := g.update k (·.disconnected)
  have hframe1 : g1.frame = g.frame := frame_update fun _ => rfl
  have hkeys1 : g1.keys = g.keys := keys_congr (skeleton_congr hframe1)
  have hsources1 : forall e, e ∈ v.inputs.pairs -> e.2 ∈ g1.keys := by
    rintro ⟨s, u⟩ he
    rw [hkeys1]
    exact hsource s u (Links.mem_pairs.mp he)
  rcases dropOutputs_rewired hsources1 k with ⟨g2, hg2, h2⟩
  have htargets2 : forall e, e ∈ v.outputs.pairs -> e.2 ∈ g2.keys := by
    rintro ⟨s, w⟩ he
    rw [h2.keys, hkeys1]
    exact htarget s w (Links.mem_pairs.mp he)
  rcases dropInputs_rewired htargets2 k with ⟨g3, hg3, h3⟩
  have hkeys3 : g3.keys = g.keys := h3.keys.trans (h2.keys.trans hkeys1)
  have hsources3 : forall s u, u ∈ v.inputs.get s -> u ∈ g3.keys := by
    intro s u hu
    rw [hkeys3]
    exact hsource s u hu
  have htargets3 : forall s w, w ∈ v.outputs.get s -> w ∈ g3.keys := by
    intro s w hw
    rw [hkeys3]
    exact htarget s w hw
  rcases bridge_rewired hsources3 htargets3 with ⟨g4, hg4, h4⟩
  have hframe4 : g4.frame = g.frame :=
    h4.frame.trans (h3.frame.trans (h2.frame.trans hframe1))
  have hreaders4 : g4.readers = g.readers := readers_congr hframe4
  have hleaves : forall u w s, g4.Leaves u w s ↔
      u ≠ k ∧ w ≠ k ∧ (g.Enters u w s ∨ (u ≠ w ∧ g.Enters u k s ∧ g.Enters k w s)) := by
    intro u w s
    have hu := hself s
    rw [h4.leaves_iff, h3.leaves_iff, h2.leaves_iff, leaves_disconnected hv, Links.mem_pairs, hin, hout,
      hmirrored]
    grind
  have henters : forall u w s, g4.Enters u w s ↔
      u ≠ k ∧ w ≠ k ∧ (g.Enters u w s ∨ (u ≠ w ∧ g.Enters u k s ∧ g.Enters k w s)) := by
    intro u w s
    have hu := hself s
    rw [h4.enters_iff, h3.enters_iff, h2.enters_iff, enters_disconnected hv, Links.mem_pairs, hin, hout]
    grind
  have hskeleton4 : g4.skeleton = g.skeleton := skeleton_congr hframe4
  have howners4 : g4.owners = g.owners := owners_congr hframe4
  refine ⟨{ g4 with readers := g4.readers.eraseNode k }, ?_, ?_, ?_, ?_, ?_, henters⟩
  · rw [isolate, find_ok hv, ok_bind, modify_ok hk, ok_bind, hg2, ok_bind, hg3, ok_bind, hg4]
    rfl
  · exact hskeleton4
  · exact howners4
  · intro s j
    show j ∈ (g4.readers.eraseNode k).get s ↔ _
    rw [Links.mem_get_eraseNode, hreaders4]
  · intro u w s
    exact (hleaves u w s).trans (henters u w s).symm

/-!
## Several nodes
-/

/-- A way along edges on one state, with only nodes of `doomed` in between. -/
inductive Via (g : Graph ρ) (doomed : List NodeKey) (s : State) : NodeKey -> NodeKey -> Prop where
  | edge {u v : NodeKey} (enters : g.Enters u v s) : Via g doomed s u v
  | step {u k v : NodeKey} (before : Via g doomed s u k) (through : k ∈ doomed)
      (enters : g.Enters k v s) : Via g doomed s u v

namespace Via

theorem mono {g : Graph ρ} {doomed doomed' : List NodeKey} {s : State} {u v : NodeKey}
    (hsub : forall k, k ∈ doomed -> k ∈ doomed') (h : g.Via doomed s u v) :
    g.Via doomed' s u v := by
  induction h with
  | edge enters => exact .edge enters
  | step _ through enters ih => exact .step ih (hsub _ through) enters

theorem of_enters {g g' : Graph ρ} {doomed : List NodeKey} {s : State} {u v : NodeKey}
    (henters : forall u v, g.Enters u v s -> g'.Enters u v s) (h : g.Via doomed s u v) :
    g'.Via doomed s u v := by
  induction h with
  | edge enters => exact .edge (henters _ _ enters)
  | step _ through enters ih => exact .step ih through (henters _ _ enters)

theorem trans {g : Graph ρ} {doomed : List NodeKey} {s : State} {u k v : NodeKey}
    (h1 : g.Via doomed s u k) (hk : k ∈ doomed) (h2 : g.Via doomed s k v) :
    g.Via doomed s u v := by
  induction h2 with
  | edge enters => exact .step h1 hk enters
  | step _ through enters ih => exact .step ih through enters

theorem enters_last {g : Graph ρ} {doomed : List NodeKey} {s : State} {u v : NodeKey}
    (h : g.Via doomed s u v) : exists k, g.Enters k v s := by
  cases h with
  | edge enters => exact ⟨u, enters⟩
  | step _ _ enters => exact ⟨_, enters⟩

/-- A way that may also pass `k` does not, or it leads to `k` and on from `k`. -/
theorem split {g : Graph ρ} {doomed : List NodeKey} {s : State} {u v k : NodeKey}
    (h : g.Via (doomed ++ [k]) s u v) :
    g.Via doomed s u v ∨ (g.Via doomed s u k ∧ g.Via doomed s k v) := by
  induction h with
  | edge enters => exact Or.inl (.edge enters)
  | step _ through enters ih =>
      rcases List.mem_append.mp through with hin | hin
      · rcases ih with hold | ⟨hto, hfrom⟩
        · exact Or.inl (.step hold hin enters)
        · exact Or.inr ⟨hto, .step hfrom hin enters⟩
      · rw [List.mem_singleton] at hin
        subst hin
        rcases ih with hold | ⟨hto, _⟩
        · exact Or.inr ⟨hold, .edge enters⟩
        · exact Or.inr ⟨hto, .edge enters⟩

theorem comesBefore {g : Graph ρ} (hg : g.Keyed) (hf : g.Forward) {doomed : List NodeKey}
    {s : State} {u v : NodeKey} (h : g.Via doomed s u v) : ComesBefore g.keys u v := by
  induction h with
  | edge enters => exact hf _ _ s enters
  | step _ _ enters ih => exact ComesBefore.trans hg.nodup ih (hf _ _ s enters)

theorem irrefl {g : Graph ρ} (hg : g.Keyed) (hf : g.Forward) (doomed : List NodeKey)
    (s : State) (u : NodeKey) : ¬g.Via doomed s u u := by
  intro h
  exact ComesBefore.irrefl hg.nodup (h.comesBefore hg hf)

end Via

structure Cleared (g : Graph ρ) (doomed : List NodeKey) (g' : Graph ρ) : Prop where
  skeleton : g'.skeleton = g.skeleton
  owners : g'.owners = g.owners
  mem_readers : forall s j, j ∈ g'.readers.get s ↔ j ∈ g.readers.get s ∧ j ∉ doomed
  mirrored : forall u v s, g'.Leaves u v s ↔ g'.Enters u v s
  enters_iff : forall u v s, g'.Enters u v s ↔ u ∉ doomed ∧ v ∉ doomed ∧ g.Via doomed s u v

theorem Cleared.step {g g1 g2 : Graph ρ} {done : List NodeKey} {k : NodeKey}
    (h1 : g.Cleared done g1) (h2 : g1.Isolated k g2)
    (hloop : forall s u, ¬g.Via (done ++ [k]) s u u) : g.Cleared (done ++ [k]) g2 := by
  have hsub : forall j, j ∈ done -> j ∈ done ++ [k] := fun j hj => List.mem_append_left _ hj
  have hlast : k ∈ done ++ [k] := by simp
  refine ⟨h2.skeleton.trans h1.skeleton, h2.owners.trans h1.owners, ?_, h2.mirrored, ?_⟩
  · intro s j
    rw [h2.mem_readers, h1.mem_readers, List.mem_append, List.mem_singleton, not_or, and_assoc]
  · intro u v s
    rw [h2.enters_iff, h1.enters_iff, h1.enters_iff, h1.enters_iff, List.mem_append,
      List.mem_append, List.mem_singleton, List.mem_singleton, not_or, not_or]
    constructor
    · rintro ⟨huk, hvk, ⟨hu, hv, hvia⟩ | ⟨_, ⟨hu, _, hto⟩, ⟨_, hv, hfrom⟩⟩⟩
      · exact ⟨⟨hu, huk⟩, ⟨hv, hvk⟩, hvia.mono hsub⟩
      · exact ⟨⟨hu, huk⟩, ⟨hv, hvk⟩, (hto.mono hsub).trans hlast (hfrom.mono hsub)⟩
    · rintro ⟨⟨hu, huk⟩, ⟨hv, hvk⟩, hvia⟩
      refine ⟨huk, hvk, ?_⟩
      rcases hvia.split with hold | ⟨hto, hfrom⟩
      · exact Or.inl ⟨hu, hv, hold⟩
      · by_cases hk : k ∈ done
        · exact Or.inl ⟨hu, hv, hto.trans hk hfrom⟩
        · have hne : u ≠ v := by
            rintro rfl
            exact hloop s u hvia
          exact Or.inr ⟨hne, ⟨hu, hk, hto⟩, ⟨hk, hv, hfrom⟩⟩

theorem isolateAll_ok {g : Graph ρ} (hmirrored : forall u v s, g.Leaves u v s ↔ g.Enters u v s)
    {doomed : List NodeKey} (hdoomed : forall k, k ∈ doomed -> k ∈ g.keys)
    (hloop : forall s u, ¬g.Via doomed s u u) :
    exists g', doomed.foldlM isolate g = .ok g' ∧ g.Cleared doomed g' := by
  refine foldlM_ok_of_step (fun done g' => g.Cleared done g') ?_ ?_
  · intro done k rest g1 hsplit h1
    have hsub : forall j, j ∈ done ++ [k] -> j ∈ doomed := by
      intro j hj
      rw [hsplit, ← List.singleton_append, ← List.append_assoc]
      exact List.mem_append_left _ hj
    have hk : k ∈ g1.keys := by
      rw [keys_congr h1.skeleton]
      exact hdoomed k (hsub k (by simp))
    have hloop' : forall s u, ¬g.Via (done ++ [k]) s u u :=
      fun s u h => hloop s u (h.mono hsub)
    have hself : forall s, ¬g1.Enters k k s := by
      intro s hs
      have hvia := ((h1.enters_iff k k s).mp hs).right.right
      exact hloop s k (hvia.mono fun j hj => hsub j (List.mem_append_left _ hj))
    rcases isolate_ok h1.mirrored hk hself with ⟨g2, hg2, h2⟩
    exact ⟨g2, hg2, h1.step h2 hloop'⟩
  · refine ⟨rfl, rfl, ?_, hmirrored, ?_⟩
    · intro s j
      simp
    · intro u v s
      constructor
      · intro h
        exact ⟨List.not_mem_nil, List.not_mem_nil, .edge h⟩
      · rintro ⟨_, _, h⟩
        cases h with
        | edge enters => exact enters
        | step _ through _ => cases through

end Graph
end LaunchGraph
