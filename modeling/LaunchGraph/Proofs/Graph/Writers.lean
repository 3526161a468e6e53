import LaunchGraph.Graph.Writers
import LaunchGraph.Proofs.Graph.Sound

/-!
# The way back along writers

Going back from a node to its previous writer follows, on one state, the latest
source that writes the state.  In a graph whose edges lead forward the way back
ends, since every step leads to an earlier position.
-/

namespace LaunchGraph
namespace Graph

variable {ρ : Type}

def vertexOf (g : Graph ρ) (k : NodeKey) : Vertex ρ := (g.find? k).getD g.initial

theorem vertexOf_of_find? {g : Graph ρ} {k : NodeKey} {v : Vertex ρ} (h : g.find? k = some v) :
    g.vertexOf k = v := by
  rw [vertexOf, h]
  rfl

theorem find?_vertexOf {g : Graph ρ} {k : NodeKey} (h : k ∈ g.keys) :
    g.find? k = some (g.vertexOf k) := by
  rcases exists_find? h with ⟨v, hv⟩
  rw [vertexOf_of_find? hv, hv]

theorem find_vertexOf {g : Graph ρ} {k : NodeKey} (h : k ∈ g.keys) :
    g.find k = .ok (g.vertexOf k) :=
  find_ok (find?_vertexOf h)

theorem mapM_find_ok {g : Graph ρ} {ks : List NodeKey} (h : forall k, k ∈ ks -> k ∈ g.keys) :
    ks.mapM g.find = .ok (ks.map g.vertexOf) :=
  mapM_ok_of_forall fun k hk => find_vertexOf (h k hk)

theorem key_vertexOf {g : Graph ρ} {k : NodeKey} (h : k ∈ g.keys) : (g.vertexOf k).key = k :=
  key_of_find? (find?_vertexOf h)

theorem vertexOf_mem {g : Graph ρ} {k : NodeKey} (h : k ∈ g.keys) :
    g.vertexOf k ∈ g.vertices :=
  mem_of_find? (find?_vertexOf h)

theorem Keyed.vertexOf_key {g : Graph ρ} (h : g.Keyed) {v : Vertex ρ} (hv : v ∈ g.vertices) :
    g.vertexOf v.key = v :=
  vertexOf_of_find? (find?_of_mem h.nodup hv)

theorem Keyed.vertexOf_pending {g : Graph ρ} (h : g.Keyed) {k : NodeKey}
    (hk : k ∈ g.pendingKeys) : g.vertexOf k ∈ g.pending := by
  have hmem := pendingKeys_subset hk
  refine h.mem_pending_of_key (vertexOf_mem hmem) ?_
  rw [key_vertexOf hmem]
  exact hk

theorem vertexOf_writes {g : Graph ρ} {k : NodeKey} (h : k ∈ g.keys) {s : State} :
    (g.vertexOf k).writes s = true ↔ g.WritesAt k s := by
  rw [WritesAt, find?_vertexOf h]
  simp

theorem vertexOf_reads {g : Graph ρ} {k : NodeKey} (h : k ∈ g.keys) {s : State} :
    (g.vertexOf k).reads s = true ↔ g.ReadsAt k s := by
  rw [ReadsAt, find?_vertexOf h]
  simp

theorem Sound.find_inputs {g : Graph ρ} (hg : g.Sound) {v : Vertex ρ} (hv : v ∈ g.vertices)
    (s : State) : (v.inputs.get s).mapM g.find = .ok ((v.inputs.get s).map g.vertexOf) := by
  refine mapM_find_ok ?_
  intro k hk
  have henters : g.Enters k v.key s := by
    rw [Enters, inputsOf_of_find? (find?_of_mem hg.keyed.nodup hv)]
    exact hk
  exact hg.wired.source_mem henters

theorem Sound.find_outputs {g : Graph ρ} (hg : g.Sound) {v : Vertex ρ} (hv : v ∈ g.vertices)
    (s : State) : (v.outputs.get s).mapM g.find = .ok ((v.outputs.get s).map g.vertexOf) := by
  refine mapM_find_ok ?_
  intro k hk
  have hleaves : g.Leaves v.key k s := by
    rw [Leaves, outputsOf_of_find? (find?_of_mem hg.keyed.nodup hv)]
    exact hk
  exact ((hg.wired.mirrored _ _ s).mp hleaves).target_mem

/-!
## The latest source
-/

/-- Of the sources of a node's edges on a state that write the state, the one
that is last in the sequence. -/
structure LatestSource (g : Graph ρ) (s : State) (k w : NodeKey) : Prop where
  enters : g.Enters w k s
  writes : g.WritesAt w s
  latest : forall u, g.Enters u k s -> g.WritesAt u s -> u = w ∨ ComesBefore g.keys u w

theorem laterOf_eq_some (a : Option (Vertex ρ)) (b : Vertex ρ) :
    exists w, laterOf a b = some w ∧ (w = b ∨ a = some w) ∧ b.nodeId ≤ w.nodeId ∧
      forall u, a = some u -> u.nodeId ≤ w.nodeId := by
  cases a with
  | none => exact ⟨b, rfl, Or.inl rfl, Nat.le_refl _, fun u hu => by cases hu⟩
  | some a =>
      rw [laterOf]
      split
      · next h =>
          refine ⟨a, rfl, Or.inr rfl, Nat.le_of_lt h, ?_⟩
          intro u hu
          cases hu
          exact Nat.le_refl _
      · next h =>
          refine ⟨b, rfl, Or.inl rfl, Nat.le_refl _, ?_⟩
          intro u hu
          cases hu
          exact Nat.not_lt.mp h

theorem foldl_laterOf (l : List (Vertex ρ)) (a : Option (Vertex ρ)) :
    (l.foldl laterOf a = none -> a = none ∧ l = []) ∧
    forall w, l.foldl laterOf a = some w ->
      (w ∈ l ∨ a = some w) ∧ (forall u, u ∈ l -> u.nodeId ≤ w.nodeId) ∧
        forall u, a = some u -> u.nodeId ≤ w.nodeId := by
  induction l generalizing a with
  | nil =>
      constructor
      · intro h
        exact ⟨h, rfl⟩
      · intro w hw
        refine ⟨Or.inr hw, ?_, ?_⟩
        · intro u hu
          cases hu
        · intro u hu
          rw [List.foldl_nil] at hw
          rw [hw] at hu
          cases hu
          exact Nat.le_refl _
  | cons b l ih =>
      rcases laterOf_eq_some a b with ⟨c, hc, hor, hbc, hac⟩
      rw [List.foldl_cons, hc]
      constructor
      · intro h
        have hnone := ((ih (some c)).left h).left
        cases hnone
      · intro w hw
        rcases (ih (some c)).right w hw with ⟨hmem, hle, hcw⟩
        have hc_le := hcw c rfl
        refine ⟨?_, ?_, ?_⟩
        · rcases hmem with hmem | hmem
          · exact Or.inl (List.mem_cons_of_mem _ hmem)
          · cases hmem
            rcases hor with rfl | hor
            · exact Or.inl (List.mem_cons_self ..)
            · exact Or.inr hor
        · intro u hu
          rcases List.mem_cons.mp hu with rfl | hu
          · exact Nat.le_trans hbc hc_le
          · exact hle u hu
        · intro u hu
          exact Nat.le_trans (hac u hu) hc_le

theorem latestSource_ok {g : Graph ρ} (hg : g.Sound) {k : NodeKey} {v : Vertex ρ}
    (hv : g.find? k = some v) (s : State) :
    exists o, g.latestSource v s = .ok o ∧
      (o = none -> forall u, g.Enters u k s -> ¬g.WritesAt u s) ∧
      (forall w, o = some w -> w ∈ g.vertices ∧ g.LatestSource s k w.key) := by
  have hsource : forall u, u ∈ v.inputs.get s ↔ g.Enters u k s := by
    intro u
    rw [Enters, inputsOf_of_find? hv]
  have hmem : forall u, u ∈ v.inputs.get s -> u ∈ g.keys := by
    intro u hu
    exact hg.wired.source_mem ((hsource u).mp hu)
  let writers := ((v.inputs.get s).map g.vertexOf).filter (·.writes s)
  have hwriters : forall u, g.Enters u k s -> g.WritesAt u s -> g.vertexOf u ∈ writers := by
    intro u hu hw
    have huk := hmem u ((hsource u).mpr hu)
    exact List.mem_filter.mpr
      ⟨List.mem_map_of_mem ((hsource u).mpr hu), (vertexOf_writes huk).mpr hw⟩
  rcases foldl_laterOf writers none with ⟨hnone, hsome⟩
  refine ⟨writers.foldl laterOf none, ?_, ?_, ?_⟩
  · rw [latestSource, mapM_find_ok hmem]
    rfl
  · intro ho u hu hw
    have hin := hwriters u hu hw
    rw [(hnone ho).right] at hin
    cases hin
  · intro w hw
    rcases hsome w hw with ⟨hin, hmax, _⟩
    rcases hin with hin | hin
    · rcases List.mem_filter.mp hin with ⟨hmap, hwrites⟩
      rcases List.mem_map.mp hmap with ⟨u, hu, rfl⟩
      have huk := hmem u hu
      have hkey := key_vertexOf huk
      refine ⟨vertexOf_mem huk, ?_, ?_, ?_⟩
      · rw [hkey]
        exact (hsource u).mp hu
      · rw [hkey]
        exact (vertexOf_writes huk).mp hwrites
      · intro x hx hxw
        rw [hkey]
        by_cases hxu : x = u
        · exact Or.inl hxu
        · have hxk := hmem x ((hsource x).mpr hx)
          have hle := hmax _ (hwriters x hx hxw)
          rcases ComesBefore.total hxk huk hxu with hbefore | hafter
          · exact Or.inr hbefore
          · have hlt := hg.numbered.nodeId_lt_iff hg.keyed (vertexOf_mem huk) (vertexOf_mem hxk)
            rw [hkey, key_vertexOf hxk] at hlt
            exact absurd (hlt.mpr hafter) (Nat.not_lt.mpr hle)
    · cases hin

/-!
## The whole way
-/

/-- Where the way back from a node along the writers of a state ends, if the nodes
in `skip` are passed by. -/
inductive WriterChain (g : Graph ρ) (s : State) (skip : List NodeKey) :
    NodeKey -> NodeKey -> Prop where
  | root {k : NodeKey} (none : forall u, g.Enters u k s -> ¬g.WritesAt u s) :
      WriterChain g s skip k g.initial.key
  | stop {k w : NodeKey} (source : g.LatestSource s k w) (out : w ∉ skip) :
      WriterChain g s skip k w
  | pass {k w z : NodeKey} (source : g.LatestSource s k w) (skipped : w ∈ skip)
      (rest : WriterChain g s skip w z) : WriterChain g s skip k z

theorem WriterChain.writes {g : Graph ρ} (hg : g.Sound) {s : State} {skip : List NodeKey}
    {k w : NodeKey} (h : WriterChain g s skip k w) : g.WritesAt w s := by
  induction h with
  | root none => exact hg.initial_writesAt s
  | stop source out => exact source.writes
  | pass source skipped rest ih => exact ih

theorem WriterChain.not_mem_skip {g : Graph ρ} {s : State} {skip : List NodeKey}
    {k w : NodeKey} (h : WriterChain g s skip k w) (hinitial : g.initial.key ∉ skip) :
    w ∉ skip := by
  induction h with
  | root none => exact hinitial
  | stop source out => exact out
  | pass source skipped rest ih => exact ih

theorem writerBefore_ok {g : Graph ρ} (hg : g.Sound) (hf : g.Forward) (s : State)
    (skip : List NodeKey) (fuel : Nat) {k : NodeKey} (hk : k ∈ g.keys)
    (hfuel : (g.vertexOf k).nodeId < fuel) :
    exists w, g.writerBefore s skip fuel k = .ok w ∧ WriterChain g s skip k w := by
  induction fuel generalizing k with
  | zero => exact absurd hfuel (Nat.not_lt_zero _)
  | succ fuel ih =>
      rcases latestSource_ok hg (find?_vertexOf hk) s with ⟨o, ho, hnone, hsome⟩
      rw [writerBefore, find_vertexOf hk, ok_bind, ho, ok_bind]
      cases o with
      | none => exact ⟨_, rfl, .root (hnone rfl)⟩
      | some w =>
          rcases hsome w rfl with ⟨hw, hlatest⟩
          dsimp only
          by_cases hskip : w.key ∈ skip
          · rw [if_pos hskip]
            have hbefore := hf w.key k s hlatest.enters
            have hlt := hg.numbered.nodeId_lt_iff hg.keyed hw (vertexOf_mem hk)
            rw [key_vertexOf hk] at hlt
            have hdecrease : (g.vertexOf w.key).nodeId < fuel := by
              have := hlt.mpr hbefore
              rw [hg.keyed.vertexOf_key hw]
              omega
            rcases ih (key_mem_keys hw) hdecrease with ⟨z, hz, hchain⟩
            exact ⟨z, hz, .pass hlatest hskip hchain⟩
          · rw [if_neg hskip]
            exact ⟨w.key, rfl, .stop hlatest hskip⟩

theorem priorWriter_ok {g : Graph ρ} (hg : g.Sound) (hf : g.Forward) {k : NodeKey}
    (hk : k ∈ g.keys) (s : State) (skip : List NodeKey) :
    exists w, g.priorWriter k s skip = .ok w ∧ WriterChain g s skip k w := by
  refine writerBefore_ok hg hf s skip _ hk ?_
  have := hg.numbered.nodeId_lt_size (vertexOf_mem hk)
  omega

structure OwnersLeft (g : Graph ρ) (doomed : List NodeKey) (owners : Table State NodeKey) :
    Prop where
  none : forall s, g.owners.get? s = none -> owners.get? s = none
  kept : forall s k, g.owners.get? s = some k -> k ∉ doomed -> owners.get? s = some k
  fallen : forall s k, g.owners.get? s = some k -> k ∈ doomed ->
    exists w, owners.get? s = some w ∧ WriterChain g s doomed k w

theorem ownersWithout_ok_of_prior {g : Graph ρ} {doomed : List NodeKey}
    (hprior : forall s k, g.owners.get? s = some k -> k ∈ doomed ->
      exists w, g.priorWriter k s doomed = .ok w ∧ WriterChain g s doomed k w) :
    exists owners, g.ownersWithout doomed = .ok owners ∧ g.OwnersLeft doomed owners := by
  have hentry : forall s k, g.owners.get? s = some k ->
      exists w, (if k ∈ doomed then g.priorWriter k s doomed else pure k) = .ok w ∧
        (k ∉ doomed -> w = k) ∧ (k ∈ doomed -> WriterChain g s doomed k w) := by
    intro s k hk
    by_cases hd : k ∈ doomed
    · rcases hprior s k hk hd with ⟨w, hw, hchain⟩
      exact ⟨w, by rw [if_pos hd, hw], fun hn => absurd hd hn, fun _ => hchain⟩
    · exact ⟨k, by rw [if_neg hd]; rfl, fun _ => rfl, fun hd' => absurd hd' hd⟩
  have htotal : forall s k, g.owners.get? s = some k ->
      exists w, (if k ∈ doomed then g.priorWriter k s doomed else pure k) = .ok w := by
    intro s k hk
    rcases hentry s k hk with ⟨w, hw, _⟩
    exact ⟨w, hw⟩
  rcases Table.traverse_ok htotal with ⟨owners, howners, hnone, hsome⟩
  refine ⟨owners, howners, hnone, ?_, ?_⟩
  · intro s k hk hd
    rcases hsome s k hk with ⟨w, hw, hget⟩
    rcases hentry s k hk with ⟨w', hw', hout, _⟩
    rw [hw] at hw'
    cases hw'
    rw [hget, hout hd]
  · intro s k hk hd
    rcases hsome s k hk with ⟨w, hw, hget⟩
    rcases hentry s k hk with ⟨w', hw', _, hin⟩
    rw [hw] at hw'
    cases hw'
    exact ⟨w, hget, hin hd⟩

theorem ownersWithout_ok {g : Graph ρ} (hg : g.Sound) (hf : g.Forward)
    (doomed : List NodeKey) :
    exists owners, g.ownersWithout doomed = .ok owners ∧ g.OwnersLeft doomed owners :=
  ownersWithout_ok_of_prior fun s k hk _ =>
    priorWriter_ok hg hf (hg.owned.owner_mem s k hk) s doomed

/-- The owners that are left are in the sequence, are not doomed, and are the
owners from before or write what they own. -/
theorem OwnersLeft.cases {g : Graph ρ} {doomed : List NodeKey} {owners : Table State NodeKey}
    (h : g.OwnersLeft doomed owners) (hg : g.Sound) (hinitial : g.initial.key ∉ doomed)
    {s : State} {k : NodeKey} (hk : owners.get? s = some k) :
    k ∉ doomed ∧ (g.owners.get? s = some k ∨ g.WritesAt k s) := by
  cases ho : g.owners.get? s with
  | none =>
      rw [h.none s ho] at hk
      cases hk
  | some j =>
      by_cases hj : j ∈ doomed
      · rcases h.fallen s j ho hj with ⟨w, hw, hchain⟩
        rw [hw] at hk
        cases hk
        exact ⟨hchain.not_mem_skip hinitial, Or.inr (hchain.writes hg)⟩
      · have hkept := h.kept s j ho hj
        rw [hkept] at hk
        cases hk
        exact ⟨hj, Or.inl rfl⟩

end Graph
end LaunchGraph
