import LaunchGraph.Graph.Window
import LaunchGraph.Proofs.Graph.Writers
import LaunchGraph.Proofs.Reachability

/-!
# Reachability in a window is computed

As long as the edges inside a window lead forward, reachability in the window can be
computed, whatever the edges outside of it do.  It is exact for the edges inside.
-/

namespace LaunchGraph
namespace Graph

variable {ρ : Type}

def windowOf (g : Graph ρ) (first last : Nat) : List (Vertex ρ) := (g.pending.take last).drop first

theorem windowOf_subset {g : Graph ρ} {first last : Nat} {v : Vertex ρ}
    (h : v ∈ g.windowOf first last) : v ∈ g.pending :=
  List.mem_of_mem_take (List.mem_of_mem_drop h)

theorem windowOf_sublist (g : Graph ρ) (first last : Nat) :
    (g.windowOf first last).Sublist g.pending :=
  (List.drop_sublist ..).trans (List.take_sublist ..)

theorem pendingRange_ok {g : Graph ρ} {first last : Nat} (hfirst : first ≤ last)
    (hlast : last ≤ g.pending.length) :
    g.pendingRange first last = .ok (g.windowOf first last) := by
  rw [pendingRange, if_pos ⟨hfirst, hlast⟩, windowOf]

theorem length_windowOf {g : Graph ρ} {first last : Nat} (hlast : last ≤ g.pending.length) :
    (g.windowOf first last).length = last - first := by
  rw [windowOf, List.length_drop, List.length_take, Nat.min_eq_left hlast]

theorem getElem?_windowOf {g : Graph ρ} {first last i : Nat} (h : first + i < last) :
    (g.windowOf first last)[i]? = g.pending[first + i]? := by
  rw [windowOf, List.getElem?_drop, List.getElem?_take, if_pos h]

theorem Numbered.getElem?_pendingId {g : Graph ρ} (h : g.Numbered) {v : Vertex ρ}
    (hv : v ∈ g.vertices) {i : Nat} (hi : v.pendingId = some i) : g.pending[i]? = some v := by
  rcases List.mem_append.mp hv with hx | hp
  · rw [h.executedIds v hx] at hi
    cases hi
  · rcases List.mem_iff_getElem?.mp hp with ⟨j, hj⟩
    have hid := h.pendingId_of_pending hj
    rw [hi, Option.some.injEq] at hid
    rw [hid]
    exact hj

/-- The targets of a node inside of a window are the places of the window's nodes that
its edges lead to. -/
theorem windowTargets_ok {g : Graph ρ} (hg : g.Linked) (first last : Nat) {v : Vertex ρ}
    (hv : v ∈ g.vertices) :
    exists targets, g.windowTargets first last v = .ok targets ∧
      forall i, i ∈ targets ↔ first + i < last ∧
        exists w s, g.pending[first + i]? = some w ∧ g.Enters v.key w.key s := by
  have houtputs := outputsOf_of_find? (find?_of_mem hg.keyed.nodup hv)
  have htarget : forall k, k ∈ v.outputs.neighbors ↔ exists s, g.Enters v.key k s := by
    intro k
    rw [Links.mem_neighbors]
    refine exists_congr fun s => ?_
    rw [← houtputs, ← hg.mirrored]
    exact Iff.rfl
  have hfind : v.outputs.neighbors.mapM g.find = .ok (v.outputs.neighbors.map g.vertexOf) := by
    refine mapM_find_ok fun k hk => ?_
    rcases (htarget k).mp hk with ⟨s, hs⟩
    exact hs.target_mem
  refine ⟨_, by rw [windowTargets, hfind]; rfl, ?_⟩
  intro i
  rw [← OrderedSet.mem_def, OrderedSet.mem_ofList, List.mem_map]
  simp only [List.mem_filter, List.mem_filterMap, List.mem_map, Bool.and_eq_true,
    decide_eq_true_eq]
  constructor
  · rintro ⟨p, ⟨⟨w, ⟨k, hk, rfl⟩, hid⟩, hfirst, hlast⟩, rfl⟩
    rcases (htarget k).mp hk with ⟨s, hs⟩
    have hkey := key_vertexOf hs.target_mem
    rw [show first + (p - first) = p from by omega]
    refine ⟨hlast, g.vertexOf k, s, ?_, ?_⟩
    · exact hg.numbered.getElem?_pendingId (vertexOf_mem hs.target_mem) hid
    · rw [hkey]
      exact hs
  · rintro ⟨hlast, w, s, hw, hs⟩
    have hmem : w ∈ g.pending := List.mem_of_getElem? hw
    have hfound := hg.keyed.vertexOf_key (mem_vertices_of_pending hmem)
    refine ⟨first + i, ⟨⟨w, ⟨w.key, (htarget w.key).mpr ⟨s, hs⟩, hfound⟩, ?_⟩, by omega, hlast⟩,
      by omega⟩
    exact hg.numbered.pendingId_of_pending hw

theorem place_lt_of_enters {g : Graph ρ} {window : List (Vertex ρ)}
    (hkeys : (window.map (·.key)).Nodup)
    (hforward : forall u v s, u ∈ window -> v ∈ window -> g.Enters u.key v.key s ->
      ComesBefore (window.map (·.key)) u.key v.key)
    {u v : Vertex ρ} {x y : Nat} {s : State} (hu : window[x]? = some u) (hv : window[y]? = some v)
    (hs : g.Enters u.key v.key s) : x < y := by
  have hbefore := hforward u v s (List.mem_of_getElem? hu) (List.mem_of_getElem? hv) hs
  refine Nat.lt_of_not_le fun hle => ?_
  rcases Nat.lt_or_eq_of_le hle with hlt | rfl
  · have hback := ComesBefore.of_getElem? hlt hv hu
    exact ComesBefore.asymm hkeys hbefore (hback.map (·.key))
  · rw [hv, Option.some.injEq] at hu
    subst hu
    exact ComesBefore.irrefl hkeys hbefore

def StepIn (g : Graph ρ) (first last x y : Nat) : Prop :=
  exists u v s, (g.windowOf first last)[x]? = some u ∧ (g.windowOf first last)[y]? = some v ∧
    g.Enters u.key v.key s

theorem reachability_exact {g : Graph ρ} (hg : g.Linked) {first last : Nat} (hfirst : first ≤ last)
    (hlast : last ≤ g.pending.length)
    (hforward : forall x y, g.StepIn first last x y -> x < y) :
    exists r, g.reachability first last = .ok r ∧
      r.Exact (last - first) (g.StepIn first last) := by
  have hvertices : forall v, v ∈ g.windowOf first last -> v ∈ g.vertices :=
    fun v hv => mem_vertices_of_pending (windowOf_subset hv)
  have htotal : forall v : Vertex ρ, exists targets, v ∈ g.vertices ->
      g.windowTargets first last v = .ok targets ∧
        forall i, i ∈ targets ↔ first + i < last ∧
          exists w s, g.pending[first + i]? = some w ∧ g.Enters v.key w.key s := by
    intro v
    by_cases hv : v ∈ g.vertices
    · rcases windowTargets_ok hg first last hv with ⟨targets, htargets⟩
      exact ⟨targets, fun _ => htargets⟩
    · exact ⟨[], fun hin => absurd hin hv⟩
  choose targets htargets using htotal
  have hrun : (g.windowOf first last).mapM (g.windowTargets first last)
      = .ok ((g.windowOf first last).map targets) :=
    mapM_ok_of_forall fun v hv => (htargets v (hvertices v hv)).left
  have hlength : ((g.windowOf first last).map targets).length = last - first := by
    rw [List.length_map, length_windowOf hlast]
  have hbound : forall {y : Nat} {v : Vertex ρ}, (g.windowOf first last)[y]? = some v ->
      first + y < last := by
    intro y v hv
    have hlt := (List.getElem?_eq_some_iff.mp hv).1
    rw [length_windowOf hlast] at hlt
    omega
  have hsteps : forall x y,
      Reachability.SuccessorOf ((g.windowOf first last).map targets) x y ↔
        g.StepIn first last x y := by
    intro x y
    constructor
    · rintro ⟨next, hx, hy⟩
      rw [List.getElem?_map] at hx
      rcases Option.map_eq_some_iff.mp hx with ⟨u, hu, rfl⟩
      rcases ((htargets u (hvertices u (List.mem_of_getElem? hu))).right y).mp hy
        with ⟨hlt, v, s, hv, hs⟩
      refine ⟨u, v, s, hu, ?_, hs⟩
      rw [getElem?_windowOf hlt]
      exact hv
    · rintro ⟨u, v, s, hu, hv, hs⟩
      have hlt := hbound hv
      rw [getElem?_windowOf hlt] at hv
      refine ⟨targets u, by rw [List.getElem?_map, hu]; rfl, ?_⟩
      exact ((htargets u (hvertices u (List.mem_of_getElem? hu))).right y).mpr ⟨hlt, v, s, hv, hs⟩
  have hsuccessors : forall x y,
      Reachability.SuccessorOf ((g.windowOf first last).map targets) x y ->
        x < y ∧ y < ((g.windowOf first last).map targets).length := by
    intro x y hxy
    have hstep := (hsteps x y).mp hxy
    refine ⟨hforward x y hstep, ?_⟩
    rcases hstep with ⟨_, v, _, _, hv, _⟩
    rw [List.length_map]
    exact (List.getElem?_eq_some_iff.mp hv).1
  rcases Reachability.ofSuccessors_exact hsuccessors with ⟨r, hr, hexact⟩
  rw [hlength] at hexact
  refine ⟨r, ?_, hexact.congr hsteps⟩
  rw [reachability, pendingRange_ok hfirst hlast, ok_bind, hrun, ok_bind]
  exact hr

theorem reachability_ok {g : Graph ρ} (hg : g.Linked) {first last : Nat} (hfirst : first ≤ last)
    (hlast : last ≤ g.pending.length)
    (hforward : forall u v s, u ∈ g.windowOf first last -> v ∈ g.windowOf first last ->
      g.Enters u.key v.key s -> ComesBefore ((g.windowOf first last).map (·.key)) u.key v.key) :
    exists r, g.reachability first last = .ok r ∧ r.Closed (g.windowOf first last).length ∧
      (forall x y, r.reaches x y = true -> x ≤ y) ∧
      (forall u x v y s, (u, x) ∈ (g.windowOf first last).zipIdx ->
        (v, y) ∈ (g.windowOf first last).zipIdx -> g.Enters u.key v.key s ->
        r.reaches x y = true) := by
  have hkeys : ((g.windowOf first last).map (·.key)).Nodup :=
    hg.keyed.nodup_pending.sublist ((g.windowOf_sublist first last).map _)
  have hlt : forall x y, g.StepIn first last x y -> x < y := by
    rintro x y ⟨u, v, s, hu, hv, hs⟩
    exact place_lt_of_enters hkeys hforward hu hv hs
  rcases reachability_exact hg hfirst hlast hlt with ⟨r, hr, hexact⟩
  refine ⟨r, hr, ?_, ?_, ?_⟩
  · rw [length_windowOf hlast]
    refine hexact.closed ?_
    rintro x y ⟨_, v, _, _, hv, _⟩
    rw [← length_windowOf hlast]
    exact (List.getElem?_eq_some_iff.mp hv).1
  · intro x y hxy
    exact Reachability.le_of_steps hlt ((hexact.reaches_iff x y).mp hxy).right
  · intro u x v y s hu hv hs
    have hux := List.mk_mem_zipIdx_iff_getElem?.mp hu
    have hvy := List.mk_mem_zipIdx_iff_getElem?.mp hv
    refine (hexact.reaches_iff x y).mpr ⟨?_, .single ⟨u, v, s, hux, hvy, hs⟩⟩
    rw [← length_windowOf hlast]
    exact (List.getElem?_eq_some_iff.mp hux).1

end Graph
end LaunchGraph
