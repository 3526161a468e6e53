import LaunchGraph.Proofs.Graph.Execute
import LaunchGraph.Proofs.Pass.Fusing
import LaunchGraph.Proofs.Program
import Mathlib.Logic.Relation

/-!
# Reachability in a window is exact

Reachability in a window only looks at edges inside.  As long as no path leaves the
window and comes back, it is still exact for paths through the whole graph.  That is so
where all edges lead forward.  Fusing in a window puts edges in that lead backward, but
these never lead out of that window: give every fused node a home among the members of
its group, and every edge leads to a later home, or stays inside one fused window.
So for all other windows reachability remains exact.
-/

namespace LaunchGraph

/-!
## Homes
-/

def Apart (w q : Nat × Nat) : Prop := forall i, ¬(w.1 ≤ i ∧ i < w.2 ∧ q.1 ≤ i ∧ i < q.2)

/-- The place `n` of the sequence is in a range of pending positions, which are counted
from the place `start` on. -/
def Inside (start : Nat) (w : Nat × Nat) (n : Nat) : Prop :=
  start + w.1 ≤ n ∧ n < start + w.2

theorem Apart.not_inside {w q : Nat × Nat} (h : Apart w q) {start n : Nat}
    (hw : Inside start w n) : ¬Inside start q n := by
  intro hq
  unfold Inside at hw hq
  exact h (n - start) (by omega)

/-- From one home to the next: forward, or around in one of the windows. -/
def Flows (start : Nat) (windows : List (Nat × Nat)) (a b : Nat) : Prop :=
  a < b ∨ exists q, q ∈ windows ∧ Inside start q a ∧ Inside start q b

namespace Flows

variable {start : Nat} {windows : List (Nat × Nat)} {w : Nat × Nat} {a b a' b' : Nat}

theorem mono {more : List (Nat × Nat)} (h : Flows start windows a b)
    (hmore : forall q, q ∈ windows -> q ∈ more) : Flows start more a b := by
  rcases h with hlt | ⟨q, hq, ha, hb⟩
  · exact Or.inl hlt
  · exact Or.inr ⟨q, hmore q hq, ha, hb⟩

theorem move (h : Flows start windows a b) (hw : w ∈ windows)
    (hapart : forall q, q ∈ windows -> q = w ∨ Apart q w)
    (ha : a' = a ∨ (Inside start w a ∧ Inside start w a'))
    (hb : b' = b ∨ (Inside start w b ∧ Inside start w b')) : Flows start windows a' b' := by
  -- an end that moves is inside of no other window
  have hwindow : forall q, q ∈ windows -> forall n, Inside start q n -> Inside start w n -> q = w := by
    intro q hq n hqn hwn
    exact (hapart q hq).resolve_right fun happ => happ.not_inside hqn hwn
  by_cases hboth : Inside start w a' ∧ Inside start w b'
  · exact Or.inr ⟨w, hw, hboth⟩
  rcases ha with rfl | ⟨haw, haw'⟩
  · rcases hb with rfl | ⟨hbw, hbw'⟩
    · exact h
    · rcases h with hlt | ⟨q, hq, hqa, hqb⟩
      · refine Or.inl ?_
        unfold Inside at hboth hbw hbw'
        omega
      · rw [hwindow q hq b hqb hbw] at hqa
        exact absurd ⟨hqa, hbw'⟩ hboth
  · rcases hb with rfl | ⟨_, hbw'⟩
    · rcases h with hlt | ⟨q, hq, hqa, hqb⟩
      · refine Or.inl ?_
        unfold Inside at hboth haw haw'
        omega
      · rw [hwindow q hq a hqa haw] at hqb
        exact absurd ⟨haw', hqb⟩ hboth
    · exact absurd ⟨haw', hbw'⟩ hboth

/-- From inside of a window that is apart from all others, the only way is forward. -/
theorem lt_of_inside (h : Flows start windows a b) (hapart : forall q, q ∈ windows -> Apart q w)
    (ha : Inside start w a) : a < b := by
  rcases h with hlt | ⟨q, hq, hqa, _⟩
  · exact hlt
  · exact absurd ha ((hapart q hq).not_inside hqa)

theorem behind (h : Flows start windows a b) (hapart : forall q, q ∈ windows -> Apart q w)
    (hnonempty : w.1 < w.2) (ha : start + w.2 ≤ a) : start + w.2 ≤ b := by
  rcases h with hlt | ⟨q, hq, hqa, hqb⟩
  · omega
  · unfold Inside at hqa hqb
    by_contra hback
    exact hapart q hq (w.2 - 1) (by omega)

end Flows

namespace Graph

variable {ρ : Type} {g0 g : Graph ρ} {windows : List (Nat × Nat)} {home : NodeKey -> Nat}

/-- The graph `g` is `g0` with fused nodes at its end, where `home` gives every node a
place in the sequence of `g0`: its own, or one in a fused window. -/
structure Homed (g0 : Graph ρ) (windows : List (Nat × Nat)) (home : NodeKey -> Nat)
    (g : Graph ρ) : Prop where
  linked : g.Linked
  no_self : forall k s, ¬g.Enters k k s
  executed : g.executed.map (·.key) = g0.executed.map (·.key)
  appended : exists fused, g.pendingKeys = g0.pendingKeys ++ fused
  original : forall (i : Nat) k, g0.keys[i]? = some k -> home k = i
  fused : forall k, k ∈ g.keys -> k ∉ g0.keys ->
    exists w, w ∈ windows ∧ Inside g0.firstPending w (home k)
  flows : forall u v s, g.Enters u v s -> Flows g0.firstPending windows (home u) (home v)

namespace Homed

theorem start (hg : g.Linked) (hf : g.Forward) : exists home, Homed g [] home g := by
  have hplace : forall (i : Nat) k, g.keys[i]? = some k -> (g.vertexOf k).nodeId = i := by
    intro i k hk
    rw [keys, List.getElem?_map, Option.map_eq_some_iff] at hk
    rcases hk with ⟨v, hv, rfl⟩
    have hid : (g.vertices.map (·.nodeId))[i]? = some v.nodeId := by
      rw [List.getElem?_map, hv]
      rfl
    have hlt : i < g.size := (List.getElem?_eq_some_iff.mp hv).1
    rw [hg.numbered.nodeIds, List.getElem?_range hlt] at hid
    rw [hg.keyed.vertexOf_key (List.mem_of_getElem? hv)]
    exact (Option.some.inj hid).symm
  refine ⟨fun k => (g.vertexOf k).nodeId, hg, ?_, rfl, ⟨[], (List.append_nil _).symm⟩, hplace, ?_,
    ?_⟩
  · intro k s hk
    exact ComesBefore.irrefl hg.keyed.nodup (hf k k s hk)
  · intro k hk hnot
    exact absurd hk hnot
  · intro u v s huv
    have hu := hg.source_mem huv
    have hv := huv.target_mem
    refine Or.inl ((hg.numbered.nodeId_lt_iff hg.keyed (vertexOf_mem hu) (vertexOf_mem hv)).mpr ?_)
    rw [key_vertexOf hu, key_vertexOf hv]
    exact hf u v s huv

theorem mono (h : Homed g0 windows home g) {more : List (Nat × Nat)}
    (hmore : forall q, q ∈ windows -> q ∈ more) : Homed g0 more home g := by
  refine ⟨h.linked, h.no_self, h.executed, h.appended, h.original, ?_, ?_⟩
  · intro k hk hnot
    rcases h.fused k hk hnot with ⟨w, hw, hin⟩
    exact ⟨w, hmore w hw, hin⟩
  · intro u v s huv
    exact (h.flows u v s huv).mono hmore

theorem pending_le (h : Homed g0 windows home g) : g0.pending.length ≤ g.pending.length := by
  rcases h.appended with ⟨fused, happended⟩
  have hlength := congrArg List.length happended
  rw [List.length_append, pendingKeys, pendingKeys, List.length_map, List.length_map] at hlength
  omega

theorem pendingKey (h : Homed g0 windows home g) {i : Nat} (hi : i < g0.pending.length) :
    g.pendingKeys[i]? = g0.pendingKeys[i]? := by
  rcases h.appended with ⟨fused, happended⟩
  rw [happended, List.getElem?_append_left]
  rw [pendingKeys, List.length_map]
  exact hi

theorem home_pending (h : Homed g0 windows home g) {i : Nat} {v : Vertex ρ}
    (hv : g.pending[i]? = some v) (hi : i < g0.pending.length) :
    home v.key = g0.firstPending + i := by
  have hkey : g.pendingKeys[i]? = some v.key := by
    rw [pendingKeys, List.getElem?_map, hv]
    rfl
  refine h.original _ _ ?_
  have hlength : (g0.executed.map (·.key)).length = g0.firstPending := List.length_map ..
  rw [keys_eq_append, List.getElem?_append_right (by omega), hlength, Nat.add_sub_cancel_left,
    ← h.pendingKey hi]
  exact hkey

theorem pending_of_inside (h : Homed g0 windows home g) {w : Nat × Nat}
    (hapart : forall q, q ∈ windows -> Apart q w) (hlast : w.2 ≤ g0.pending.length)
    {k : NodeKey} (hk : k ∈ g.keys) (hin : Inside g0.firstPending w (home k)) :
    exists i v, w.1 + i < w.2 ∧ g.pending[w.1 + i]? = some v ∧ v.key = k := by
  have hold : k ∈ g0.keys := by
    by_contra hnot
    rcases h.fused k hk hnot with ⟨q, hq, hqk⟩
    exact (hapart q hq).not_inside hqk hin
  rcases List.mem_iff_getElem?.mp hold with ⟨p, hp⟩
  have hhome := h.original p k hp
  unfold Inside at hin
  refine ⟨p - g0.firstPending - w.1, ?_⟩
  have hplace : w.1 + (p - g0.firstPending - w.1) = p - g0.firstPending := by omega
  rw [hplace]
  have hbound : p - g0.firstPending < g0.pending.length := by omega
  have hlength : (g0.executed.map (·.key)).length = g0.firstPending := List.length_map ..
  rw [keys_eq_append, List.getElem?_append_right (by omega), hlength, ← h.pendingKey hbound,
    pendingKeys, List.getElem?_map, Option.map_eq_some_iff] at hp
  rcases hp with ⟨v, hv, hkey⟩
  exact ⟨v, by omega, hv, hkey⟩

/-!
## Exactness
-/

theorem mem_windowOf_iff {first last i : Nat} {v : Vertex ρ} (hlast : last ≤ g.pending.length) :
    (g.windowOf first last)[i]? = some v ↔ first + i < last ∧ g.pending[first + i]? = some v := by
  constructor
  · intro hv
    have hlt := (List.getElem?_eq_some_iff.mp hv).1
    rw [length_windowOf hlast] at hlt
    have hbound : first + i < last := by omega
    rw [getElem?_windowOf hbound] at hv
    exact ⟨hbound, hv⟩
  · rintro ⟨hbound, hv⟩
    rw [getElem?_windowOf hbound]
    exact hv

theorem stepIn_lt (h : Homed g0 windows home g) {w : Nat × Nat}
    (hapart : forall q, q ∈ windows -> Apart q w) (hlast : w.2 ≤ g0.pending.length) {x y : Nat}
    (hstep : g.StepIn w.1 w.2 x y) : x < y := by
  rcases hstep with ⟨u, v, s, hu, hv, hs⟩
  have hlast' := Nat.le_trans hlast h.pending_le
  rcases (mem_windowOf_iff hlast').mp hu with ⟨hx, hu⟩
  rcases (mem_windowOf_iff hlast').mp hv with ⟨hy, hv⟩
  have hflows := h.flows _ _ s hs
  rw [h.home_pending hu (by omega), h.home_pending hv (by omega)] at hflows
  have hlt := hflows.lt_of_inside hapart (by unfold Inside; omega)
  omega

end Homed

def Adjacent (g : Graph ρ) (u v : NodeKey) : Prop := exists s, g.Enters u v s

namespace Homed

/-- A path out of a window that is apart from those fused goes through its nodes, until
it has left the window for good. -/
theorem path_from (h : Homed g0 windows home g) {w : Nat × Nat}
    (hapart : forall q, q ∈ windows -> Apart q w) (hlast : w.2 ≤ g0.pending.length) {x : Nat}
    {u : Vertex ρ} (hx : w.1 + x < w.2) (hu : g.pending[w.1 + x]? = some u) {k : NodeKey}
    (hpath : Relation.ReflTransGen g.Adjacent u.key k) :
    g0.firstPending + w.2 ≤ home k ∨ exists y v, w.1 + y < w.2 ∧ g.pending[w.1 + y]? = some v ∧
      v.key = k ∧ Relation.ReflTransGen (g.StepIn w.1 w.2) x y := by
  have hlast' := Nat.le_trans hlast h.pending_le
  induction hpath with
  | refl => exact Or.inr ⟨x, u, hx, hu, rfl, .refl⟩
  | @tail _ target _ hstep ih =>
      rcases hstep with ⟨s, hs⟩
      have hflows := h.flows _ _ s hs
      rcases ih with hbehind | ⟨y, v, hy, hv, rfl, hsteps⟩
      · exact Or.inl (hflows.behind hapart (by omega) hbehind)
      · have hhome := h.home_pending hv (by omega)
        have hlt := hflows.lt_of_inside hapart (by unfold Inside; omega)
        by_cases hleft : g0.firstPending + w.2 ≤ home target
        · exact Or.inl hleft
        · rcases h.pending_of_inside hapart hlast hs.target_mem (by unfold Inside; omega)
            with ⟨z, v', hz, hv', rfl⟩
          refine Or.inr ⟨z, v', hz, hv', rfl, hsteps.tail ⟨v, v', s, ?_, ?_, hs⟩⟩
          · exact (mem_windowOf_iff hlast').mpr ⟨hy, hv⟩
          · exact (mem_windowOf_iff hlast').mpr ⟨hz, hv'⟩

end Homed

theorem adjacent_of_stepIn {first last x y : Nat} {u v : Vertex ρ}
    (hu : (g.windowOf first last)[x]? = some u) (hv : (g.windowOf first last)[y]? = some v)
    (hsteps : Relation.TransGen (g.StepIn first last) x y) :
    Relation.TransGen g.Adjacent u.key v.key := by
  induction hsteps generalizing v with
  | single hstep =>
      rcases hstep with ⟨a, b, s, ha, hb, hs⟩
      rw [hu] at ha
      rw [hv] at hb
      cases ha
      cases hb
      exact .single ⟨s, hs⟩
  | tail _ hstep ih =>
      rcases hstep with ⟨a, b, s, ha, hb, hs⟩
      rw [hv] at hb
      cases hb
      exact (ih ha).tail ⟨s, hs⟩

/-- Reachability between the pending nodes from `first` up to before `last` can be
computed.  It has a path between two of them exactly if edges lead from the one to the
other, through any nodes of the graph, or if they are the same. -/
def ExactIn (g : Graph ρ) (first last : Nat) : Prop :=
  exists r, g.reachability first last = .ok r ∧
    forall i j u v, first + i < last -> first + j < last -> g.pending[first + i]? = some u ->
      g.pending[first + j]? = some v -> exists b, r.hasPath i j = .ok b ∧
        (b = true ↔ i = j ∨ Relation.TransGen g.Adjacent u.key v.key)

theorem Homed.exactIn (h : Homed g0 windows home g) {first last : Nat} (hfirst : first ≤ last)
    (hlast : last ≤ g0.pending.length) (hapart : forall q, q ∈ windows -> Apart q (first, last)) :
    g.ExactIn first last := by
  have hlast' := Nat.le_trans hlast h.pending_le
  rcases reachability_exact h.linked hfirst hlast'
      (fun x y hxy => h.stepIn_lt (w := (first, last)) hapart hlast hxy)
    with ⟨r, hr, hexact⟩
  refine ⟨r, hr, ?_⟩
  intro i j u v hi hj hu hv
  refine ⟨r.reaches i j, ?_, ?_⟩
  · have hsize : i < r.size := by
      rw [Reachability.size, hexact.length_descendants]
      omega
    rw [Reachability.hasPath, if_pos hsize]
    rfl
  · rw [hexact.reaches_iff, Relation.reflTransGen_iff_eq_or_transGen]
    constructor
    · rintro ⟨_, heq | hsteps⟩
      · exact Or.inl heq.symm
      · refine Or.inr (adjacent_of_stepIn ?_ ?_ hsteps)
        · exact (mem_windowOf_iff hlast').mpr ⟨hi, hu⟩
        · exact (mem_windowOf_iff hlast').mpr ⟨hj, hv⟩
    · intro hpath
      refine ⟨by omega, ?_⟩
      rw [← Relation.reflTransGen_iff_eq_or_transGen]
      rcases hpath with rfl | hpath
      · exact .refl
      · have hhome := h.home_pending hv (by omega)
        rcases h.path_from (w := (first, last)) hapart hlast hi hu hpath.to_reflTransGen
          with hbehind | ⟨y, w, hy, hw, hkey, hsteps⟩
        · dsimp only at hbehind
          omega
        · have hyj := h.home_pending hw (by omega)
          rw [hkey, hhome] at hyj
          have hsame : y = j := by omega
          rw [← hsame]
          exact hsteps

/-!
## Fusing keeps everybody at home
-/

namespace Homed

theorem materialize (h : Homed g0 windows home g) {w : Nat × Nat} (hw : w ∈ windows)
    (hapart : forall q, q ∈ windows -> q = w ∨ Apart q w) {group : FusionGroup ρ}
    (hmembers : forall k, k ∈ group.keys ->
      k ∈ g.pendingKeys ∧ Inside g0.firstPending w (home k))
    (positions : OrderedSet Nat) :
    exists home' r, g.materialize positions group = .ok r ∧ Homed g0 windows home' r.1 := by
  rcases materialize_ok h.linked h.no_self (fun k hk => (hmembers k hk).left) positions
    with ⟨v, g', positions', hrun, hm, _, _⟩
  have hleader := hmembers group.leader.key (List.mem_cons_self ..)
  have hfresh := hm.fresh h.linked.keyed
  have hold : forall k, k ∈ g0.keys -> k ∈ g.keys := by
    rcases h.appended with ⟨fused, happended⟩
    intro k hk
    rw [keys_eq_append, h.executed, happended, ← List.append_assoc, ← keys_eq_append]
    exact List.mem_append_left _ hk
  let home' : NodeKey -> Nat := fun k => if k = v.key then home group.leader.key else home k
  have hhome : forall k, k ∈ g.keys -> home' k = home k := by
    intro k hk
    exact if_neg fun heq : k = v.key => hfresh (heq ▸ hk)
  have hmoved : forall k, k ∈ g.keys -> home' (collapse group.keys v.key k) = home k ∨
      (Inside g0.firstPending w (home k) ∧
        Inside g0.firstPending w (home' (collapse group.keys v.key k))) := by
    intro k hk
    by_cases hin : k ∈ group.keys
    · refine Or.inr ⟨(hmembers k hin).right, ?_⟩
      have hfused : home' v.key = home group.leader.key := if_pos rfl
      rw [collapse_of_mem hin, hfused]
      exact hleader.right
    · rw [collapse_of_not_mem hin]
      exact Or.inl (hhome k hk)
  refine ⟨home', (g', positions'), hrun, hm.linked, ?_, hm.executedKeys.trans h.executed, ?_, ?_, ?_,
    ?_⟩
  · intro k s hk
    exact ((hm.enters_iff k k s).mp hk).left rfl
  · rcases h.appended with ⟨fused, happended⟩
    exact ⟨fused ++ [v.key], by rw [hm.pendingKeys, happended, List.append_assoc]⟩
  · intro i k hk
    rw [hhome k (hold k (List.mem_of_getElem? hk))]
    exact h.original i k hk
  · intro k hk hnot
    rcases hm.mem_keys.mp hk with hk | rfl
    · rw [hhome k hk]
      exact h.fused k hk hnot
    · have hfused : home' v.key = home group.leader.key := if_pos rfl
      refine ⟨w, hw, ?_⟩
      rw [hfused]
      exact hleader.right
  · intro x y s hxy
    rcases (hm.enters_iff x y s).mp hxy with ⟨_, a, b, hab, rfl, rfl⟩
    exact (h.flows a b s hab).move hw hapart (hmoved a (h.linked.source_mem hab))
      (hmoved b hab.target_mem)

theorem fusionGroups (bank : Bank ρ) (h : Homed g0 windows home g) {w : Nat × Nat}
    (hapart : forall q, q ∈ windows -> Apart q w) (hfirst : w.1 ≤ w.2)
    (hlast : w.2 ≤ g0.pending.length) :
    exists groups, g.fusionGroups bank w.1 w.2 = .ok groups ∧
      forall group, group ∈ groups -> group.members.Sublist (g.windowOf w.1 w.2) := by
  have hlast' := Nat.le_trans hlast h.pending_le
  have hnodup : ((g.windowOf w.1 w.2).map (·.key)).Nodup :=
    h.linked.keyed.nodup_pending.sublist ((g.windowOf_sublist w.1 w.2).map _)
  have hforward : forall u v s, u ∈ g.windowOf w.1 w.2 -> v ∈ g.windowOf w.1 w.2 ->
      g.Enters u.key v.key s -> ComesBefore ((g.windowOf w.1 w.2).map (·.key)) u.key v.key := by
    intro u v s hu hv hs
    rcases List.mem_iff_getElem?.mp hu with ⟨x, hx⟩
    rcases List.mem_iff_getElem?.mp hv with ⟨y, hy⟩
    have hlt := h.stepIn_lt hapart hlast ⟨u, v, s, hx, hy, hs⟩
    exact (ComesBefore.of_getElem? hlt hx hy).map (·.key)
  rcases reachability_ok h.linked hfirst hlast' hforward with ⟨r, hr, hclosed, hle, hcontains⟩
  rcases gather_grouped bank (fun u v => exists s, g.Enters u v s) hnodup hclosed hle
    (fun u x v y hu hv => fun ⟨s, hs⟩ => hcontains u x v y s hu hv hs) with ⟨_, hgrouped⟩
  refine ⟨_, ?_, hgrouped.sublist⟩
  rw [Graph.fusionGroups, pendingRange_ok hfirst hlast', ok_bind, hr]
  rfl

theorem fuseRange (bank : Bank ρ) (h : Homed g0 windows home g) {w : Nat × Nat}
    (hapart : forall q, q ∈ windows -> Apart q w) (hfirst : w.1 ≤ w.2)
    (hlast : w.2 ≤ g0.pending.length) :
    exists home' r, g.fuseRange bank w.1 w.2 = .ok r ∧ Homed g0 (windows ++ [w]) home' r.1 := by
  rcases h.fusionGroups bank hapart hfirst hlast with ⟨groups, hgroups, hsublist⟩
  have hapart' : forall q, q ∈ windows ++ [w] -> q = w ∨ Apart q w := by
    intro q hq
    rcases List.mem_append.mp hq with hq | hq
    · exact Or.inr (hapart q hq)
    · exact Or.inl (List.mem_singleton.mp hq)
  -- members are nodes of the original window, which are at home there all the time
  have hmembers : forall group, group ∈ groups -> forall k, k ∈ group.keys ->
      exists i, w.1 + i < w.2 ∧ g0.pendingKeys[w.1 + i]? = some k := by
    intro group hin k hk
    have hkey := ((hsublist group hin).map (·.key)).subset hk
    rcases List.mem_map.mp hkey with ⟨v, hv, rfl⟩
    rcases List.mem_iff_getElem?.mp hv with ⟨i, hi⟩
    rcases (mem_windowOf_iff (Nat.le_trans hlast h.pending_le)).mp hi with ⟨hlt, hget⟩
    refine ⟨i, hlt, ?_⟩
    rw [← h.pendingKey (by omega), pendingKeys, List.getElem?_map, hget]
    rfl
  have loop : exists r : Graph ρ × OrderedSet Nat,
      groups.foldlM (fun r group => r.1.materialize r.2 group) (g, ∅) = .ok r ∧
      exists home', Homed g0 (windows ++ [w]) home' r.1 := by
    refine foldlM_ok_of_keeps (fun r : Graph ρ × OrderedSet Nat =>
      exists home', Homed g0 (windows ++ [w]) home' r.1) ?_ ?_
    · rintro group hin ⟨g1, positions⟩ ⟨home1, h1⟩
      have hinside : forall k, k ∈ group.keys ->
          k ∈ g1.pendingKeys ∧ Inside g0.firstPending w (home1 k) := by
        intro k hk
        rcases hmembers group hin k hk with ⟨i, hlt, hget⟩
        have hpending : g1.pendingKeys[w.1 + i]? = some k := by
          rw [h1.pendingKey (by omega)]
          exact hget
        refine ⟨List.mem_of_getElem? hpending, ?_⟩
        rw [pendingKeys, List.getElem?_map, Option.map_eq_some_iff] at hpending
        rcases hpending with ⟨v, hv, rfl⟩
        rw [h1.home_pending hv (by omega)]
        unfold Inside
        omega
      rcases h1.materialize (by simp) hapart' hinside positions with ⟨home2, r, hrun, h2⟩
      exact ⟨r, hrun, home2, h2⟩
    · exact ⟨home, h.mono fun q hq => List.mem_append_left _ hq⟩
  rcases loop with ⟨r, hloop, home', h'⟩
  refine ⟨home', r, ?_, h'⟩
  rw [Graph.fuseRange, hgroups, ok_bind]
  exact hloop

end Homed

def fuseEach (bank : Bank ρ) (g : Graph ρ) (windows : List (Nat × Nat)) : Outcome (Graph ρ) :=
  windows.foldlM (fun g w => return (← g.fuseRange bank w.1 w.2).1) g

/-- Where every edge leads forward, reachability is exact in all windows.  After any
windows have been fused, which puts fused nodes at the end and edges in that lead back,
it is still exact in every window that is apart from these. -/
theorem window_reachability_exact (bank : Bank ρ) (hg : g.Linked) (hf : g.Forward) :
    (forall first last, first ≤ last -> last ≤ g.pendingCount -> g.ExactIn first last) ∧
    forall windows : List (Nat × Nat), windows.Pairwise Apart ->
      (forall w, w ∈ windows -> w.1 ≤ w.2 ∧ w.2 ≤ g.pendingCount) ->
      exists g', g.fuseEach bank windows = .ok g' ∧
        (exists fused, g'.pendingKeys = g.pendingKeys ++ fused) ∧
        forall first last, first ≤ last -> last ≤ g.pendingCount ->
          (forall w, w ∈ windows -> Apart w (first, last)) -> g'.ExactIn first last := by
  rcases Homed.start hg hf with ⟨home, hhome⟩
  constructor
  · intro first last hfirst hlast
    exact hhome.exactIn hfirst hlast (by simp)
  · intro windows hpairwise hwindows
    have loop : exists g', g.fuseEach bank windows = .ok g' ∧
        exists home', Homed g windows home' g' := by
      refine foldlM_ok_of_step (fun done g' => exists home', Homed g done home' g') ?_ ⟨home, hhome⟩
      rintro done w rest g1 hsplit ⟨home1, h1⟩
      have happ : forall q, q ∈ done -> Apart q w := by
        intro q hq
        rw [hsplit, List.pairwise_append] at hpairwise
        exact hpairwise.right.right q hq w (by simp)
      rcases hwindows w (by simp [hsplit]) with ⟨hfirst, hlast⟩
      rcases h1.fuseRange bank happ hfirst hlast with ⟨home2, r, hrun, h2⟩
      refine ⟨r.1, ?_, home2, h2⟩
      rw [hrun]
      rfl
    rcases loop with ⟨g', hrun, home', h'⟩
    refine ⟨g', hrun, h'.appended, ?_⟩
    intro first last hfirst hlast happ
    exact h'.exactIn hfirst hlast happ

end Graph

namespace Sample

def pairs : Graph (Program Task) :=
  match Graph.new.insertTasks bank false [fill, copy, fill, copy] with
  | .ok (g, _) => g
  | .error _ => .new

end Sample

namespace Graph

theorem window_reachability_exact_pairs :
    Sample.pairs.Linked ∧ Sample.pairs.Forward ∧ Sample.pairs.ExactIn 1 3 ∧
    exists g', Sample.pairs.fuseEach Sample.bank [(0, 2)] = .ok g' ∧
      g'.pendingKeys = [⟨1⟩, ⟨2⟩, ⟨3⟩, ⟨4⟩, ⟨5⟩] ∧ (exists s, g'.Enters ⟨5⟩ ⟨3⟩ s) ∧
      g'.ExactIn 2 4 := by
  rcases insertTasks_ok Sample.bank new_settled.built.consistent.sound false
      [Sample.fill, Sample.copy, Sample.fill, Sample.copy]
    with ⟨g, kept, hrun, hgrown, _⟩
  have hpairs : Sample.pairs = g := by rw [Sample.pairs, hrun]
  have hconsistent := hgrown.consistent new_settled.built.consistent
  rw [← hpairs] at hconsistent
  have hlinked := hconsistent.sound.linked
  rcases window_reachability_exact Sample.bank hlinked hconsistent.forward with ⟨hexact, hfused⟩
  have hwindows : forall w, w ∈ [(0, 2)] -> w.1 ≤ w.2 ∧ w.2 ≤ Sample.pairs.pendingCount := by
    decide +kernel
  rcases hfused [(0, 2)] (List.pairwise_singleton ..) hwindows with ⟨g', hg', _, hexact'⟩
  have hkeys : (Sample.pairs.fuseEach Sample.bank [(0, 2)]).map (fun g =>
      (g.pendingKeys, decide (⟨5⟩ ∈ (g.inputsOf ⟨3⟩).get (Sample.cell 0))))
        = .ok ([⟨1⟩, ⟨2⟩, ⟨3⟩, ⟨4⟩, ⟨5⟩], true) := rfl
  rw [hg'] at hkeys
  have hpair := Except.ok.inj hkeys
  have hback : ⟨5⟩ ∈ (g'.inputsOf ⟨3⟩).get (Sample.cell 0) :=
    of_decide_eq_true (congrArg Prod.snd hpair)
  refine ⟨hlinked, hconsistent.forward, hexact 1 3 (by decide) (by decide +kernel), g', hg',
    congrArg Prod.fst hpair, ⟨_, hback⟩, ?_⟩
  refine hexact' 2 4 (by decide) (by decide +kernel) ?_
  intro w hw i hi
  cases List.mem_singleton.mp hw
  omega

end Graph
end LaunchGraph
