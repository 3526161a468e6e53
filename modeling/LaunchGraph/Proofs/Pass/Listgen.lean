import LaunchGraph.Pass.Listgen
import LaunchGraph.Proofs.Graph.Order
import LaunchGraph.Proofs.Graph.Redirect
import LaunchGraph.Proofs.Pass.Relaunch

/-!
# The removal of list generations goes through

Every redundant list generation lies behind the one that survives in its place.
Handing its edges over therefore keeps edges forward, and what is left after the
deletion can be rebuilt.
-/

namespace LaunchGraph
namespace Graph

variable {ρ : Type}

/-!
## What is found
-/

theorem allStates_ok {test : State -> Outcome Bool} {P : State -> Prop}
    (htest : forall s, exists b, test s = .ok b ∧ (b = true -> P s)) (states : List State) :
    exists b, allStates test states = .ok b ∧ (b = true -> forall s, s ∈ states -> P s) := by
  induction states with
  | nil => exact ⟨true, rfl, fun _ s hs => by cases hs⟩
  | cons s rest ih =>
      rcases htest s with ⟨b, hb, hholds⟩
      rw [allStates, hb, ok_bind]
      cases b with
      | false => exact ⟨false, rfl, fun h => by cases h⟩
      | true =>
          rcases ih with ⟨c, hc, hrest⟩
          refine ⟨c, hc, fun htrue t ht => ?_⟩
          rcases List.mem_cons.mp ht with rfl | ht
          · exact hholds rfl
          · exact hrest htrue t ht

/-- A later node makes the same list as an earlier one: both have the same inputs from the same
writers, and the way back along the writers of the list, past the nodes in `dropped`, leads from
the later one to the earlier one. -/
structure Repeats (g : Graph ρ) (list : State) (dropped : List NodeKey) (a b : Vertex ρ) :
    Prop where
  inputs : a.task.inputs = b.task.inputs
  sources : forall t, t ∈ b.task.inputs ->
    exists u, WriterChain g t [] a.key u ∧ WriterChain g t [] b.key u
  made : WriterChain g list dropped b.key a.key

theorem isRedundant_ok {g : Graph ρ} (hg : g.Sound) (hf : g.Forward) {v w : Vertex ρ}
    (hv : v ∈ g.vertices) (hw : w ∈ g.vertices) (list : State) (dropped : List NodeKey) :
    exists b, g.isRedundant v w list dropped = .ok b ∧
      (b = true -> g.Repeats list dropped v w) := by
  have hsame : forall t, exists b, g.sameSource v.key w.key t = .ok b ∧
      (b = true -> exists u, WriterChain g t [] v.key u ∧ WriterChain g t [] w.key u) := by
    intro t
    rcases priorWriter_ok hg hf (key_mem_keys hv) t [] with ⟨x, hx, hxchain⟩
    rcases priorWriter_ok hg hf (key_mem_keys hw) t [] with ⟨y, hy, hychain⟩
    refine ⟨x == y, by rw [sameSource, hx, ok_bind, hy, ok_bind]; rfl, ?_⟩
    intro heq
    rw [← eq_of_beq heq] at hychain
    exact ⟨x, hxchain, hychain⟩
  rw [isRedundant]
  split
  · exact ⟨false, rfl, fun h => by cases h⟩
  · next hinputs =>
      rcases allStates_ok hsame w.task.inputs.toList with ⟨b, hb, hsources⟩
      rw [hb, ok_bind]
      cases b with
      | false => exact ⟨false, rfl, fun h => by cases h⟩
      | true =>
          rcases priorWriter_ok hg hf (key_mem_keys hw) list dropped with ⟨x, hx, hchain⟩
          refine ⟨x == v.key, by rw [if_pos rfl, hx, ok_bind]; rfl, ?_⟩
          intro heq
          rw [eq_of_beq heq] at hchain
          exact ⟨not_not.mp hinputs, hsources rfl, hchain⟩

/-- A pending list generation can go, together with the nodes in `gone`, because an earlier one of
the same field makes the same list. -/
structure StandsFor (g : Graph ρ) (s : SNodeId) (gone : List NodeKey) (a b : Vertex ρ) : Prop where
  before : ComesBefore g.pending a b
  earlier : listTarget? a = some s
  later : listTarget? b = some s
  repeats : exists dropped, (forall k, k ∈ dropped -> k ∈ gone) ∧
    g.Repeats (.ofSNode s .list) dropped a b

theorem StandsFor.mono {g : Graph ρ} {s : SNodeId} {gone gone' : List NodeKey} {a b : Vertex ρ}
    (h : g.StandsFor s gone a b) (hsub : forall k, k ∈ gone -> k ∈ gone') : g.StandsFor s gone' a b := by
  rcases h.repeats with ⟨dropped, hdropped, hrepeats⟩
  exact ⟨h.before, h.earlier, h.later, dropped, fun k hk => hsub k (hdropped k hk), hrepeats⟩

def gone (found : List Redundancy) : List NodeKey := found.map (·.redundant)

theorem mem_gone {found : List Redundancy} {r : Redundancy} (hr : r ∈ found) :
    r.redundant ∈ gone found := List.mem_map_of_mem hr

theorem gone_append (found found' : List Redundancy) :
    gone (found ++ found') = gone found ++ gone found' := List.map_append

theorem mem_gone_flatten {all : List (List Redundancy)} {found : List Redundancy}
    (hfound : found ∈ all) {k : NodeKey} (hk : k ∈ gone found) : k ∈ gone all.flatten := by
  rcases List.mem_map.mp hk with ⟨r, hr, rfl⟩
  exact mem_gone (List.mem_flatten.mpr ⟨found, hfound, hr⟩)

def Settles (g : Graph ρ) (s : SNodeId) (gone : List NodeKey) (r : Redundancy) : Prop :=
  exists a b, r = ⟨b.key, b.nodeId, a.key⟩ ∧ g.StandsFor s gone a b

structure Compared (g : Graph ρ) (s : SNodeId) (done : List (Vertex ρ)) (scan : ListgenScan) :
    Prop where
  survivor : forall k, scan.survivor = some k -> k ∈ done.map (·.key) ∧ k ∉ gone scan.found
  dropped : forall k, k ∈ scan.dropped -> k ∈ gone scan.found
  compared : forall k, k ∈ gone scan.found -> k ∈ done.map (·.key)
  settles : forall r, r ∈ scan.found -> g.Settles s (gone scan.found) r
  stays : forall r, r ∈ scan.found -> r.survivor ∈ done.map (·.key) ∧ r.survivor ∉ gone scan.found

namespace Compared

variable {g : Graph ρ} {s : SNodeId} {done : List (Vertex ρ)} {v : Vertex ρ} {scan : ListgenScan}
  (h : g.Compared s done scan) (hv : v.key ∉ done.map (·.key))

include h hv

theorem fresh : g.Compared s (done ++ [v]) { scan with survivor := some v.key, dropped := [] } := by
  have hold : forall k, k ∈ done.map (·.key) -> k ∈ (done ++ [v]).map (·.key) := by
    intro k hk
    rw [List.map_append]
    exact List.mem_append_left _ hk
  refine ⟨?_, ?_, fun k hk => hold k (h.compared k hk), h.settles,
    fun r hr => ⟨hold _ (h.stays r hr).left, (h.stays r hr).right⟩⟩
  · intro k hk
    cases hk
    exact ⟨by simp, fun hin => hv (h.compared _ hin)⟩
  · intro k hk
    cases hk

theorem drop {k : NodeKey} (hk : scan.survivor = some k)
    (hsettles : g.Settles s (gone scan.found) ⟨v.key, v.nodeId, k⟩) :
    g.Compared s (done ++ [v]) { scan with
      dropped := scan.dropped ++ [v.key]
      found := scan.found ++ [⟨v.key, v.nodeId, k⟩] } := by
  have hgone : gone (scan.found ++ [⟨v.key, v.nodeId, k⟩]) = gone scan.found ++ [v.key] :=
    gone_append ..
  have hold : forall k, k ∈ done.map (·.key) -> k ∈ (done ++ [v]).map (·.key) := by
    intro k hk
    rw [List.map_append]
    exact List.mem_append_left _ hk
  have hstays : forall l, l ∈ done.map (·.key) -> l ∉ gone scan.found ->
      l ∈ (done ++ [v]).map (·.key) ∧ l ∉ gone scan.found ++ [v.key] := by
    intro l hl hnot
    refine ⟨hold l hl, ?_⟩
    rw [List.mem_append, List.mem_singleton]
    rintro (hin | rfl)
    · exact hnot hin
    · exact hv hl
  have hmono : forall r, g.Settles s (gone scan.found) r ->
      g.Settles s (gone scan.found ++ [v.key]) r := by
    rintro r ⟨a, b, rfl, hstands⟩
    exact ⟨a, b, rfl, hstands.mono fun l hl => List.mem_append_left _ hl⟩
  constructor
  · intro l hl
    rw [hgone]
    exact hstays l (h.survivor l hl).left (h.survivor l hl).right
  · intro l hl
    rw [hgone, List.mem_append]
    exact (List.mem_append.mp hl).imp (h.dropped l) id
  · intro l hl
    rw [hgone] at hl
    rcases List.mem_append.mp hl with hl | hl
    · exact hold l (h.compared l hl)
    · rw [List.mem_singleton.mp hl]
      simp
  · intro r hr
    rw [hgone]
    rcases List.mem_append.mp hr with hr | hr
    · exact hmono r (h.settles r hr)
    · rw [List.mem_singleton.mp hr]
      exact hmono _ hsettles
  · intro r hr
    rw [hgone]
    rcases List.mem_append.mp hr with hr | hr
    · exact hstays _ (h.stays r hr).left (h.stays r hr).right
    · rw [List.mem_singleton.mp hr]
      exact hstays k (h.survivor k hk).left (h.survivor k hk).right

end Compared

theorem scanListgen_ok {g : Graph ρ} (hg : g.Sound) (hf : g.Forward) {s : SNodeId}
    {done : List (Vertex ρ)} {v : Vertex ρ} {scan : ListgenScan}
    (hdone : (done ++ [v]).Sublist g.pending)
    (htargets : forall w, w ∈ done ++ [v] -> listTarget? w = some s)
    (h : g.Compared s done scan) :
    exists scan', g.scanListgen (.ofSNode s .list) scan v = .ok scan' ∧
      g.Compared s (done ++ [v]) scan' := by
  have hnew : v.key ∉ done.map (·.key) := by
    have hnodup : ((done ++ [v]).map (·.key)).Nodup :=
      hg.keyed.nodup_pending.sublist (hdone.map _)
    rw [List.map_append, List.nodup_append] at hnodup
    intro hin
    exact hnodup.right.right _ hin _ (by simp) rfl
  have hv : v ∈ g.pending := hdone.subset (by simp)
  rw [scanListgen]
  cases hs : scan.survivor with
  | none => exact ⟨_, rfl, h.fresh hnew⟩
  | some k =>
      rcases List.mem_map.mp (h.survivor k hs).left with ⟨w, hw, rfl⟩
      have hwpending : w ∈ g.pending := hdone.subset (List.mem_append_left _ hw)
      have hfind : g.find w.key = .ok w :=
        find_ok (find?_of_mem hg.keyed.nodup (mem_vertices_of_pending hwpending))
      rcases isRedundant_ok hg hf (mem_vertices_of_pending hwpending) (mem_vertices_of_pending hv)
        (.ofSNode s .list) scan.dropped with ⟨b, hb, hrepeats⟩
      dsimp only
      rw [hfind, ok_bind, hb, ok_bind]
      cases b with
      | false => exact ⟨_, rfl, h.fresh hnew⟩
      | true =>
          have hbefore : ComesBefore g.pending w v := by
            apply ComesBefore.of_sublist _ hdone
            rw [ComesBefore.append_iff]
            exact Or.inr (Or.inl ⟨hw, List.mem_singleton.mpr rfl⟩)
          refine ⟨_, rfl, ?_⟩
          rw [← hs]
          exact h.drop hnew hs ⟨w, v, rfl, hbefore, htargets w (List.mem_append_left _ hw),
            htargets v (by simp), scan.dropped, h.dropped, hrepeats rfl⟩

theorem taskType_of_listTarget {v : Vertex ρ} {s : SNodeId} (h : listTarget? v = some s) :
    v.task.taskType = .listgen := by
  rw [listTarget?] at h
  split at h
  · assumption
  · cases h

structure Judges (g : Graph ρ) (s : SNodeId) (found : List Redundancy) : Prop where
  settles : forall r, r ∈ found -> g.Settles s (gone found) r
  stays : forall r, r ∈ found -> r.survivor ∉ gone found

theorem redundantListgens_ok {g : Graph ρ} (hg : g.Sound) (hf : g.Forward) (s : SNodeId) :
    exists found, g.redundantListgens s = .ok found ∧ g.Judges s found := by
  let listgens := g.pending.filter fun v => listTarget? v == some s
  have loop : exists scan, listgens.foldlM (g.scanListgen (.ofSNode s .list)) ⟨none, [], []⟩
      = .ok scan ∧ g.Compared s listgens scan := by
    refine foldlM_ok_of_step (fun done scan => g.Compared s done scan) ?_ ⟨?_, ?_, ?_, ?_, ?_⟩
    · intro done v rest scan hsplit h
      have hdone : listgens = (done ++ [v]) ++ rest := by
        rw [hsplit, List.append_assoc, List.singleton_append]
      have hsub : (done ++ [v]).Sublist listgens := by
        rw [hdone]
        exact List.sublist_append_left ..
      refine scanListgen_ok hg hf (hsub.trans List.filter_sublist) ?_ h
      intro w hw
      exact eq_of_beq (List.mem_filter.mp (hsub.subset hw)).right
    · intro k hk
      cases hk
    · intro k hk
      cases hk
    · intro k hk
      cases hk
    · intro r hr
      cases hr
    · intro r hr
      cases hr
  rcases loop with ⟨scan, hscan, hcompared⟩
  refine ⟨scan.found, ?_, hcompared.settles, fun r hr => (hcompared.stays r hr).right⟩
  show (listgens.foldlM (g.scanListgen (.ofSNode s .list)) ⟨none, [], []⟩ >>= fun scan =>
    .ok scan.found) = _
  rw [hscan]
  rfl

/-- What is redundant among all list generations.  None that stays in the place of another one
goes itself. -/
structure Selected (g : Graph ρ) (found : List Redundancy) : Prop where
  settles : forall r, r ∈ found -> exists s, g.Settles s (gone found) r
  stays : forall r, r ∈ found -> r.survivor ∉ gone found

namespace Selected

variable {g : Graph ρ} {found : List Redundancy} (h : g.Selected found)

include h

theorem exists_standsFor {k : NodeKey} (hk : k ∈ gone found) :
    exists s a b, b.key = k ∧ (exists r, r ∈ found ∧ r = ⟨b.key, b.nodeId, a.key⟩) ∧
      g.StandsFor s (gone found) a b := by
  rcases List.mem_map.mp hk with ⟨r, hr, rfl⟩
  rcases h.settles r hr with ⟨s, a, b, rfl, hstands⟩
  exact ⟨s, a, b, rfl, ⟨_, hr, rfl⟩, hstands⟩

theorem before {r : Redundancy} (hr : r ∈ found) :
    ComesBefore g.pendingKeys r.survivor r.redundant := by
  rcases h.settles r hr with ⟨s, a, b, rfl, hstands⟩
  exact hstands.before.map (·.key)

theorem pending {k : NodeKey} (hk : k ∈ gone found) : k ∈ g.pendingKeys := by
  rcases List.mem_map.mp hk with ⟨r, hr, rfl⟩
  exact (h.before hr).right_mem

end Selected

/-- The fields are compared one by one, and a node generates the list of one field only. -/
theorem selected_flatten {g : Graph ρ} (hg : g.Keyed) {all : List (List Redundancy)}
    (hall : forall found, found ∈ all ->
      exists s, g.redundantListgens s = .ok found ∧ g.Judges s found) :
    g.Selected all.flatten := by
  constructor
  · intro r hr
    rcases List.mem_flatten.mp hr with ⟨found, hmem, hin⟩
    rcases hall found hmem with ⟨s, _, hjudges⟩
    rcases hjudges.settles r hin with ⟨a, b, heq, hstands⟩
    exact ⟨s, a, b, heq, hstands.mono fun k hk => mem_gone_flatten hmem hk⟩
  · intro r hr hgone
    rcases List.mem_flatten.mp hr with ⟨found, hmem, hin⟩
    rcases List.mem_map.mp hgone with ⟨r', hr', heq⟩
    rcases List.mem_flatten.mp hr' with ⟨found', hmem', hin'⟩
    rcases hall found hmem with ⟨s, hrun, hjudges⟩
    rcases hall found' hmem' with ⟨s', hrun', hjudges'⟩
    rcases hjudges.settles r hin with ⟨a, b, rfl, hstands⟩
    rcases hjudges'.settles r' hin' with ⟨a', b', rfl, hstands'⟩
    have hsame : b' = a :=
      hg.eq_of_key (mem_vertices_of_pending hstands'.before.right_mem)
        (mem_vertices_of_pending hstands.before.left_mem) heq
    have htarget : some s' = some s := by
      rw [← hstands'.later, hsame, hstands.earlier]
    cases htarget
    rw [hrun] at hrun'
    cases hrun'
    refine hjudges.stays _ hin ?_
    rw [← hsame]
    exact mem_gone hin'

/-!
## What is done about it
-/

def heir (found : List Redundancy) (k : NodeKey) : NodeKey :=
  ((found.find? fun r => r.redundant == k).map (·.survivor)).getD k

theorem heir_of_not_gone {found : List Redundancy} {k : NodeKey} (hk : k ∉ gone found) :
    heir found k = k := by
  have hnone : (found.find? fun r => r.redundant == k) = none := by
    rw [List.find?_eq_none]
    intro r hr heq
    rw [← eq_of_beq heq] at hk
    exact hk (mem_gone hr)
  rw [heir, hnone]
  rfl

theorem exists_heir {found : List Redundancy} {k : NodeKey} (hk : k ∈ gone found) :
    exists r, r ∈ found ∧ r.redundant = k ∧ heir found k = r.survivor := by
  have hsome : (found.find? fun r => r.redundant == k).isSome = true := by
    rw [List.find?_isSome]
    rcases List.mem_map.mp hk with ⟨r, hr, heq⟩
    exact ⟨r, hr, beq_iff_eq.mpr heq⟩
  rcases Option.isSome_iff_exists.mp hsome with ⟨r, hfind⟩
  refine ⟨r, List.mem_of_find?_eq_some hfind, beq_iff_eq.mp ?_, ?_⟩
  · exact List.find?_some (p := fun r : Redundancy => r.redundant == k) hfind
  · rw [heir, hfind]
    rfl

theorem heir_append_singleton {found : List Redundancy} {r : Redundancy}
    (hstays : forall q, q ∈ found -> q.survivor ≠ r.redundant) (k : NodeKey) :
    heir (found ++ [r]) k = rename r.redundant r.survivor (heir found k) := by
  by_cases hk : k ∈ gone found
  · rcases exists_heir hk with ⟨q, hq, _, hheir⟩
    rw [hheir, rename_of_ne (hstays q hq), ← hheir, heir, heir, List.find?_append]
    cases hfind : found.find? fun r => r.redundant == k with
    | some _ => rfl
    | none =>
        rcases List.mem_map.mp hk with ⟨p, hp, heq⟩
        exact absurd (beq_iff_eq.mpr heq) (List.find?_eq_none.mp hfind p hp)
  · rw [heir_of_not_gone hk]
    by_cases heq : k = r.redundant
    · have hin : k ∈ gone (found ++ [r]) := by
        rw [heq]
        exact mem_gone (by simp)
      rcases exists_heir hin with ⟨q, hq, hkey, hheir⟩
      rw [hheir, heq, rename_self]
      rcases List.mem_append.mp hq with hq | hq
      · exact absurd (hkey ▸ mem_gone hq) hk
      · rw [List.mem_singleton.mp hq]
    · rw [rename_of_ne heq]
      apply heir_of_not_gone
      rw [gone_append, List.mem_append]
      rintro (hin | hin)
      · exact hk hin
      · exact heq (List.mem_singleton.mp hin)

namespace Selected

variable {g : Graph ρ} {found : List Redundancy} (h : g.Selected found)

include h

theorem heir_not_gone (k : NodeKey) : heir found k ∉ gone found := by
  by_cases hk : k ∈ gone found
  · rcases exists_heir hk with ⟨r, hr, _, hheir⟩
    rw [hheir]
    exact h.stays r hr
  · rw [heir_of_not_gone hk]
    exact hk

theorem heir_pending {k : NodeKey} : heir found k ∈ g.pendingKeys ↔ k ∈ g.pendingKeys := by
  by_cases hk : k ∈ gone found
  · rcases exists_heir hk with ⟨r, hr, _, hheir⟩
    rw [hheir]
    exact ⟨fun _ => h.pending hk, fun _ => (h.before hr).left_mem⟩
  · rw [heir_of_not_gone hk]

end Selected

/-- The graph `g'` is `g` with everything that redundant nodes were to other nodes handed over to
the nodes that stay in their places. -/
structure Handed (g : Graph ρ) (found : List Redundancy) (g' : Graph ρ) : Prop where
  sound : g'.Sound
  forward : g'.Forward
  skeleton : g'.skeleton = g.skeleton
  owners_get : forall s, g'.owners.get? s = (g.owners.get? s).map (heir found)
  enters_iff : forall u v s, g'.Enters u v s ↔ exists x, g.Enters x v s ∧ heir found x = u

theorem Handed.redirect {g g1 : Graph ρ} {done : List Redundancy} {r : Redundancy}
    (h : g.Handed done g1) (hstays : forall q, q ∈ done -> q.survivor ≠ r.redundant)
    (hbefore : ComesBefore g.pendingKeys r.survivor r.redundant) :
    exists g2, g1.redirect r.redundant r.survivor true = .ok g2 ∧ g.Handed (done ++ [r]) g2 := by
  have hpending : ComesBefore g1.pendingKeys r.survivor r.redundant := by
    rw [pendingKeys_congr h.skeleton]
    exact hbefore
  have hkeys : ComesBefore g1.keys r.survivor r.redundant :=
    hpending.of_sublist g1.pendingKeys_sublist
  have hne : r.redundant ≠ r.survivor := (hkeys.ne h.sound.keyed.nodup).symm
  rcases redirect_outputs_ok h.sound.wired.mirrored hne hkeys.right_mem hkeys.left_mem
    with ⟨g2, hrun, h2⟩
  have hheir := heir_append_singleton hstays
  refine ⟨g2, hrun, h2.sound h.sound hpending.left_mem,
    h2.forward h.sound.keyed h.forward hkeys, h2.skeleton.trans h.skeleton, ?_, ?_⟩
  · intro s
    rw [h2.owners_get, h.owners_get, Option.map_map, funext hheir]
    rfl
  · intro u v s
    rw [h2.enters_iff, h.enters_iff, h.enters_iff]
    constructor
    · rintro (⟨hu, x, he, hx⟩ | ⟨hu, _, x, he, hx⟩)
      · exact ⟨x, he, by rw [hheir, hx, rename_of_ne hu]⟩
      · exact ⟨x, he, by rw [hheir, hx, rename_self, hu]⟩
    · rintro ⟨x, he, hx⟩
      rw [hheir] at hx
      by_cases hx1 : heir done x = r.redundant
      · rw [hx1, rename_self] at hx
        refine Or.inr ⟨hx.symm, ?_, x, he, hx1⟩
        -- The node comes after the redundant one, and that after the survivor.
        rintro rfl
        have hafter := h.forward _ _ s ((h.enters_iff _ _ s).mpr ⟨x, he, hx1⟩)
        exact hafter.asymm h.sound.keyed.nodup hkeys
      · rw [rename_of_ne hx1] at hx
        exact Or.inl ⟨hx ▸ hx1, x, he, hx⟩

/-- Edges of redundant nodes can be handed over one node after the other. -/
theorem redirectAll_ok {g : Graph ρ} (hg : g.Sound) (hf : g.Forward) {found : List Redundancy}
    (hfound : g.Selected found) :
    exists g', found.foldlM (fun g r => g.redirect r.redundant r.survivor true) g = .ok g' ∧
      g.Handed found g' := by
  refine foldlM_ok_of_step (fun done g' => g.Handed done g') ?_
    ⟨hg, hf, rfl, fun s => Option.map_id'.symm, ?_⟩
  · intro done r rest g1 hsplit h1
    have hr : r ∈ found := by simp [hsplit]
    refine h1.redirect ?_ (hfound.before hr)
    intro q hq heq
    have hq' : q ∈ found := by
      rw [hsplit]
      exact List.mem_append_left _ hq
    exact hfound.stays q hq' (heq ▸ mem_gone hr)
  · intro u v s
    constructor
    · intro he
      exact ⟨u, he, rfl⟩
    · rintro ⟨x, he, rfl⟩
      exact he

def Relisted (g g' : Graph ρ) : Prop :=
  exists kept : Vertex ρ -> Bool,
    g'.pending.map (·.launch) = (g.pending.filter kept).map (·.launch) ∧
    forall v, v ∈ g.pending -> kept v = false -> v.task.taskType = .listgen

theorem Relisted.refl (g : Graph ρ) : g.Relisted g := by
  refine ⟨fun _ => true, ?_, fun _ _ h => by cases h⟩
  rw [List.filter_true]

theorem Relisted.renews {g g' : Graph ρ} (bank : Bank ρ) (h : g.Relisted g') :
    g.Renews bank g' := by
  rcases h with ⟨kept, hlaunches, _⟩
  refine Renews.of_launches ?_
  intro p hp
  rw [hlaunches] at hp
  rcases List.mem_map.mp hp with ⟨v, hv, rfl⟩
  exact List.mem_map_of_mem (List.mem_filter.mp hv).left

/-- The stages that the graph `g` passes through: edges and ownership are handed over, redundant
nodes are deleted, the nodes that are left are taken out, and put in again. -/
structure Relisting (g g' : Graph ρ) (found : List Redundancy) (g1 : Graph ρ)
    (doomed : List NodeKey) (g2 base : Graph ρ) : Prop where
  selected : g.Selected found
  handed : g.Handed found g1
  mem_doomed : forall k, k ∈ doomed ↔ k ∈ gone found
  deleted : g1.Deleted doomed g2
  extracted : g2.Extracted base
  built : g'.Built base.ownerOrInitial
  extended : g2.Extended [] g'

namespace Relisting

variable {g g' g1 g2 base : Graph ρ} {found : List Redundancy} {doomed : List NodeKey}
  (h : g.Relisting g' found g1 doomed g2 base)

include h

theorem doomed_pending {k : NodeKey} (hk : k ∈ doomed) : k ∈ g.pendingKeys :=
  h.selected.pending ((h.mem_doomed k).mp hk)

theorem filter_eq (l : List (Vertex ρ)) : (l.filter fun v => decide (v.key ∉ doomed))
    = l.filter fun v => decide (v.key ∉ gone found) := by
  apply List.filter_congr
  intro v _
  rw [decide_eq_decide, h.mem_doomed]

theorem tickets : g'.pending.map (·.ticket)
    = (g.pending.filter fun v => decide (v.key ∉ gone found)).map (·.ticket) := by
  have hcore := filter_key_congr (map_core_congr (barePending_congr h.handed.skeleton))
    fun k => decide (k ∉ doomed)
  have hticket := congrArg (List.map fun v : Vertex ρ => v.ticket) (h.deleted.pending.trans hcore)
  rw [List.map_map, List.map_map] at hticket
  rw [h.extended.tickets, List.map_nil, List.append_nil, ← h.filter_eq]
  exact hticket

theorem executed : g'.executed.map Vertex.core = g.executed.map Vertex.core :=
  (map_core_congr h.extended.bareExecuted).trans
    (h.deleted.executed.trans (map_core_congr (bareExecuted_congr h.handed.skeleton)))

theorem launches : g'.pending.map (·.launch)
    = (g.pending.filter fun v => decide (v.key ∉ gone found)).map (·.launch) := by
  have hlaunch := congrArg (List.map fun t : Option ρ × TaskHandle × Nat => (t.1, t.2.1.task))
    h.tickets
  rw [List.map_map, List.map_map] at hlaunch
  exact hlaunch

theorem relisted (hg : g.Keyed) : g.Relisted g' := by
  refine ⟨fun v => decide (v.key ∉ gone found), h.launches, ?_⟩
  intro v hv hgoes
  rcases h.selected.exists_standsFor (not_not.mp (of_decide_eq_false hgoes))
    with ⟨s, a, b, hkey, _, hstands⟩
  have hsame : b = v := hg.eq_of_key (mem_vertices_of_pending hstands.before.right_mem)
    (mem_vertices_of_pending hv) hkey
  rw [← hsame]
  exact taskType_of_listTarget hstands.later

end Relisting

theorem Selected.positions {g : Graph ρ} {found : List Redundancy} (h : g.Selected found)
    {p : Nat} (hp : p ∈ found.map (·.position)) : exists v, v ∈ g.pending ∧ v.nodeId = p := by
  rcases List.mem_map.mp hp with ⟨r, hr, rfl⟩
  rcases h.settles r hr with ⟨s, a, b, rfl, hstands⟩
  exact ⟨b, hstands.before.right_mem, rfl⟩

theorem Selected.mem_keysAt {g g1 : Graph ρ} {found : List Redundancy} (h : g.Selected found)
    (hg : g.Sound) (hskeleton : g1.skeleton = g.skeleton) {doomed : List NodeKey}
    (hdoomed : g1.KeysAt (.ofList (found.map (·.position))) doomed) (k : NodeKey) :
    k ∈ doomed ↔ k ∈ gone found := by
  have hplaces : forall l, l ∈ g1.pending.map (fun v => (v.key, v.nodeId)) ↔
      l ∈ g.pending.map fun v => (v.key, v.nodeId) := by
    intro l
    rw [map_congr_of_bare (f := fun v => (v.key, v.nodeId)) (fun _ => rfl)
      (barePending_congr hskeleton)]
  rw [hdoomed k]
  constructor
  · rintro ⟨v, hv, hat, rfl⟩
    rcases List.mem_map.mp (OrderedSet.mem_ofList.mp hat) with ⟨r, hr, hposition⟩
    rcases h.settles r hr with ⟨s, a, b, rfl, hstands⟩
    rcases List.mem_map.mp ((hplaces _).mp (List.mem_map_of_mem hv)) with ⟨w, hw, hplace⟩
    rcases Prod.mk.inj hplace with ⟨hkey, hnodeId⟩
    have hsame : b = w := hg.numbered.eq_of_nodeId
      (mem_vertices_of_pending hstands.before.right_mem) (mem_vertices_of_pending hw)
      (hposition.trans hnodeId.symm)
    rw [← hkey, ← hsame]
    exact mem_gone hr
  · intro hk
    rcases h.exists_standsFor hk with ⟨s, a, b, rfl, ⟨r, hr, rfl⟩, hstands⟩
    rcases List.mem_map.mp ((hplaces _).mpr (List.mem_map_of_mem hstands.before.right_mem))
      with ⟨v, hv, hplace⟩
    rcases Prod.mk.inj hplace with ⟨hkey, hnodeId⟩
    refine ⟨v, hv, OrderedSet.mem_ofList.mpr ?_, hkey⟩
    rw [hnodeId]
    exact List.mem_map.mpr ⟨_, hr, rfl⟩

theorem optimizeListgen_cases {g : Graph ρ} (hg : g.Consistent) :
    exists g' changed, g.optimizeListgen = .ok (g', changed) ∧
      ((changed = false ∧ g' = g) ∨ (changed = true ∧ exists found g1 doomed g2 base,
        found ≠ [] ∧ g.Relisting g' found g1 doomed g2 base)) := by
  have hloop : exists all, g.listTargets.toList.mapM g.redundantListgens = .ok all ∧
      forall found, found ∈ all -> exists s, g.redundantListgens s = .ok found ∧ g.Judges s found := by
    refine mapM_ok_of_exists fun s _ => ?_
    rcases redundantListgens_ok hg.sound hg.forward s with ⟨found, hrun, hjudges⟩
    exact ⟨found, hrun, s, hrun, hjudges⟩
  rcases hloop with ⟨all, hall, hjudged⟩
  have hselected := selected_flatten hg.sound.keyed hjudged
  rw [optimizeListgen, sortPending_eq hg.sound hg.forward hg.aged, ok_bind, hall, ok_bind]
  by_cases hempty : all.flatten.isEmpty = true
  · exact ⟨g, false, by rw [if_pos hempty]; rfl, Or.inl ⟨rfl, rfl⟩⟩
  · rcases redirectAll_ok hg.sound hg.forward hselected with ⟨g1, hredirect, hhanded⟩
    have hpositions : forall p, p ∈ OrderedSet.ofList (all.flatten.map (·.position)) ->
        exists v, v ∈ g1.pending ∧ v.nodeId = p := by
      intro p hp
      rcases hselected.positions (OrderedSet.mem_ofList.mp hp) with ⟨v, hv, rfl⟩
      have hmem : v.nodeId ∈ g.pending.map (·.nodeId) := List.mem_map_of_mem hv
      rw [← map_congr_of_bare (fun v => v.nodeId_bare) (barePending_congr hhanded.skeleton)] at hmem
      exact List.mem_map.mp hmem
    rcases deleteNodes_ok hhanded.sound hhanded.forward hpositions
      with ⟨doomed, g2, hdelete, hdoomed, hdeleted⟩
    rcases rebuild_eq_insertNodes hdeleted.sound (hdeleted.forward hhanded.sound.keyed hhanded.forward)
      with ⟨base, hextracted, hrebuild⟩
    rcases insertNodes_built hextracted.settled.built (g2.pending.map (·.disconnected))
      with ⟨g', hinsert, hbuilt, hextended⟩
    refine ⟨g', true, ?_, Or.inr ⟨rfl, all.flatten, g1, doomed, g2, base, ?_, hselected, hhanded,
      hselected.mem_keysAt hg.sound hhanded.skeleton hdoomed, hdeleted, hextracted, hbuilt,
      hextracted.extended hextended⟩⟩
    · rw [if_neg hempty, hredirect, ok_bind, hdelete, ok_bind, hrebuild, hinsert]
      rfl
    · intro hnil
      rw [hnil] at hempty
      exact hempty rfl

theorem optimizeListgen_ok {g : Graph ρ} (hg : g.Consistent) :
    exists g' changed, g.optimizeListgen = .ok (g', changed) ∧ g.Rebuilt g' ∧ g.Relisted g' := by
  rcases optimizeListgen_cases hg with ⟨g', changed, hrun, ⟨_, rfl⟩ | ⟨_, found, g1, doomed, g2, base,
    _, h⟩⟩
  · exact ⟨g', changed, hrun, Or.inl rfl, Relisted.refl g'⟩
  · exact ⟨g', changed, hrun, Or.inr ⟨_, h.built⟩, h.relisted hg.sound.keyed⟩

end Graph
end LaunchGraph
