import LaunchGraph.Pass.DeadStores
import LaunchGraph.Proofs.Pass.Relaunch

/-!
# What dead store elimination does

The pass judges every pending node by the edges and tasks that the graph had before.
Nodes that are judged earlier lie before the node and are not among its targets, so
that their new tasks do not matter.  The result is described node by node: each one
stays, goes, or goes on with a record that the bank stripped of dead stores.
-/

namespace LaunchGraph

namespace Graph

variable {ρ : Type}

/-- The write of a state by the node under a key is dead: another node is the latest
owner, and no target of the node reads the state. -/
def DeadAt (g : Graph ρ) (k : NodeKey) (s : State) : Prop :=
  g.owners.get? s ≠ some k ∧ forall u, g.Leaves k u s -> ¬g.ReadsAt u s

def DeadStores (g : Graph ρ) (v : Vertex ρ) (dead : StateSet) : Prop :=
  forall s, s ∈ dead ↔ v.task.writes s = true ∧ g.DeadAt v.key s

/-- What is found out about a node.  It stays as it is if it has no record, if it has side
effects, if none of its stores is dead, or if the bank takes nothing out of its outputs. -/
inductive Judged (bank : Bank ρ) (g : Graph ρ) (v : Vertex ρ) : StoreVerdict ρ -> Prop where
  | bare (bare : v.record = none) : Judged bank g v .keep
  | loud (loud : v.task.sideEffects = true) : Judged bank g v .keep
  | live (live : forall s, v.task.writes s = true -> ¬g.DeadAt v.key s) : Judged bank g v .keep
  | whole {record : ρ} {dead : StateSet} (own : v.record = some record)
      (dead_at : g.DeadStores v dead) (whole : stripped? bank v record dead = none) :
      Judged bank g v .keep
  | delete (quiet : v.task.sideEffects = false)
      (dead : forall s, v.task.writes s = true -> g.DeadAt v.key s)
      (own : v.record ≠ none) (stores : exists s, v.task.writes s = true) :
      Judged bank g v .delete
  | strip {record record' : ρ} {dead : StateSet} (own : v.record = some record)
      (quiet : v.task.sideEffects = false)
      (eliminated : bank.eliminateStores record dead = some record')
      (dead_at : g.DeadStores v dead)
      (differs : (bank.describe record').task.outputs ≠ v.task.outputs)
      (partly : dead ≠ v.task.outputs) :
      Judged bank g v (.strip record' (bank.describe record'))

/-!
## The verdict on one node
-/

theorem isDeadStore_ok {g : Graph ρ} (hg : g.Sound) {v : Vertex ρ} (hv : v ∈ g.vertices)
    (s : State) :
    exists b, g.isDeadStore v s = .ok b ∧ (b = true ↔ g.DeadAt v.key s) := by
  rw [isDeadStore]
  by_cases ho : g.owners.get? s = some v.key
  · rw [if_pos ho]
    exact ⟨false, rfl, iff_of_false Bool.false_ne_true fun hdead => hdead.left ho⟩
  · rw [if_neg ho, hg.find_outputs hv, ok_bind]
    have hleaves : forall u, u ∈ v.outputs.get s ↔ g.Leaves v.key u s := by
      intro u
      rw [Leaves, outputsOf_of_find? (find?_of_mem hg.keyed.nodup hv)]
    have hreads : forall u, g.Leaves v.key u s -> ((g.vertexOf u).reads s = true ↔ g.ReadsAt u s) :=
      fun u hu => vertexOf_reads ((hg.wired.mirrored _ _ s).mp hu).target_mem
    refine ⟨_, rfl, ?_⟩
    rw [Bool.not_eq_true', List.any_eq_false]
    constructor
    · intro hnone
      refine ⟨ho, ?_⟩
      intro u hu hread
      exact hnone _ (List.mem_map_of_mem ((hleaves u).mpr hu)) ((hreads u hu).mpr hread)
    · rintro ⟨_, hnone⟩ x hx hread
      rcases List.mem_map.mp hx with ⟨u, hu, rfl⟩
      have hu' := (hleaves u).mp hu
      exact hnone u hu' ((hreads u hu').mp hread)

theorem deadStores_ok {g : Graph ρ} (hg : g.Sound) {v : Vertex ρ} (hv : v ∈ g.vertices) :
    exists dead, g.deadStores v = .ok dead ∧ g.DeadStores v dead := by
  have hall : forall s, exists b, g.isDeadStore v s = .ok b ∧ (b = true ↔ g.DeadAt v.key s) :=
    isDeadStore_ok hg hv
  choose verdict hrun hdead using hall
  have hmap : v.task.outputs.toList.mapM (fun s => do return (s, ← g.isDeadStore v s))
      = .ok (v.task.outputs.toList.map fun s => (s, verdict s)) := by
    refine mapM_ok_of_forall ?_
    intro s _
    rw [hrun s]
    rfl
  refine ⟨_, by rw [deadStores, hmap]; rfl, ?_⟩
  intro s
  rw [OrderedSet.mem_filter, decide_eq_true_iff, Task.writes, decide_eq_true_iff]
  constructor
  · rintro ⟨hout, hin⟩
    rcases List.mem_map.mp hin with ⟨t, _, ht⟩
    rcases Prod.mk.inj ht with ⟨rfl, htrue⟩
    exact ⟨hout, (hdead t).mp htrue⟩
  · rintro ⟨hout, hat⟩
    exact ⟨hout, List.mem_map.mpr ⟨s, OrderedSet.mem_def.mp hout, by rw [(hdead s).mpr hat]⟩⟩

theorem storeVerdict_ok {g : Graph ρ} (bank : Bank ρ) (hg : g.Sound) {v : Vertex ρ}
    (hv : v ∈ g.vertices) :
    exists verdict, g.storeVerdict bank v = .ok verdict ∧ g.Judged bank v verdict := by
  rw [storeVerdict]
  cases hrecord : v.record with
  | none => exact ⟨.keep, rfl, .bare hrecord⟩
  | some record =>
      dsimp only
      by_cases hquiet : (v.task.sideEffects || v.task.outputs.isEmpty) = true
      · rw [if_pos hquiet]
        rw [Bool.or_eq_true] at hquiet
        cases hquiet with
        | inl hloud => exact ⟨.keep, rfl, .loud hloud⟩
        | inr hempty =>
            refine ⟨.keep, rfl, .live fun s hs => ?_⟩
            rw [Task.writes, decide_eq_true_iff] at hs
            exact absurd hs (OrderedSet.isEmpty_iff.mp hempty s)
      · rw [if_neg hquiet]
        rw [Bool.not_eq_true, Bool.or_eq_false_iff] at hquiet
        rcases deadStores_ok hg hv with ⟨dead, hrun, hdead⟩
        rw [hrun, ok_bind]
        by_cases hempty : dead.isEmpty = true
        · rw [if_pos hempty]
          refine ⟨.keep, rfl, .live fun s hs hat => ?_⟩
          exact OrderedSet.isEmpty_iff.mp hempty s ((hdead s).mpr ⟨hs, hat⟩)
        · rw [if_neg hempty]
          by_cases hall : dead = v.task.outputs
          · rw [if_pos hall]
            have hdeadAt : forall s, v.task.writes s = true -> g.DeadAt v.key s := by
              intro s hs
              rw [Task.writes, decide_eq_true_iff, ← hall] at hs
              exact ((hdead s).mp hs).right
            rw [OrderedSet.isEmpty_iff] at hempty
            rcases Classical.not_forall_not.mp hempty with ⟨s, hs⟩
            have hown : v.record ≠ none := by
              rw [hrecord]
              exact Option.some_ne_none record
            exact ⟨.delete, rfl, .delete hquiet.left hdeadAt hown ⟨s, ((hdead s).mp hs).left⟩⟩
          · rw [if_neg hall]
            cases hstripped : stripped? bank v record dead with
            | none => exact ⟨.keep, rfl, .whole hrecord hdead hstripped⟩
            | some answer =>
                rcases answer with ⟨record', d⟩
                rw [stripped?] at hstripped
                cases heliminated : bank.eliminateStores record dead with
                | none =>
                    rw [heliminated] at hstripped
                    cases hstripped
                | some r =>
                    rw [heliminated] at hstripped
                    dsimp only [Option.bind_eq_bind, Option.bind_some] at hstripped
                    split at hstripped
                    · cases hstripped
                    · next hdiffers =>
                        cases hstripped
                        exact ⟨_, rfl, .strip hrecord hquiet.left heliminated hdead hdiffers hall⟩

/-!
## The walk
-/

inductive Scanned (bank : Bank ρ) (g : Graph ρ) (scan : StoreScan ρ) (v : Vertex ρ) : Prop where
  | keep (found : scan.graph.find? v.key = some v) (stays : v.nodeId ∉ scan.doomed)
      (judged : g.Judged bank v .keep)
  | delete (found : scan.graph.find? v.key = some v) (judged : g.Judged bank v .delete)
      (goes : v.nodeId ∈ scan.doomed)
  | strip {record : ρ} {handle : TaskHandle}
      (judged : g.Judged bank v (.strip record (bank.describe record)))
      (task : handle.task = (bank.describe record).task)
      (found : scan.graph.find? v.key = some (v.update (·.relaunched record handle)))
      (stays : v.nodeId ∉ scan.doomed)

/-- The walk has looked at the nodes under the keys in `done`. -/
structure Walked (bank : Bank ρ) (g : Graph ρ) (done : List NodeKey) (scan : StoreScan ρ) :
    Prop where
  relaunched : g.Relaunched scan.graph
  scanned : forall v, v ∈ g.pending -> v.key ∈ done -> Scanned bank g scan v
  ahead : forall v, v ∈ g.pending -> v.key ∉ done ->
    scan.graph.find? v.key = some v ∧ v.nodeId ∉ scan.doomed
  doomed_pending : forall p, p ∈ scan.doomed -> exists v, v ∈ g.pending ∧ v.nodeId = p
  unchanged : scan.stripped = false -> scan.graph = g
  changed : scan.stripped = true ->
    exists v, v ∈ g.pending ∧ v.key ∈ done ∧ scan.graph.find? v.key ≠ some v

theorem Walked.deadAt_iff {bank : Bank ρ} {g : Graph ρ} {done : List NodeKey}
    {scan : StoreScan ρ} (h : Walked bank g done scan) (hg : g.Sound) {k : NodeKey}
    (hahead : forall u s, g.Leaves k u s -> u ∉ done) {s : State} :
    scan.graph.DeadAt k s ↔ g.DeadAt k s := by
  have hreads : forall u, g.Leaves k u s -> (scan.graph.ReadsAt u s ↔ g.ReadsAt u s) := by
    intro u hu
    have hpending := hg.wired.target_pending k u s ((hg.wired.mirrored k u s).mp hu)
    rcases exists_pending hpending with ⟨w, hw, rfl⟩
    rw [ReadsAt, ReadsAt, (h.ahead w hw (hahead _ s hu)).left, hg.keyed.find?_pending hw]
  rw [DeadAt, DeadAt, h.relaunched.owners]
  simp only [h.relaunched.leaves_iff]
  refine and_congr_right fun _ => forall₂_congr fun u hu => ?_
  rw [hreads u hu]

theorem Walked.deadStores_iff {bank : Bank ρ} {g : Graph ρ} {done : List NodeKey}
    {scan : StoreScan ρ} (h : Walked bank g done scan) (hg : g.Sound) {v : Vertex ρ}
    (hahead : forall u s, g.Leaves v.key u s -> u ∉ done) {dead : StateSet} :
    scan.graph.DeadStores v dead ↔ g.DeadStores v dead := by
  simp only [DeadStores, h.deadAt_iff hg hahead]

theorem Walked.judged {bank : Bank ρ} {g : Graph ρ} {done : List NodeKey}
    {scan : StoreScan ρ} (h : Walked bank g done scan) (hg : g.Sound) {v : Vertex ρ}
    (hahead : forall u s, g.Leaves v.key u s -> u ∉ done) {verdict : StoreVerdict ρ}
    (hj : scan.graph.Judged bank v verdict) : g.Judged bank v verdict := by
  cases hj with
  | bare bare => exact .bare bare
  | loud loud => exact .loud loud
  | live live => exact .live fun s hs hat => live s hs ((h.deadAt_iff hg hahead).mpr hat)
  | whole own dead_at whole => exact .whole own ((h.deadStores_iff hg hahead).mp dead_at) whole
  | delete quiet dead own stores =>
      exact .delete quiet (fun s hs => (h.deadAt_iff hg hahead).mp (dead s hs)) own stores
  | strip own quiet eliminated dead_at differs partly =>
      exact .strip own quiet eliminated ((h.deadStores_iff hg hahead).mp dead_at) differs partly

theorem Scanned.congr {bank : Bank ρ} {g : Graph ρ} {scan scan' : StoreScan ρ} {v : Vertex ρ}
    (h : Scanned bank g scan v) (hfind : scan'.graph.find? v.key = scan.graph.find? v.key)
    (hdoomed : v.nodeId ∈ scan'.doomed ↔ v.nodeId ∈ scan.doomed) : Scanned bank g scan' v := by
  cases h with
  | keep found stays judged =>
      exact .keep (hfind.trans found) (fun hin => stays (hdoomed.mp hin)) judged
  | delete found judged goes => exact .delete (hfind.trans found) judged (hdoomed.mpr goes)
  | strip judged task found stays =>
      exact .strip judged task (hfind.trans found) (fun hin => stays (hdoomed.mp hin))

/-- One step of the walk: what changes concerns the node alone. -/
theorem Walked.extend {bank : Bank ρ} {g : Graph ρ} {done : List NodeKey}
    {scan scan' : StoreScan ρ} {v : Vertex ρ} (h : Walked bank g done scan) (hg : g.Keyed)
    (hv : v ∈ g.pending) (hrelaunched : g.Relaunched scan'.graph)
    (hscanned : Scanned bank g scan' v)
    (hfind : forall k, k ≠ v.key -> scan'.graph.find? k = scan.graph.find? k)
    (hdoomed : forall w, w ∈ g.pending -> w.key ≠ v.key ->
      (w.nodeId ∈ scan'.doomed ↔ w.nodeId ∈ scan.doomed))
    (hpending : forall p, p ∈ scan'.doomed -> exists w, w ∈ g.pending ∧ w.nodeId = p)
    (hunchanged : scan'.stripped = false -> scan'.graph = g) (hnew : v.key ∉ done)
    (hchanged : scan'.stripped = true ->
      scan.stripped = true ∨ scan'.graph.find? v.key ≠ some v) :
    Walked bank g (done ++ [v.key]) scan' := by
  have hsame : forall w, w ∈ g.pending -> w.key = v.key -> w = v := by
    intro w hw heq
    exact hg.eq_of_key (mem_vertices_of_pending hw) (mem_vertices_of_pending hv) heq
  refine ⟨hrelaunched, ?_, ?_, hpending, hunchanged, ?_⟩
  · intro w hw hin
    by_cases hwv : w.key = v.key
    · rw [hsame w hw hwv]
      exact hscanned
    · have hdone : w.key ∈ done := by
        rcases List.mem_append.mp hin with hin | hin
        · exact hin
        · exact absurd (List.mem_singleton.mp hin) hwv
      exact (h.scanned w hw hdone).congr (hfind _ hwv) (hdoomed w hw hwv)
  · intro w hw hnot
    rw [List.mem_append, List.mem_singleton, not_or] at hnot
    rcases h.ahead w hw hnot.left with ⟨hfound, hstays⟩
    exact ⟨(hfind _ hnot.right).trans hfound, fun hin => hstays ((hdoomed w hw hnot.right).mp hin)⟩
  · intro hstripped
    rcases hchanged hstripped with hbefore | hnow
    · rcases h.changed hbefore with ⟨w, hw, hdone, hne⟩
      refine ⟨w, hw, List.mem_append_left _ hdone, ?_⟩
      have hwv : w.key ≠ v.key := fun heq => hnew (heq ▸ hdone)
      rw [hfind _ hwv]
      exact hne
    · exact ⟨v, hv, by simp, hnow⟩

theorem scanStores_ok {bank : Bank ρ} {g : Graph ρ} (hg : g.Sound) {done : List NodeKey}
    {scan : StoreScan ρ} (h : Walked bank g done scan) {v : Vertex ρ} (hv : v ∈ g.pending)
    (hnew : v.key ∉ done) (hahead : forall u s, g.Leaves v.key u s -> u ∉ done) :
    exists scan', scanStores bank scan v.key = .ok scan' ∧
      Walked bank g (done ++ [v.key]) scan' := by
  rcases h.ahead v hv hnew with ⟨hfound, hstays⟩
  have hsound := h.relaunched.sound hg
  have hpending : v.key ∈ scan.graph.pendingKeys := by
    rw [h.relaunched.pendingKeys]
    exact List.mem_map_of_mem hv
  rcases storeVerdict_ok bank hsound (mem_of_find? hfound) with ⟨verdict, hrun, hjudged⟩
  have hjudged' := h.judged hg hahead hjudged
  rw [scanStores, find_ok hfound, ok_bind, hrun, ok_bind]
  cases verdict with
  | keep =>
      exact ⟨scan, rfl, h.extend hg.keyed hv h.relaunched (.keep hfound hstays hjudged')
        (fun _ _ => rfl) (fun _ _ _ => Iff.rfl) h.doomed_pending h.unchanged hnew Or.inl⟩
  | delete =>
      refine ⟨_, rfl, h.extend hg.keyed hv h.relaunched (.delete hfound hjudged' ?_)
        (fun _ _ => rfl) ?_ ?_ h.unchanged hnew Or.inl⟩
      · exact OrderedSet.mem_insert.mpr (Or.inl rfl)
      · intro w hw hne
        rw [OrderedSet.mem_insert]
        constructor
        · rintro (heq | hin)
          · refine absurd (congrArg Vertex.key ?_) hne
            exact hg.numbered.eq_of_nodeId (mem_vertices_of_pending hw)
              (mem_vertices_of_pending hv) heq
          · exact hin
        · exact Or.inr
      · intro p hp
        rcases OrderedSet.mem_insert.mp hp with rfl | hp
        · exact ⟨v, hv, rfl⟩
        · exact h.doomed_pending p hp
  | strip record d =>
      have hd : d = bank.describe record ∧ d.task.outputs ≠ v.task.outputs := by
        cases hjudged' with
        | strip own quiet eliminated dead_at differs => exact ⟨rfl, differs⟩
      rcases hd with ⟨rfl, hdiffers⟩
      rcases relaunch_ok hsound.keyed hpending record (bank.describe record)
        with ⟨g', hmodify, hrelaunched, hself, hother⟩
      refine ⟨{ scan with graph := g', stripped := true }, ?_, ?_⟩
      · show ((scan.graph.adopt (bank.describe record)).1.modify v.key
          (·.relaunched record (scan.graph.adopt (bank.describe record)).2) >>= fun g =>
            .ok { scan with graph := g, stripped := true }) = _
        rw [hmodify]
        rfl
      · refine h.extend hg.keyed hv (h.relaunched.trans hrelaunched)
          (.strip hjudged' (scan.graph.task_adopt _) (hself v hfound) hstays) hother
          (fun _ _ _ => Iff.rfl) h.doomed_pending (fun hfalse => by cases hfalse) hnew ?_
        intro _
        refine Or.inr fun hsame => hdiffers ?_
        rw [hself v hfound] at hsame
        have houtputs := congrArg (fun w : Vertex ρ => w.task.outputs) (Option.some.inj hsame)
        rw [← houtputs, ← scan.graph.task_adopt]
        rfl

/-- The walk goes through.  The targets of a node lie behind it, so they are still
ahead when it is judged. -/
theorem walk_ok {g : Graph ρ} (bank : Bank ρ) (hg : g.Sound) (hf : g.Forward) :
    exists scan, g.pendingKeys.foldlM (scanStores bank) ⟨g, ∅, false⟩ = .ok scan ∧
      Walked bank g g.pendingKeys scan := by
  refine foldlM_ok_of_step (fun done scan => Walked bank g done scan) ?_ ?_
  · intro done k rest scan hsplit h
    have hk : k ∈ g.pendingKeys := by
      rw [hsplit]
      simp
    rcases exists_pending hk with ⟨v, hv, rfl⟩
    have hnodup := hg.keyed.nodup_pending
    have hnew : v.key ∉ done := by
      intro hin
      rw [hsplit, List.nodup_append] at hnodup
      exact hnodup.right.right v.key hin v.key (List.mem_cons_self ..) rfl
    refine scanStores_ok hg h hv hnew ?_
    intro u s hu hin
    have hforward := hf v.key u s ((hg.wired.mirrored _ _ s).mp hu)
    have hback : ComesBefore g.pendingKeys u v.key := by
      rw [hsplit, ComesBefore.append_iff]
      exact Or.inr (Or.inl ⟨hin, List.mem_cons_self ..⟩)
    exact ComesBefore.asymm hg.keyed.nodup hforward (hback.of_sublist g.pendingKeys_sublist)
  · refine ⟨Relaunched.refl g, ?_, ?_, ?_, fun _ => rfl, fun htrue => by cases htrue⟩
    · intro v _ hin
      cases hin
    · intro v hv _
      exact ⟨hg.keyed.find?_pending hv, OrderedSet.not_mem_empty _⟩
    · intro p hp
      exact absurd hp (OrderedSet.not_mem_empty p)

/-!
## The whole pass
-/

inductive Swept (bank : Bank ρ) (g : Graph ρ) :
    List (Vertex ρ) -> List (Option ρ × Task) -> Prop where
  | nil : Swept bank g [] []
  | keep {v : Vertex ρ} {rest : List (Vertex ρ)} {launches : List (Option ρ × Task)}
      (swept : Swept bank g rest launches) : Swept bank g (v :: rest) (v.launch :: launches)
  | delete {v : Vertex ρ} {rest : List (Vertex ρ)} {launches : List (Option ρ × Task)}
      (judged : g.Judged bank v .delete) (swept : Swept bank g rest launches) :
      Swept bank g (v :: rest) launches
  | strip {v : Vertex ρ} {record : ρ} {rest : List (Vertex ρ)}
      {launches : List (Option ρ × Task)}
      (judged : g.Judged bank v (.strip record (bank.describe record)))
      (swept : Swept bank g rest launches) :
      Swept bank g (v :: rest) ((some record, (bank.describe record).task) :: launches)

theorem Swept.refl (bank : Bank ρ) (g : Graph ρ) (l : List (Vertex ρ)) :
    Swept bank g l (l.map (·.launch)) := by
  induction l with
  | nil => exact .nil
  | cons v l ih => exact .keep ih

theorem Swept.mem {bank : Bank ρ} {g : Graph ρ} {l : List (Vertex ρ)}
    {launches : List (Option ρ × Task)} (h : Swept bank g l launches) :
    forall p, p ∈ launches -> (exists w, w ∈ l ∧ w.launch = p) ∨
      exists record, p = (some record, (bank.describe record).task) := by
  induction h with
  | nil =>
      intro p hp
      cases hp
  | keep _ ih =>
      intro p hp
      rcases List.mem_cons.mp hp with rfl | hp
      · exact Or.inl ⟨_, List.mem_cons_self .., rfl⟩
      · rcases ih p hp with ⟨w, hw, heq⟩ | hnew
        · exact Or.inl ⟨w, List.mem_cons_of_mem _ hw, heq⟩
        · exact Or.inr hnew
  | delete _ _ ih =>
      intro p hp
      rcases ih p hp with ⟨w, hw, heq⟩ | hnew
      · exact Or.inl ⟨w, List.mem_cons_of_mem _ hw, heq⟩
      · exact Or.inr hnew
  | strip _ _ ih =>
      intro p hp
      rcases List.mem_cons.mp hp with rfl | hp
      · exact Or.inr ⟨_, rfl⟩
      · rcases ih p hp with ⟨w, hw, heq⟩ | hnew
        · exact Or.inl ⟨w, List.mem_cons_of_mem _ hw, heq⟩
        · exact Or.inr hnew

theorem Swept.renews {bank : Bank ρ} {g g' : Graph ρ}
    (h : Swept bank g g.pending (g'.pending.map (·.launch))) : g.Renews bank g' := by
  intro v hv
  rcases h.mem v.launch (List.mem_map_of_mem hv) with hold | ⟨record, heq⟩
  · exact Or.inl hold
  · rcases Prod.mk.inj heq with ⟨hrecord, htask⟩
    exact Or.inr ⟨record, hrecord, htask⟩

theorem Walked.mem_doomed {bank : Bank ρ} {g : Graph ρ} {done : List NodeKey} {scan : StoreScan ρ}
    (h : Walked bank g done scan) (hg : g.Keyed) {doomed : List NodeKey}
    (hdoomed : scan.graph.KeysAt scan.doomed doomed) {v : Vertex ρ} (hv : v ∈ g.pending) :
    v.key ∈ doomed ↔ v.nodeId ∈ scan.doomed := by
  have hplaces : scan.graph.pending.map (fun v => (v.key, v.nodeId))
      = g.pending.map fun v => (v.key, v.nodeId) := h.relaunched.map_pending fun _ => rfl
  rw [hdoomed]
  constructor
  · rintro ⟨w, hw, hin, hkey⟩
    have hmem : (w.key, w.nodeId) ∈ scan.graph.pending.map fun v => (v.key, v.nodeId) :=
      List.mem_map_of_mem hw
    rw [hplaces] at hmem
    rcases List.mem_map.mp hmem with ⟨x, hx, heq⟩
    rcases Prod.mk.inj heq with ⟨hxkey, hxid⟩
    have hxv : x = v := hg.eq_of_key (mem_vertices_of_pending hx) (mem_vertices_of_pending hv)
      (hxkey.trans hkey)
    rw [← hxv, hxid]
    exact hin
  · intro hin
    have hmem : (v.key, v.nodeId) ∈ g.pending.map fun v => (v.key, v.nodeId) :=
      List.mem_map_of_mem hv
    rw [← hplaces] at hmem
    rcases List.mem_map.mp hmem with ⟨w, hw, heq⟩
    rcases Prod.mk.inj heq with ⟨hkey, hid⟩
    exact ⟨w, hw, by rw [hid]; exact hin, hkey⟩

/-- What has become of a pending node when the walk and the deletion are done. -/
inductive Fate (bank : Bank ρ) (g : Graph ρ) (scan : StoreScan ρ) (doomed : List NodeKey)
    (v : Vertex ρ) : Prop where
  | keep (stays : v.key ∉ doomed) (now : scan.graph.find? v.key = some v)
      (judged : g.Judged bank v .keep)
  | delete (goes : v.key ∈ doomed) (judged : g.Judged bank v .delete)
  | strip {record : ρ} (stays : v.key ∉ doomed)
      (judged : g.Judged bank v (.strip record (bank.describe record)))
      (now : (scan.graph.vertexOf v.key).launch = launchOf bank record)

theorem Walked.fate {bank : Bank ρ} {g : Graph ρ} {scan : StoreScan ρ} (hg : g.Keyed)
    (h : Walked bank g g.pendingKeys scan) {doomed : List NodeKey}
    (hdoomed : scan.graph.KeysAt scan.doomed doomed) {v : Vertex ρ} (hv : v ∈ g.pending) :
    Fate bank g scan doomed v := by
  have hmem := h.mem_doomed hg hdoomed hv
  cases h.scanned v hv (List.mem_map_of_mem hv) with
  | keep found stays judged => exact .keep (fun hin => stays (hmem.mp hin)) found judged
  | delete _ judged goes => exact .delete (hmem.mpr goes) judged
  | @strip record handle judged task found stays =>
      refine .strip (fun hin => stays (hmem.mp hin)) judged ?_
      rw [vertexOf_of_find? found]
      exact congrArg (Prod.mk (some record)) task

/-- The walk and the deletion after it, for the pending nodes from some point on. -/
theorem Walked.swept {bank : Bank ρ} {g : Graph ρ} {scan : StoreScan ρ} (hg : g.Keyed)
    (h : Walked bank g g.pendingKeys scan) {doomed : List NodeKey}
    (hdoomed : scan.graph.KeysAt scan.doomed doomed) {l : List (Vertex ρ)}
    (hl : forall v, v ∈ l -> v ∈ g.pending) :
    Swept bank g l ((l.filter fun v => decide (v.key ∉ doomed)).map
      fun v => (scan.graph.vertexOf v.key).launch) := by
  induction l with
  | nil => exact .nil
  | cons v l ih =>
      have hrest := ih fun w hw => hl w (List.mem_cons_of_mem _ hw)
      cases h.fate hg hdoomed (hl v (List.mem_cons_self ..)) with
      | keep stays now =>
          rw [List.filter_cons_of_pos (by simp [stays]), List.map_cons, vertexOf_of_find? now]
          exact .keep hrest
      | delete goes judged =>
          rw [List.filter_cons_of_neg (by simp [goes])]
          exact .delete judged hrest
      | strip stays judged now =>
          rw [List.filter_cons_of_pos (by simp [stays]), List.map_cons, now]
          exact .strip judged hrest

structure Pruned (bank : Bank ρ) (g g' : Graph ρ) (scan : StoreScan ρ) (doomed : List NodeKey)
    (g1 base : Graph ρ) : Prop where
  walked : Walked bank g g.pendingKeys scan
  doomed_at : scan.graph.KeysAt scan.doomed doomed
  deleted : scan.graph.Deleted doomed g1
  extracted : g1.Extracted base
  built : g'.Built base.ownerOrInitial
  bareExecuted : g'.executed.map Vertex.bare = g1.executed.map Vertex.bare
  tickets : g'.pending.map (·.ticket) = g1.pending.map (·.ticket)
  changed : exists v, v ∈ g.pending ∧ (v.key ∈ doomed ∨ scan.graph.find? v.key ≠ some v)

theorem Pruned.launches {bank : Bank ρ} {g g' g1 base : Graph ρ} {scan : StoreScan ρ}
    {doomed : List NodeKey} (h : Pruned bank g g' scan doomed g1 base) :
    g'.pending.map (·.launch) = g1.pending.map (·.launch) := by
  have hmap := congrArg (List.map fun t => (t.1, t.2.1.task)) h.tickets
  rw [List.map_map, List.map_map] at hmap
  exact hmap

theorem Pruned.map_kept {bank : Bank ρ} {g g' g1 base : Graph ρ} {scan : StoreScan ρ}
    {doomed : List NodeKey} (h : Pruned bank g g' scan doomed g1 base) (hg : g.Keyed) {β : Type}
    {f : Vertex ρ -> β} (hf : forall v : Vertex ρ, f v.core = f v)
    (hkept : g'.pending.map f = g1.pending.map f) :
    g'.pending.map f = (g.pending.filter fun v => decide (v.key ∉ doomed)).map
      fun v => f (scan.graph.vertexOf v.key) := by
  have hkeys : forall v, v ∈ g.pending -> (scan.graph.vertexOf v.key).key = v.key := by
    intro v hv
    refine key_vertexOf ?_
    rw [h.walked.relaunched.keys]
    exact key_mem_keys (mem_vertices_of_pending hv)
  have hfilter : (g.pending.map fun v => scan.graph.vertexOf v.key).filter
        (fun v => decide (v.key ∉ doomed))
      = (g.pending.filter fun v => decide (v.key ∉ doomed)).map
          fun v => scan.graph.vertexOf v.key := by
    rw [List.filter_map]
    refine congrArg (List.map _) (List.filter_congr fun v hv => ?_)
    rw [Function.comp_apply, hkeys v hv]
  rw [hkept, h.deleted.map_pending hf, h.walked.relaunched.pending_eq hg, hfilter, List.map_map]
  rfl

theorem Walked.exists_changed {bank : Bank ρ} {g : Graph ρ} {done : List NodeKey}
    {scan : StoreScan ρ} (h : Walked bank g done scan) (hg : g.Keyed) {doomed : List NodeKey}
    (hdoomed : scan.graph.KeysAt scan.doomed doomed)
    (hfound : ¬(scan.doomed.isEmpty && !scan.stripped) = true) :
    exists v, v ∈ g.pending ∧ (v.key ∈ doomed ∨ scan.graph.find? v.key ≠ some v) := by
  cases hstripped : scan.stripped with
  | true =>
      rcases h.changed hstripped with ⟨v, hv, _, hne⟩
      exact ⟨v, hv, Or.inr hne⟩
  | false =>
      rw [hstripped, Bool.not_false, Bool.and_true, OrderedSet.isEmpty, List.isEmpty_iff] at hfound
      rcases List.exists_mem_of_ne_nil _ hfound with ⟨p, hp⟩
      rcases h.doomed_pending p hp with ⟨v, hv, rfl⟩
      exact ⟨v, hv, Or.inl ((h.mem_doomed hg hdoomed hv).mpr hp)⟩

theorem Walked.all_keep {bank : Bank ρ} {g : Graph ρ} {scan : StoreScan ρ}
    (h : Walked bank g g.pendingKeys scan) (hg : g.Keyed)
    (hidle : (scan.doomed.isEmpty && !scan.stripped) = true) :
    scan.graph = g ∧ forall v, v ∈ g.pending -> g.Judged bank v .keep := by
  rw [Bool.and_eq_true, Bool.not_eq_true'] at hidle
  have hsame := h.unchanged hidle.right
  refine ⟨hsame, fun v hv => ?_⟩
  cases h.scanned v hv (List.mem_map_of_mem hv) with
  | keep _ _ judged => exact judged
  | delete _ _ goes => exact absurd goes (OrderedSet.isEmpty_iff.mp hidle.left v.nodeId)
  | @strip record handle judged task found _ =>
      rw [hsame, hg.find?_pending hv] at found
      have htask : v.task = handle.task := congrArg (fun w : Vertex ρ => w.task)
        (Option.some.inj found)
      cases judged with
      | strip own quiet eliminated dead_at differs partly =>
          rw [htask, task] at differs
          exact absurd rfl differs

theorem eliminateDeadStores_cases {g : Graph ρ} (bank : Bank ρ) (hg : g.Sound) (hf : g.Forward) :
    exists g' changed, g.eliminateDeadStores bank = .ok (g', changed) ∧
      ((changed = false ∧ g' = g ∧ forall v, v ∈ g.pending -> g.Judged bank v .keep) ∨
        (changed = true ∧ exists scan doomed g1 base, Pruned bank g g' scan doomed g1 base)) := by
  rcases walk_ok bank hg hf with ⟨scan, hscan, hwalked⟩
  by_cases hidle : (scan.doomed.isEmpty && !scan.stripped) = true
  · rcases hwalked.all_keep hg.keyed hidle with ⟨hsame, hkeep⟩
    refine ⟨scan.graph, false, ?_, Or.inl ⟨rfl, hsame, hkeep⟩⟩
    rw [eliminateDeadStores, hscan, ok_bind, if_pos hidle]
    rfl
  · have hsound := hwalked.relaunched.sound hg
    have hforward := hwalked.relaunched.forward hf
    have hpositions : forall p, p ∈ scan.doomed ->
        exists v, v ∈ scan.graph.pending ∧ v.nodeId = p := by
      intro p hp
      rcases hwalked.doomed_pending p hp with ⟨v, hv, rfl⟩
      have hmem : v.nodeId ∈ g.pending.map (·.nodeId) := List.mem_map_of_mem hv
      rw [← hwalked.relaunched.map_pending fun _ => rfl] at hmem
      exact List.mem_map.mp hmem
    rcases deleteNodes_ok hsound hforward hpositions
      with ⟨doomed, g1, hdelete, hkeysAt, hdeleted⟩
    rcases rebuild_built hdeleted.sound (hdeleted.forward hsound.keyed hforward)
      with ⟨g2, base, hrebuild, hextracted, hbuilt, hbare, _⟩
    have hextended := rebuild_extended hdeleted.sound (hdeleted.forward hsound.keyed hforward)
      hrebuild
    have htickets := hextended.tickets
    rw [List.map_nil, List.append_nil] at htickets
    have hchanged := hwalked.exists_changed hg.keyed hkeysAt hidle
    refine ⟨g2, true, ?_, Or.inr ⟨rfl, scan, doomed, g1, base, hwalked, hkeysAt, hdeleted,
      hextracted, hbuilt, hbare, htickets, hchanged⟩⟩
    rw [eliminateDeadStores, hscan, ok_bind, if_neg hidle, hdelete, ok_bind, hrebuild]
    rfl

theorem eliminateDeadStores_ok {g : Graph ρ} (bank : Bank ρ) (hg : g.Sound) (hf : g.Forward) :
    exists g' changed, g.eliminateDeadStores bank = .ok (g', changed) ∧ g.Rebuilt g' ∧
      Swept bank g g.pending (g'.pending.map (·.launch)) := by
  rcases eliminateDeadStores_cases bank hg hf
    with ⟨g', changed, hrun, ⟨_, rfl, _⟩ | ⟨_, scan, doomed, g1, base, h⟩⟩
  · exact ⟨g', changed, hrun, Or.inl rfl, Swept.refl bank g' g'.pending⟩
  · refine ⟨g', changed, hrun, Or.inr ⟨_, h.built⟩, ?_⟩
    rw [h.map_kept hg.keyed (fun _ => rfl) h.launches]
    exact h.walked.swept hg.keyed h.doomed_at fun v hv => hv

end Graph
end LaunchGraph
