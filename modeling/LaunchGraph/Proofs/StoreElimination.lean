import LaunchGraph.Proofs.ReadSources

/-!
# Which stores are eliminated

A store of a pending node is never read if the next writer of the state that is pending does not
read it, and no node between the two does.  Dead store elimination looks at edges and owners, not
at the sequence, and judges many nodes in one walk.  In a graph that was built it nevertheless
finds exactly the stores that are never read: it deletes the nodes that do nothing else, strips
the others, and leaves alone whatever has nothing to lose.
-/

namespace LaunchGraph

variable {ρ : Type}

/-- A bank that is asked to take stores out of a record takes out exactly these. -/
def Bank.EliminatesStores (bank : Bank ρ) : Prop :=
  forall record dead, (forall s, s ∈ dead -> s ∈ (bank.describe record).task.outputs) ->
    exists stripped, bank.eliminateStores record dead = some stripped ∧
      (bank.describe stripped).task.outputs = (bank.describe record).task.outputs \ dead

theorem overwritten_iff {s : State} {l : List (Vertex ρ)} :
    Overwritten s l ↔ exists between w after, l = between ++ w :: after ∧
      w.task.writes s = true ∧ w.task.reads s = false ∧
      forall x, x ∈ between -> x.task.writes s = false ∧ x.task.reads s = false := by
  induction l with
  | nil =>
      refine iff_of_false id ?_
      rintro ⟨between, w, after, hsplit, _⟩
      exact List.append_ne_nil_of_right_ne_nil _ (List.cons_ne_nil w after) hsplit.symm
  | cons v l ih =>
      rw [Overwritten]
      constructor
      · rintro ⟨hunread, hnext⟩
        by_cases hwrites : v.task.writes s = true
        · exact ⟨[], v, l, rfl, hwrites, hunread, fun x hx => by cases hx⟩
        · rcases ih.mp (hnext.resolve_left hwrites)
            with ⟨between, w, after, rfl, hw, hunreadw, hquiet⟩
          refine ⟨v :: between, w, after, rfl, hw, hunreadw, ?_⟩
          exact List.forall_mem_cons.mpr ⟨⟨Bool.eq_false_iff.mpr hwrites, hunread⟩, hquiet⟩
      · rintro ⟨between, w, after, hsplit, hw, hunreadw, hquiet⟩
        cases between with
        | nil =>
            rcases List.cons.inj hsplit with ⟨rfl, _⟩
            exact ⟨hunreadw, Or.inl hw⟩
        | cons x between =>
            rcases List.cons.inj hsplit with ⟨rfl, rfl⟩
            rcases List.forall_mem_cons.mp hquiet with ⟨hv, hrest⟩
            exact ⟨hv.right, Or.inr (ih.mpr ⟨between, w, after, rfl, hw, hunreadw, hrest⟩)⟩

namespace Graph

/-!
## Stores that are never read
-/

/-- What the pending node stores is never read: the next pending node that writes the state does
not read it, and neither does any node between the two. -/
def NeverRead (g : Graph ρ) (v : Vertex ρ) (s : State) : Prop :=
  v.task.writes s = true ∧
    exists before between w after, g.pending = before ++ v :: (between ++ w :: after) ∧
      w.task.writes s = true ∧ w.task.reads s = false ∧
      forall x, x ∈ between -> x.task.writes s = false ∧ x.task.reads s = false

structure Futile (g : Graph ρ) (v : Vertex ρ) : Prop where
  recorded : v.record ≠ none
  stores : exists s, v.task.writes s = true
  quiet : v.task.sideEffects = false
  dead : forall s, v.task.writes s = true -> g.NeverRead v s

section NeverRead

variable {g : Graph ρ} {v : Vertex ρ} {s : State}

theorem NeverRead.pending (h : g.NeverRead v s) : v ∈ g.pending := by
  rcases h with ⟨_, before, between, w, after, hsplit, _⟩
  rw [hsplit]
  simp

/-- No edge on the state leads past the node that overwrites it, and no node up to there reads. -/
theorem NeverRead.deadAt (h : g.NeverRead v s) (hg : g.Sound) (hf : g.Forward) (hd : g.Direct) :
    g.DeadAt v.key s := by
  have hv := h.pending
  rcases h with ⟨_, before, between, w, after, hsplit, hwrites, hunread, hquiet⟩
  have hw : w ∈ g.pending := by
    rw [hsplit]
    simp
  have hwpending : w.key ∈ g.pendingKeys := List.mem_map_of_mem hw
  have hwritesAt := (hg.pending_writesAt hw).mpr hwrites
  have hvw : ComesBefore g.keys v.key w.key := by
    apply keys_before_of_pending
    rw [hsplit, ComesBefore.append_iff, ComesBefore.cons_iff]
    exact Or.inr (Or.inr (Or.inl ⟨rfl, by simp⟩))
  constructor
  · intro howner
    have hfirst : g.ownerOrInitial s = v.key := by
      rw [ownerOrInitial, howner]
      rfl
    exact hd.owner w.key s (hfirst ▸ hvw) hwpending hwritesAt
  · intro u hleaves hread
    have henters := (hg.wired.mirrored _ _ s).mp hleaves
    rcases exists_pending (hg.wired.target_pending _ _ s henters) with ⟨x, hx, rfl⟩
    have hvx := hf _ _ s henters
    have hreads : x.task.reads s = true :=
      (readsAt_iff hg.keyed (mem_vertices_of_pending hx)).mp hread
    have hafter : x ∈ between ++ w :: after := by
      rw [hsplit, List.mem_append, List.mem_cons] at hx
      rcases hx with hbefore | rfl | hin
      · refine absurd hvx ((keys_before_of_pending ?_).asymm hg.keyed.nodup)
        rw [hsplit, ComesBefore.append_iff]
        exact Or.inr (Or.inl ⟨hbefore, List.mem_cons_self ..⟩)
      · exact absurd hvx (ComesBefore.irrefl hg.keyed.nodup)
      · exact hin
    rcases List.mem_append.mp hafter with hin | hin
    · rw [(hquiet x hin).right] at hreads
      cases hreads
    · rcases List.mem_cons.mp hin with rfl | hin
      · rw [hunread] at hreads
        cases hreads
      · refine hd.edge _ _ w.key s henters hvw (keys_before_of_pending ?_) hwpending hwritesAt
        rw [hsplit, ComesBefore.append_iff, ComesBefore.cons_iff, ComesBefore.append_iff,
          ComesBefore.cons_iff]
        exact Or.inr (Or.inr (Or.inr (Or.inr (Or.inr (Or.inl ⟨rfl, hin⟩)))))

/-- The stores that edges and owners show to be dead are those that are never read. -/
theorem Built.neverRead_iff {origin : State -> NodeKey} (hg : g.Built origin)
    (hv : v ∈ g.pending) : g.NeverRead v s ↔ v.task.writes s = true ∧ g.DeadAt v.key s := by
  constructor
  · intro h
    exact ⟨h.left, h.deadAt hg.sound hg.consistent.forward hg.direct⟩
  · rintro ⟨hwrites, hdead⟩
    rcases List.append_of_mem hv with ⟨before, rest, hsplit⟩
    rcases overwritten_iff.mp (hdead.overwritten hg hwrites hsplit)
      with ⟨between, w, after, rfl, hnext⟩
    exact ⟨hwrites, before, between, w, after, hsplit, hnext⟩

end NeverRead

/-!
## Verdicts
-/

section Verdicts

variable {bank : Bank ρ} {g : Graph ρ} {origin : State -> NodeKey} {v : Vertex ρ} {record : ρ}
  {dead : StateSet} (hg : g.Built origin) (hv : v ∈ g.pending)

include hg hv

theorem DeadStores.mem_iff (h : g.DeadStores v dead) (s : State) :
    s ∈ dead ↔ g.NeverRead v s := by
  rw [h s, hg.neverRead_iff hv]

theorem Judged.futile (h : g.Judged bank v .delete) : g.Futile v := by
  cases h with
  | delete quiet dead own stores =>
      exact ⟨own, stores, quiet, fun s hs => (hg.neverRead_iff hv).mpr ⟨hs, dead s hs⟩⟩

variable (hbank : bank.EliminatesStores) (hlaunch : v.launch = launchOf bank record)

include hbank hlaunch

theorem DeadStores.eliminated (h : g.DeadStores v dead) :
    exists stripped, bank.eliminateStores record dead = some stripped ∧
      forall s, (bank.describe stripped).task.writes s = true ↔
        v.task.writes s = true ∧ ¬g.NeverRead v s := by
  have htask : v.task = (bank.describe record).task := (Prod.mk.inj hlaunch).right
  have hwithin : forall s, s ∈ dead -> s ∈ (bank.describe record).task.outputs := by
    intro s hs
    rw [← htask]
    exact of_decide_eq_true ((h s).mp hs).left
  rcases hbank record dead hwithin with ⟨stripped, hstripped, houtputs⟩
  refine ⟨stripped, hstripped, fun s => ?_⟩
  rw [← h.mem_iff hg hv, Task.writes, Task.writes, decide_eq_true_iff, decide_eq_true_iff,
    houtputs, OrderedSet.mem_sdiff, htask]

theorem Judged.spared (h : g.Judged bank v .keep) :
    v.task.sideEffects = true ∨ forall s, ¬g.NeverRead v s := by
  cases h with
  | bare bare =>
      have hrecord : v.record = some record := (Prod.mk.inj hlaunch).left
      rw [hrecord] at bare
      cases bare
  | loud loud => exact Or.inl loud
  | live live =>
      refine Or.inr fun s hs => ?_
      exact live s hs.left ((hg.neverRead_iff hv).mp hs).right
  | @whole record' dead own dead_at whole =>
      refine Or.inr fun s hs => ?_
      cases own.symm.trans (Prod.mk.inj hlaunch).left
      rcases dead_at.eliminated hg hv hbank hlaunch with ⟨stripped, hstripped, hwrites⟩
      have hsame : (bank.describe stripped).task.outputs = v.task.outputs := by
        rw [stripped?, hstripped] at whole
        dsimp only [Option.bind_eq_bind, Option.bind_some] at whole
        by_contra hne
        rw [if_neg hne] at whole
        cases whole
      have hstill : (bank.describe stripped).task.writes s = true := by
        rw [Task.writes, hsame]
        exact hs.left
      exact ((hwrites s).mp hstill).right hs

theorem Judged.stripped {record' : ρ}
    (h : g.Judged bank v (.strip record' (bank.describe record'))) :
    v.task.sideEffects = false ∧ ¬g.Futile v ∧
      (bank.describe record').task.outputs ≠ v.task.outputs ∧
      (forall s, (bank.describe record').task.writes s = true ↔
        v.task.writes s = true ∧ ¬g.NeverRead v s) ∧
      (exists s, g.NeverRead v s) ∧
      exists dead, (forall s, s ∈ dead ↔ g.NeverRead v s) ∧
        bank.eliminateStores record dead = some record' := by
  cases h with
  | @strip own _ dead hown quiet eliminated dead_at differs partly =>
      cases hown.symm.trans (Prod.mk.inj hlaunch).left
      rcases dead_at.eliminated hg hv hbank hlaunch with ⟨stripped, hstripped, hwrites⟩
      cases eliminated.symm.trans hstripped
      refine ⟨quiet, ?_, differs, hwrites, ?_, dead, dead_at.mem_iff hg hv, eliminated⟩
      · intro hfutile
        refine partly (OrderedSet.eq_of_mem_iff fun s => ?_)
        rw [dead_at.mem_iff hg hv]
        exact ⟨fun hs => of_decide_eq_true hs.left,
          fun hs => hfutile.dead s (decide_eq_true hs)⟩
      · by_contra hnone
        refine differs (OrderedSet.eq_of_mem_iff fun s => ?_)
        have hs := hwrites s
        rw [and_iff_left (not_exists.mp hnone s), Task.writes, Task.writes, decide_eq_true_iff,
          decide_eq_true_iff] at hs
        exact hs

end Verdicts

/-!
## The whole pass
-/

structure Trimmed (bank : Bank ρ) (g : Graph ρ) (v w : Vertex ρ) : Prop where
  launchId : w.launchId = v.launchId
  spared : v.task.sideEffects = true ∨ (forall s, ¬g.NeverRead v s) ->
    w.record = v.record ∧ w.handle = v.handle
  outputs : v.task.sideEffects = false ->
    forall s, w.task.writes s = true ↔ v.task.writes s = true ∧ ¬g.NeverRead v s
  stripped : v.task.sideEffects = false -> (exists s, g.NeverRead v s) ->
    exists record dead stripped, v.record = some record ∧
      (forall s, s ∈ dead ↔ g.NeverRead v s) ∧
      bank.eliminateStores record dead = some stripped ∧
      w.record = some stripped ∧ w.task = (bank.describe stripped).task

/-- The graph `g'` is `g` without the stores that are never read.  The pairs are the pending nodes
that are left, each with what it has become. -/
structure Purged (bank : Bank ρ) (g g' : Graph ρ) (changed : Bool)
    (pairs : List (Vertex ρ × Vertex ρ)) : Prop where
  executed : g'.executed.map Vertex.core = g.executed.map Vertex.core
  ordered : (pairs.map (·.1)).Sublist g.pending
  left : forall v, v ∈ pairs.map (·.1) ↔ v ∈ g.pending ∧ ¬g.Futile v
  pending : pairs.map (·.2) = g'.pending
  trimmed : forall p, p ∈ pairs -> g.Trimmed bank p.1 p.2
  changed_iff : changed = true ↔ (exists v, v ∈ g.pending ∧ v ∉ pairs.map (·.1)) ∨
    exists p, p ∈ pairs ∧ p.2.task.outputs ≠ p.1.task.outputs

theorem not_futile {g : Graph ρ} {v : Vertex ρ}
    (h : v.task.sideEffects = true ∨ forall s, ¬g.NeverRead v s) : ¬g.Futile v := by
  intro hfutile
  rcases h with hloud | hlive
  · rw [hfutile.quiet] at hloud
    cases hloud
  · rcases hfutile.stores with ⟨s, hs⟩
    exact hlive s (hfutile.dead s hs)

theorem Trimmed.of_same {bank : Bank ρ} {g : Graph ρ} {v w : Vertex ρ}
    (h : v.task.sideEffects = true ∨ forall s, ¬g.NeverRead v s) (hid : w.launchId = v.launchId)
    (hrecord : w.record = v.record) (hhandle : w.handle = v.handle) : g.Trimmed bank v w := by
  have hlive : v.task.sideEffects = false -> forall s, ¬g.NeverRead v s := by
    intro hquiet
    refine h.resolve_left ?_
    rw [hquiet]
    exact Bool.false_ne_true
  refine ⟨hid, fun _ => ⟨hrecord, hhandle⟩, ?_, ?_⟩
  · intro hquiet s
    rw [and_iff_left (hlive hquiet s), Node.task, Node.task, hhandle]
  · rintro hquiet ⟨s, hs⟩
    exact absurd hs (hlive hquiet s)

section Pass

variable {bank : Bank ρ} {g g' : Graph ρ} {origin : State -> NodeKey} (hg : g.Built origin)
  (hbank : bank.EliminatesStores)
  (hlaunches : forall v, v ∈ g.pending -> exists record, v.launch = launchOf bank record)

include hg hbank hlaunches

theorem Purged.refl (hkeep : forall v, v ∈ g.pending -> g.Judged bank v .keep) :
    g.Purged bank g false (g.pending.map fun v => (v, v)) := by
  have hspared : forall v, v ∈ g.pending ->
      v.task.sideEffects = true ∨ forall s, ¬g.NeverRead v s := by
    intro v hv
    rcases hlaunches v hv with ⟨record, hlaunch⟩
    exact (hkeep v hv).spared hg hv hbank hlaunch
  have hfst : (g.pending.map fun v => (v, v)).map (·.1) = g.pending := by
    rw [List.map_map]
    exact List.map_id _
  have hpairs : forall p, p ∈ g.pending.map (fun v => (v, v)) -> p.1 ∈ g.pending ∧ p.2 = p.1 := by
    intro p hp
    rcases List.mem_map.mp hp with ⟨v, hv, rfl⟩
    exact ⟨hv, rfl⟩
  refine ⟨rfl, ?_, ?_, ?_, ?_, ?_⟩
  · rw [hfst]
  · intro v
    rw [hfst]
    exact ⟨fun hv => ⟨hv, not_futile (hspared v hv)⟩, And.left⟩
  · rw [List.map_map]
    exact List.map_id _
  · intro p hp
    rcases hpairs p hp with ⟨hv, heq⟩
    rw [heq]
    exact .of_same (hspared p.1 hv) rfl rfl rfl
  · refine iff_of_false Bool.false_ne_true ?_
    rintro (⟨v, hv, hnot⟩ | ⟨p, hp, hne⟩)
    · rw [hfst] at hnot
      exact hnot hv
    · rw [(hpairs p hp).right] at hne
      exact hne rfl

namespace Pruned

variable {g1 base : Graph ρ} {scan : StoreScan ρ} {doomed : List NodeKey}
  (h : Pruned bank g g' scan doomed g1 base)

include h

theorem doomed_iff {v : Vertex ρ} (hv : v ∈ g.pending) : v.key ∈ doomed ↔ g.Futile v := by
  rcases hlaunches v hv with ⟨record, hlaunch⟩
  cases h.walked.fate hg.sound.keyed h.doomed_at hv with
  | keep stays _ judged =>
      exact iff_of_false stays (not_futile (judged.spared hg hv hbank hlaunch))
  | delete goes judged => exact iff_of_true goes (judged.futile hg hv)
  | strip stays judged _ =>
      exact iff_of_false stays (judged.stripped hg hv hbank hlaunch).right.left

theorem trimmed {v w : Vertex ρ} (hv : v ∈ g.pending) (hstays : v.key ∉ doomed)
    (hid : w.launchId = v.launchId) (hrecord : w.record = (scan.graph.vertexOf v.key).record)
    (hhandle : w.handle = (scan.graph.vertexOf v.key).handle) : g.Trimmed bank v w := by
  rcases hlaunches v hv with ⟨record, hlaunch⟩
  cases h.walked.fate hg.sound.keyed h.doomed_at hv with
  | keep _ now judged =>
      rw [vertexOf_of_find? now] at hrecord hhandle
      exact .of_same (judged.spared hg hv hbank hlaunch) hid hrecord hhandle
  | delete goes _ => exact absurd goes hstays
  | @strip stripped _ judged now =>
      rcases judged.stripped hg hv hbank hlaunch
        with ⟨hquiet, _, _, hwrites, ⟨s, hs⟩, dead, hdead, heliminated⟩
      rcases Prod.mk.inj now with ⟨hnow, htasknow⟩
      have htask : w.task = (bank.describe stripped).task := by
        rw [Node.task, hhandle]
        exact htasknow
      refine ⟨hid, ?_, ?_, ?_⟩
      · rintro (hloud | hlive)
        · rw [hquiet] at hloud
          cases hloud
        · exact absurd hs (hlive s)
      · intro _ t
        rw [htask]
        exact hwrites t
      · intro _ _
        exact ⟨record, dead, stripped, (Prod.mk.inj hlaunch).left, hdead, heliminated,
          hrecord.trans hnow, htask⟩

theorem exists_difference {pairs : List (Vertex ρ × Vertex ρ)}
    (hleft : forall v, v ∈ pairs.map (·.1) ↔ v ∈ g.pending ∧ v.key ∉ doomed)
    (hhandle : forall p, p ∈ pairs -> p.2.handle = (scan.graph.vertexOf p.1.key).handle) :
    (exists v, v ∈ g.pending ∧ v ∉ pairs.map (·.1)) ∨
      exists p, p ∈ pairs ∧ p.2.task.outputs ≠ p.1.task.outputs := by
  rcases h.changed with ⟨v, hv, hchanged⟩
  rcases hlaunches v hv with ⟨record, hlaunch⟩
  cases h.walked.fate hg.sound.keyed h.doomed_at hv with
  | keep stays now _ => exact absurd now (hchanged.resolve_left stays)
  | delete goes _ => exact Or.inl ⟨v, hv, fun hin => ((hleft v).mp hin).right goes⟩
  | @strip stripped stays judged now =>
      rcases List.mem_map.mp ((hleft v).mpr ⟨hv, stays⟩) with ⟨p, hp, rfl⟩
      refine Or.inr ⟨p, hp, ?_⟩
      have htask : p.2.task = (bank.describe stripped).task := by
        rw [Node.task, hhandle p hp]
        exact (Prod.mk.inj now).right
      rw [htask]
      exact (judged.stripped hg hv hbank hlaunch).right.right.left

theorem purged : exists pairs, g.Purged bank g' true pairs := by
  rcases h.paired hg.sound.keyed with ⟨pairs, hbefore, hafter, hpairs⟩
  have hleft : forall v, v ∈ pairs.map (·.1) ↔ v ∈ g.pending ∧ v.key ∉ doomed := by
    intro v
    rw [hbefore, List.mem_filter, decide_eq_true_iff]
  refine ⟨pairs, h.executed, ?_, ?_, hafter, ?_, ?_⟩
  · rw [hbefore]
    exact List.filter_sublist
  · intro v
    rw [hleft]
    exact and_congr_right fun hv => not_congr (h.doomed_iff hg hbank hlaunches hv)
  · intro p hp
    rcases (hleft p.1).mp (List.mem_map_of_mem hp) with ⟨hv, hstays⟩
    rcases hpairs p hp with ⟨hid, hrecord, hhandle⟩
    exact h.trimmed hg hbank hlaunches hv hstays hid hrecord hhandle
  · exact iff_of_true rfl
      (h.exists_difference hg hbank hlaunches hleft fun p hp => (hpairs p hp).right.right)

end Pruned

theorem eliminateDeadStores_purged :
    exists g' changed pairs, g.eliminateDeadStores bank = .ok (g', changed) ∧
      g.Purged bank g' changed pairs := by
  rcases eliminateDeadStores_cases bank hg.sound hg.consistent.forward
    with ⟨g', changed, hrun, ⟨rfl, rfl, hkeep⟩ | ⟨rfl, scan, doomed, g1, base, h⟩⟩
  · exact ⟨g', false, _, hrun, .refl hg hbank hlaunches hkeep⟩
  · rcases h.purged hg hbank hlaunches with ⟨pairs, hpurged⟩
    exact ⟨g', true, pairs, hrun, hpurged⟩

end Pass

end Graph

/-!
## All sessions
-/

namespace Session

def launches (s : Session ρ) : List (Option ρ × Task) :=
  s.graph.pending.map (·.launch) ++ s.held.map (·.launch)

section Launches

variable {bank : Bank ρ} {s s' : Session ρ} {a : Action ρ}

theorem launches_of_settled (h : s.graph.Settled) : s.launches = s.held.map (·.launch) := by
  rw [launches, h.pending_nil, List.map_nil, List.nil_append]

theorem perform_launches (hs : s.graph.Consistent) (ha : s.Allowed a)
    (performed : s.perform bank a = .ok s') : forall p, p ∈ s'.launches ->
      p ∈ s.launches ∨ exists record, p = Graph.launchOf bank record := by
  have held : forall {p}, p ∈ s.held.map (·.launch) -> p ∈ s.launches :=
    fun hp => List.mem_append_right _ hp
  have pending : forall {p}, p ∈ s.graph.pending.map (·.launch) -> p ∈ s.launches :=
    fun hp => List.mem_append_left _ hp
  have hsort := Graph.sortPending_eq hs.sound hs.forward hs.aged
  intro p hp
  cases a with
  | insertTasks filter records =>
      rcases Graph.insertTasks_ok bank hs.sound filter records with ⟨g', kept, hrun, hgrown, _⟩
      rw [perform, hrun] at performed
      cases performed
      rcases List.mem_append.mp hp with hp | hp
      · rw [hgrown.launches] at hp
        rcases List.mem_append.mp hp with hp | hp
        · exact Or.inl (pending hp)
        · rcases List.mem_map.mp hp with ⟨record, _, rfl⟩
          exact Or.inr ⟨record, rfl⟩
      · exact Or.inl (held hp)
  | newNode record =>
      rcases perform_newNode_eq bank s record with ⟨launches, serial, n, hrun, hlaunch⟩
      rw [hrun] at performed
      cases performed
      rw [Session.launches, List.map_append, ← List.append_assoc] at hp
      rcases List.mem_append.mp hp with hp | hp
      · exact Or.inl hp
      · exact Or.inr ⟨record, (List.mem_singleton.mp hp).trans hlaunch⟩
  | insertNode n =>
      rcases Graph.insertNode_ok hs.sound n with ⟨g', hrun, hinserted⟩
      rw [perform, hrun] at performed
      cases performed
      rcases List.mem_append.mp hp with hp | hp
      · rw [hinserted.extended.launches] at hp
        rcases List.mem_append.mp hp with hp | hp
        · exact Or.inl (pending hp)
        · rw [List.map_singleton, List.mem_singleton] at hp
          rw [hp]
          exact Or.inl (held (List.mem_map_of_mem ha))
      · exact Or.inl (held hp)
  | runPass pass =>
      rcases Graph.run_ok bank hs pass with ⟨g', changed, hrun, _, hrenews⟩
      rw [perform_runPass_eq hrun] at performed
      cases performed
      rcases List.mem_append.mp hp with hp | hp
      · rcases List.mem_map.mp hp with ⟨v, hv, rfl⟩
        rcases hrenews v hv with ⟨w, hw, heq⟩ | ⟨record, hrecord, htask⟩
        · exact Or.inl (pending (List.mem_map.mpr ⟨w, hw, heq⟩))
        · exact Or.inr ⟨record, Prod.ext hrecord htask⟩
      · exact Or.inl (held hp)
  | setWindow size =>
      cases performed
      exact Or.inl hp
  | rebuild sort =>
      rcases Graph.rebuild_ok hs sort with ⟨g', base, hrun, _, _, _, hlaunches⟩
      rw [perform, hrun] at performed
      cases performed
      rw [launches, hlaunches] at hp
      exact Or.inl hp
  | sortPending =>
      rw [perform, hsort] at performed
      cases performed
      exact Or.inl hp
  | deleteNodes positions =>
      rcases Graph.deleteNodes_ok hs.sound hs.forward ha
        with ⟨doomed, g', hrun, _, hdeleted⟩
      rw [perform, hrun] at performed
      cases performed
      rcases List.mem_append.mp hp with hp | hp
      · rw [hdeleted.map_pending fun _ => rfl] at hp
        exact Or.inl (pending ((List.filter_sublist.map _).subset hp))
      · exact Or.inl (held hp)
  | extractPending =>
      rcases Graph.extractPending_ok hs.sound hs.forward with ⟨base, hrun, hextracted⟩
      rw [perform, hrun] at performed
      cases performed
      rw [launches_of_settled hextracted.settled, List.map_append, List.map_map] at hp
      rcases List.mem_append.mp hp with hp | hp
      · exact Or.inl (held hp)
      · exact Or.inl (pending hp)
  | markExecuted =>
      cases performed
      rw [launches_of_settled hs.markExecuted] at hp
      exact Or.inl (held hp)
  | extractToExecute =>
      rcases hs.extractToExecute with ⟨g', hrun, hsettled, _, _⟩
      rw [perform, hsort, ok_bind, hrun] at performed
      cases performed
      rw [launches_of_settled hsettled] at hp
      exact Or.inl (held hp)
  | clear =>
      cases performed
      rw [launches_of_settled (Graph.clear_settled hs.sound)] at hp
      exact Or.inl (held hp)

theorem Reachable.launches (h : Reachable bank Allowed s) :
    forall p, p ∈ s.launches -> exists record, p = Graph.launchOf bank record := by
  induction h with
  | start =>
      intro p hp
      cases hp
  | step before allowed performed ih =>
      intro p hp
      rcases perform_launches (before.consistent fun _ _ h => h.deletable) allowed performed p hp
        with hold | hnew
      · exact ih p hold
      · exact hnew

end Launches

/-- Dead store elimination goes through and eliminates exactly the stores that are never read.
It tells whether it deleted or stripped anything. -/
theorem deadStores_exact {bank : Bank ρ} (hbank : bank.EliminatesStores) {s : Session ρ}
    (h : Reachable bank (fun s a => s.Allowed a ∧ Action.Builds a) s) :
    exists g' changed pairs, s.graph.eliminateDeadStores bank = .ok (g', changed) ∧
      s.perform bank (.runPass .deadStores) = .ok { s with graph := g' } ∧
      s.graph.Purged bank g' changed pairs := by
  rcases h.built with ⟨origin, hbuilt⟩
  have hlaunches : forall v, v ∈ s.graph.pending ->
      exists record, v.launch = Graph.launchOf bank record := by
    intro v hv
    exact (h.mono fun _ _ may => may.left).launches _
      (List.mem_append_left _ (List.mem_map_of_mem hv))
  rcases Graph.eliminateDeadStores_purged hbuilt hbank hlaunches
    with ⟨g', changed, pairs, hrun, hpurged⟩
  have hpass : Pass.deadStores.run bank s.graph = .ok (g', changed) := hrun
  exact ⟨g', changed, pairs, hrun, perform_runPass_eq hpass, hpurged⟩

end Session

namespace Sample

def wipe : Program Task := .launch
  { name := "wipe", taskType := .serial, outputs := .ofList [cell 0] }

def wiped : Session (Program Task) :=
  match Session.new.perform bank (.insertTasks false [wipe, spread, fill]) with
  | .ok s => s
  | .error _ => .new

end Sample

namespace Session

/-- The first node is deleted, and the second one is left with its other field. -/
theorem deadStores_exact_wiped :
    exists g' pairs, Sample.wiped.graph.eliminateDeadStores Sample.bank = .ok (g', true) ∧
      Sample.wiped.graph.Purged Sample.bank g' true pairs ∧ pairs.length = 2 ∧
      g'.pending.map (·.task.outputs)
        = [.ofList [Sample.cell 2], .ofList [Sample.cell 0]] := by
  have hbank : Sample.bank.EliminatesStores := fun record dead _ =>
    ⟨.discard record dead, rfl, rfl⟩
  have hwiped : Reachable Sample.bank (fun s a => s.Allowed a ∧ Action.Builds a) Sample.wiped :=
    .step (a := .insertTasks false [Sample.wipe, Sample.spread, Sample.fill]) .start
      ⟨trivial, trivial⟩ rfl
  have hresult : (Sample.wiped.graph.eliminateDeadStores Sample.bank).map
        (fun r => (r.2, r.1.pending.map (·.task.outputs)))
      = .ok (true, [.ofList [Sample.cell 2], .ofList [Sample.cell 0]]) := rfl
  rcases deadStores_exact hbank hwiped with ⟨g', changed, pairs, hrun, _, hpurged⟩
  rw [hrun] at hresult
  rcases Prod.mk.inj (Except.ok.inj hresult) with ⟨rfl, houtputs⟩
  have hlength := congrArg List.length hpurged.pending
  have hcount := congrArg List.length houtputs
  rw [List.length_map] at hlength hcount
  exact ⟨g', pairs, hrun, hpurged, hlength.trans hcount, houtputs⟩

end Session

end LaunchGraph
