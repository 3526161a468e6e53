import LaunchGraph.Proofs.Session
import LaunchGraph.Proofs.Graph.Direct
import LaunchGraph.Proofs.Pass.Preserve

/-!
# Where surviving nodes read from

A pending node that survives dead store elimination reads what pending nodes before it write
from the same ones as before.  What it reads from outside depends on the way back along
writers, which the rebuild goes after stores were stripped.  The way ends too early at a node
that no longer writes the state, and then the state is taken to come from the initial node.
-/

namespace LaunchGraph

variable {ρ : Type}

/-- A bank that strips a record takes the given states out of its outputs, and changes nothing
else about its task. -/
def Bank.StripsOutputs (bank : Bank ρ) : Prop :=
  forall record dead stripped, bank.eliminateStores record dead = some stripped ->
    (bank.describe stripped).task = { (bank.describe record).task with
      outputs := (bank.describe record).task.outputs \ dead }

namespace Graph

/-!
## Writers between two nodes
-/

section Between

variable {g : Graph ρ} {origin : State -> NodeKey} {s : State}

theorem Built.via_source (hg : g.Built origin) {doomed : List NodeKey} {u v : NodeKey}
    (h : g.Via doomed s u v) : u = origin s ∨ u ∈ g.pendingKeys := by
  induction h with
  | edge enters =>
      rcases (hg.enters_iff _ _ s).mp enters with ⟨before, e, after, hsplit, _, hwaits⟩
      refine (WaitsFor.source hwaits).imp id fun hu => ?_
      rw [← map_key_entries, hsplit, List.map_append]
      exact List.mem_append_left _ hu
  | step _ _ _ ih => exact ih

theorem Built.comesBefore_owner (hg : g.Built origin) {v : Vertex ρ} (hv : v ∈ g.pending)
    (hwrites : v.task.writes s = true) (hne : g.ownerOrInitial s ≠ v.key) :
    ComesBefore g.pendingKeys v.key (g.ownerOrInitial s) := by
  have hentry : v.entry ∈ g.entries := List.mem_map_of_mem hv
  rcases hg.owner_nearest s with ⟨a, e, b, hsplit, hkey, _, hafter⟩ | ⟨hnone, _⟩
  · have hbefore : ComesBefore g.entries v.entry e := by
      rw [hsplit, List.mem_append, List.mem_cons] at hentry
      rw [hsplit, ComesBefore.append_iff]
      rcases hentry with hin | heq | hin
      · exact Or.inr (Or.inl ⟨hin, List.mem_cons_self ..⟩)
      · rw [← heq] at hkey
        exact absurd hkey.symm hne
      · have hfalse := hafter _ hin
        rw [show v.entry.writes s = true from hwrites] at hfalse
        cases hfalse
    have hkeys := hbefore.map (fun e : Entry => e.key)
    rw [map_key_entries, hkey] at hkeys
    exact hkeys
  · have hfalse := hnone _ hentry
    rw [show v.entry.writes s = true from hwrites] at hfalse
    cases hfalse

end Between

/-!
## What is left of a node
-/

structure Strips (g : Graph ρ) (v : Vertex ρ) (t : Task) : Prop where
  same : t = { v.task with outputs := t.outputs }
  fewer : forall s, t.writes s = true -> v.task.writes s = true
  dead : forall s, v.task.writes s = true -> t.writes s = false -> g.DeadAt v.key s

theorem Strips.refl (g : Graph ρ) (v : Vertex ρ) : g.Strips v v.task := by
  refine ⟨rfl, fun _ h => h, ?_⟩
  intro s htrue hfalse
  rw [htrue] at hfalse
  cases hfalse

theorem Fate.strips {bank : Bank ρ} {g : Graph ρ} {scan : StoreScan ρ} {doomed : List NodeKey}
    {v : Vertex ρ} (h : Fate bank g scan doomed v) (hbank : bank.StripsOutputs)
    (hv : v.DescribedBy bank) (hstays : v.key ∉ doomed) :
    g.Strips v (scan.graph.vertexOf v.key).task := by
  cases h with
  | keep _ now =>
      rw [vertexOf_of_find? now]
      exact Strips.refl g v
  | delete goes _ => exact absurd goes hstays
  | @strip record _ judged now =>
      have htask : (scan.graph.vertexOf v.key).task = (bank.describe record).task :=
        congrArg Prod.snd now
      cases judged with
      | @strip own _ dead hown _ eliminated dead_at _ =>
          have hstripped := hbank own dead record eliminated
          rw [← hv own hown] at hstripped
          have hwrites : forall s, (bank.describe record).task.writes s = true ↔
              v.task.writes s = true ∧ s ∉ dead := by
            intro s
            rw [hstripped, Task.writes, Task.writes, decide_eq_true_iff, decide_eq_true_iff]
            exact OrderedSet.mem_sdiff
          rw [htask]
          refine ⟨?_, fun s hs => ((hwrites s).mp hs).left, ?_⟩
          · rw [hstripped]
          · intro s htrue hfalse
            by_cases hdead : s ∈ dead
            · exact ((dead_at s).mp hdead).right
            · rw [(hwrites s).mpr ⟨htrue, hdead⟩] at hfalse
              cases hfalse

/-!
## Where states come from after the pass
-/

namespace Pruned

variable {bank : Bank ρ} {g g' g1 base : Graph ρ} {scan : StoreScan ρ} {doomed : List NodeKey}
  {origin : State -> NodeKey} {s : State} (h : Pruned bank g g' scan doomed g1 base)
  (hg : g.Built origin)

include h

theorem mem_pendingKeys {k : NodeKey} : k ∈ g1.pendingKeys ↔ k ∈ g.pendingKeys ∧ k ∉ doomed := by
  rw [h.deleted.mem_pendingKeys, h.walked.relaunched.pendingKeys]

theorem doomed_pending {k : NodeKey} (hk : k ∈ doomed) : k ∈ g.pendingKeys := by
  rw [← h.walked.relaunched.pendingKeys]
  exact h.doomed_at.pending hk

theorem enters_iff (u v : NodeKey) :
    g1.Enters u v s ↔ u ∉ doomed ∧ v ∉ doomed ∧ g.Via doomed s u v := by
  have hiff := fun u v => h.walked.relaunched.enters_iff u v s
  rw [h.deleted.enters_iff]
  constructor
  · intro he
    exact ⟨he.left, he.right.left, he.right.right.of_enters fun u v => (hiff u v).mp⟩
  · intro he
    exact ⟨he.left, he.right.left, he.right.right.of_enters fun u v => (hiff u v).mpr⟩

theorem initial_key : g1.initial.key = g.initial.key := by
  have hinitial : scan.graph.initial = g.initial :=
    (List.cons.inj h.walked.relaunched.executed).left
  rw [h.deleted.initial_key, hinitial]

include hg

theorem writesAt_executed {k : NodeKey} (hk : k ∉ g.pendingKeys) (hw : g.WritesAt k s) :
    g1.WritesAt k s := by
  rcases hw with ⟨v, hv, hs⟩
  refine h.deleted.writesAt (fun hin => hk (h.doomed_pending hin)) ⟨v, ?_, hs⟩
  exact h.walked.relaunched.find?_executed hg.sound.keyed hv hk

theorem writesAt_iff {v : Vertex ρ} (hv : v ∈ g.pending) (hstays : v.key ∉ doomed) :
    g1.WritesAt v.key s ↔ (scan.graph.vertexOf v.key).task.writes s = true := by
  have hsound := h.walked.relaunched.sound hg.sound
  have hkey : v.key ∈ scan.graph.keys := by
    rw [h.walked.relaunched.keys]
    exact key_mem_keys (mem_vertices_of_pending hv)
  have hpending : scan.graph.vertexOf v.key ∈ scan.graph.pending := by
    refine hsound.keyed.vertexOf_pending ?_
    rw [h.walked.relaunched.pendingKeys]
    exact List.mem_map_of_mem hv
  rw [← hsound.numbered.pending_writes hpending, vertexOf_writes hkey]
  constructor
  · intro hw
    exact hw.of_core (h.deleted.find? v.key hstays).symm
  · intro hw
    exact hw.of_core (h.deleted.find? v.key hstays)

theorem owner_stays {k : NodeKey} (hk : g.owners.get? s = some k) : k ∉ doomed := by
  intro hin
  rcases exists_pending (h.doomed_pending hin) with ⟨v, hv, rfl⟩
  have hwrites : v.task.writes s = true :=
    (hg.sound.pending_writesAt hv).mp (hg.consistent.owner_writes s v.key hk)
  cases h.walked.fate hg.sound.keyed h.doomed_at hv with
  | keep stays _ => exact stays hin
  | delete _ judged =>
      cases judged with
      | delete _ dead => exact (dead s hwrites).left hk
  | strip stays _ _ => exact stays hin

theorem owners_eq : g1.owners.get? s = g.owners.get? s := by
  have howners := h.walked.relaunched.owners
  cases ho : g.owners.get? s with
  | none =>
      rw [← howners] at ho
      exact h.deleted.owners.none s ho
  | some k =>
      have hstays := h.owner_stays hg ho
      rw [← howners] at ho
      exact h.deleted.owners.kept s k ho hstays

/-- The rebuild finds out where a state comes from by going back from its owner. -/
theorem origin_cases :
    (g.ownerOrInitial s ∉ g.pendingKeys ∧ base.ownerOrInitial s = origin s) ∨
      (g.ownerOrInitial s ∈ g1.pendingKeys ∧
        WriterChain g1 s g1.pendingKeys (g.ownerOrInitial s) (base.ownerOrInitial s)) := by
  have hinitial := initial_key_of_bareExecuted h.extracted.bareExecuted
  have howners := h.owners_eq hg (s := s)
  cases ho : g.owners.get? s with
  | none =>
      have howner : g.ownerOrInitial s = g.initial.key := by
        rw [ownerOrInitial, ho]
        rfl
      have hnot : g.ownerOrInitial s ∉ g.pendingKeys := by
        rw [howner]
        exact hg.sound.keyed.initial_not_pending
      refine Or.inl ⟨hnot, ?_⟩
      rw [ho] at howners
      rw [← hg.rooted.owner s hnot, howner, ownerOrInitial, h.extracted.owners.none s howners,
        hinitial, h.initial_key]
      rfl
  | some k =>
      have howner : g.ownerOrInitial s = k := by
        rw [ownerOrInitial, ho]
        rfl
      rw [ho] at howners
      rw [howner]
      by_cases hk : k ∈ g.pendingKeys
      · have hk1 := h.mem_pendingKeys.mpr ⟨hk, h.owner_stays hg ho⟩
        rcases h.extracted.owners.fallen s k howners hk1 with ⟨w, hw, hchain⟩
        rw [ownerOrInitial, hw]
        exact Or.inr ⟨hk1, hchain⟩
      · have hk1 : k ∉ g1.pendingKeys := fun hin => hk (h.mem_pendingKeys.mp hin).left
        refine Or.inl ⟨hk, ?_⟩
        rw [← howner] at hk
        rw [← hg.rooted.owner s hk, howner, ownerOrInitial,
          h.extracted.owners.kept s k howners hk1]
        rfl

/-- The way back from a node stops short at the initial node if it has to pass a node that does
not write the state any more. -/
theorem chain_lost {k w z : NodeKey} (hchain : WriterChain g1 s g1.pendingKeys k w)
    (hz : z ∈ g1.pendingKeys) (hwrote : g.WritesAt z s) (hlost : ¬g1.WritesAt z s)
    (hzk : ComesBefore g.keys z k) : w = g1.initial.key := by
  rcases h.mem_pendingKeys.mp hz with ⟨hzpending, hzstays⟩
  induction hchain with
  | root _ => rfl
  | @stop k w source out =>
      rcases (h.enters_iff w k).mp source.enters with ⟨hstays, _, hvia⟩
      have hnot : w ∉ g.pendingKeys := fun hin => out (h.mem_pendingKeys.mpr ⟨hin, hstays⟩)
      have hexecuted : w ∈ g.executed.map (·.key) := by
        rw [(hg.via_source hvia).resolve_right hnot]
        exact hg.origin_executed s
      exact absurd hwrote
        (hg.direct.via hg.sound hvia (comesBefore_of_executed hexecuted hzpending) hzk hzpending
          hzstays)
  | @pass k x w source skipped _ ih =>
      rcases (h.enters_iff x k).mp source.enters with ⟨_, _, hvia⟩
      have hne : z ≠ x := by
        intro heq
        rw [heq] at hlost
        exact hlost source.writes
      have hx : x ∈ g.keys := pendingKeys_subset (h.mem_pendingKeys.mp skipped).left
      cases ComesBefore.total (pendingKeys_subset hzpending) hx hne with
      | inl hzx => exact ih hzx
      | inr hxz => exact absurd hwrote (hg.direct.via hg.sound hvia hxz hzk hzpending hzstays)

theorem chain_kept {k w : NodeKey} (hchain : WriterChain g1 s g1.pendingKeys k w)
    (hkept : forall z, z ∈ g1.pendingKeys -> (g1.WritesAt z s ↔ g.WritesAt z s))
    (hk : k ∈ g1.pendingKeys) (htouch : g.ReadsAt k s ∨ g.WritesAt k s) : w = origin s := by
  induction hchain with
  | @root k none =>
      -- There is a way from a writer that is left, so the way back cannot end here.
      rcases h.mem_pendingKeys.mp hk with ⟨hpending, hstays⟩
      have hconsistent := hg.consistent
      rcases priorWriter_ok hg.sound hg.forward (pendingKeys_subset hpending) s doomed
        with ⟨x, _, hx⟩
      have hinitial : g.initial.key ∉ doomed :=
        fun hin => hg.sound.keyed.initial_not_pending (h.doomed_pending hin)
      have hxstays := hx.not_mem_skip hinitial
      have hvia := hx.via hconsistent.sourced (fun _ hin => h.doomed_pending hin) hpending htouch
      have hwrites := hx.writes hg.sound
      refine absurd ?_ (none x ((h.enters_iff x k).mpr ⟨hxstays, hstays, hvia⟩))
      by_cases hxpending : x ∈ g.pendingKeys
      · exact (hkept x (h.mem_pendingKeys.mpr ⟨hxpending, hxstays⟩)).mpr hwrites
      · exact h.writesAt_executed hg hxpending hwrites
  | @stop k w source out =>
      rcases (h.enters_iff w k).mp source.enters with ⟨hstays, _, hvia⟩
      exact (hg.via_source hvia).resolve_right
        fun hin => out (h.mem_pendingKeys.mpr ⟨hin, hstays⟩)
  | @pass k x w source skipped _ ih =>
      exact ih skipped (Or.inr ((hkept x skipped).mp source.writes))

/-- A state is taken to come from the initial node if one of its writers that are left was
stripped of it. -/
theorem origin_lost {v : Vertex ρ} (hv : v ∈ g.pending) (hstays : v.key ∉ doomed)
    (hwrote : v.task.writes s = true)
    (hlost : (scan.graph.vertexOf v.key).task.writes s = false) (hdead : g.DeadAt v.key s) :
    base.ownerOrInitial s = g.initial.key := by
  have hbefore := hg.comesBefore_owner hv hwrote (hdead.not_owner hg.sound hv)
  rcases h.origin_cases hg (s := s) with ⟨hnot, _⟩ | ⟨_, hchain⟩
  · exact absurd hbefore.right_mem hnot
  · rw [← h.initial_key]
    refine h.chain_lost hg hchain (h.mem_pendingKeys.mpr ⟨hbefore.left_mem, hstays⟩) ?_ ?_
      (hbefore.of_sublist g.pendingKeys_sublist)
    · exact (hg.sound.pending_writesAt hv).mpr hwrote
    · rw [h.writesAt_iff hg hv hstays, hlost]
      exact Bool.false_ne_true

theorem origin_kept (hkept : forall v, v ∈ g.pending -> v.key ∉ doomed ->
      (scan.graph.vertexOf v.key).task.writes s = v.task.writes s) :
    base.ownerOrInitial s = origin s := by
  rcases h.origin_cases hg (s := s) with ⟨_, heq⟩ | ⟨howner, hchain⟩
  · exact heq
  · refine h.chain_kept hg hchain ?_ howner
      (Or.inr (hg.nearest_writesAt (fun _ he => he) (hg.owner_nearest s)))
    intro z hz
    rcases h.mem_pendingKeys.mp hz with ⟨hpending, hstays⟩
    rcases exists_pending hpending with ⟨v, hv, rfl⟩
    rw [h.writesAt_iff hg hv hstays, hkept v hv hstays, hg.sound.pending_writesAt hv]

end Pruned

/-!
## The nodes that are left
-/

/-- Pending nodes before the pass, and those of them that are left, each with what it has become.
A node that is left keeps its launch id, and loses no more than dead stores.  Any other node had
no side effects, and all its stores were dead. -/
inductive Thinned (g : Graph ρ) : List (Vertex ρ) -> List (Vertex ρ × Vertex ρ) -> Prop where
  | nil : Thinned g [] []
  | stay {l : List (Vertex ρ)} {pairs : List (Vertex ρ × Vertex ρ)} {v v' : Vertex ρ}
      (thinned : Thinned g l pairs) (launchId : v'.launchId = v.launchId)
      (strips : g.Strips v v'.task) : Thinned g (l ++ [v]) (pairs ++ [(v, v')])
  | go {l : List (Vertex ρ)} {pairs : List (Vertex ρ × Vertex ρ)} {v : Vertex ρ}
      (thinned : Thinned g l pairs) (quiet : v.task.sideEffects = false)
      (dead : forall s, v.task.writes s = true -> g.DeadAt v.key s) : Thinned g (l ++ [v]) pairs

theorem Thinned.of_filter {g : Graph ρ} {stays : Vertex ρ -> Bool} {l : List (Vertex ρ)}
    {pairs : List (Vertex ρ × Vertex ρ)} (hpairs : pairs.map (·.1) = l.filter stays)
    (hstay : forall p, p ∈ pairs -> p.2.launchId = p.1.launchId ∧ g.Strips p.1 p.2.task)
    (hgo : forall v, v ∈ l -> stays v = false -> v.task.sideEffects = false ∧
      forall s, v.task.writes s = true -> g.DeadAt v.key s) : Thinned g l pairs := by
  induction l using List.reverseRecOn generalizing pairs with
  | nil =>
      rw [List.map_eq_nil_iff.mp hpairs]
      exact .nil
  | append_singleton l v ih =>
      rw [List.filter_append] at hpairs
      have hgo' := fun w hw => hgo w (List.mem_append_left _ hw)
      cases hv : stays v with
      | true =>
          rw [List.filter_cons_of_pos hv, List.filter_nil] at hpairs
          rcases List.map_eq_append_iff.mp hpairs with ⟨before, last, rfl, hbefore, hlast⟩
          rcases List.map_eq_singleton_iff.mp hlast with ⟨⟨w, v'⟩, rfl, rfl⟩
          rcases hstay (w, v') (by simp) with ⟨hlaunchId, hstrips⟩
          exact .stay (ih hbefore (fun p hp => hstay p (List.mem_append_left _ hp)) hgo')
            hlaunchId hstrips
      | false =>
          rw [List.filter_cons_of_neg (by simp [hv]), List.filter_nil, List.append_nil] at hpairs
          rcases hgo v (by simp) hv with ⟨hquiet, hdead⟩
          exact .go (ih hpairs hstay hgo') hquiet hdead

def Stripped (pairs : List (Vertex ρ × Vertex ρ)) (s : State) : Prop :=
  exists p, p ∈ pairs ∧ p.1.task.writes s = true ∧ p.2.task.writes s = false

/-- The pass makes `g'` of `g`, and `pairs` are the nodes that are left.  States come from where
they came from, or from the initial node if a writer was stripped. -/
structure Survives (g g' : Graph ρ) (origin origin' : State -> NodeKey)
    (pairs : List (Vertex ρ × Vertex ρ)) : Prop where
  thinned : Thinned g g.pending pairs
  pending : pairs.map (·.2) = g'.pending
  executed : g'.executed.map Vertex.core = g.executed.map Vertex.core
  built : g'.Built origin'
  lost : forall s, Stripped pairs s -> origin' s = g.initial.key
  kept : forall s, ¬Stripped pairs s -> origin' s = origin s

theorem Survives.refl {g : Graph ρ} {origin : State -> NodeKey} (hg : g.Built origin) :
    g.Survives g origin origin (g.pending.map fun v => (v, v)) := by
  have hpairs : forall p, p ∈ g.pending.map (fun v => (v, v)) -> p.2 = p.1 := by
    intro p hp
    rcases List.mem_map.mp hp with ⟨v, _, rfl⟩
    rfl
  have hall : (g.pending.map fun v => (v, v)).map (·.1) = g.pending.filter fun _ => true := by
    rw [List.map_map, List.filter_true]
    exact List.map_id _
  have hwhole : Thinned g g.pending (g.pending.map fun v => (v, v)) := by
    refine Thinned.of_filter hall ?_ ?_
    · intro p hp
      rw [hpairs p hp]
      exact ⟨rfl, Strips.refl g p.1⟩
    · intro v _ hfalse
      cases hfalse
  refine ⟨hwhole, ?_, rfl, hg, ?_, fun _ _ => rfl⟩
  · rw [List.map_map]
    exact List.map_id _
  · intro s hstripped
    rcases hstripped with ⟨p, hp, htrue, hfalse⟩
    rw [hpairs p hp, htrue] at hfalse
    cases hfalse

namespace Pruned

variable {bank : Bank ρ} {g g' g1 base : Graph ρ} {scan : StoreScan ρ} {doomed : List NodeKey}
  {origin : State -> NodeKey} (h : Pruned bank g g' scan doomed g1 base)

include h

theorem launchId_vertexOf (hg : g.Keyed) {v : Vertex ρ} (hv : v ∈ g.pending) :
    (scan.graph.vertexOf v.key).launchId = v.launchId := by
  have hfind := h.walked.relaunched.find? v.key
  rw [hg.find?_pending hv, Option.map_some] at hfind
  rcases Option.map_eq_some_iff.mp hfind with ⟨w, hw, heq⟩
  have hlaunchId := congrArg (fun v : Vertex ρ => v.launchId) heq
  rw [vertexOf_of_find? hw]
  exact hlaunchId

theorem executed : g'.executed.map Vertex.core = g.executed.map Vertex.core := by
  rw [map_core_congr h.bareExecuted, h.deleted.executed, h.walked.relaunched.executed]

theorem paired (hg : g.Keyed) :
    exists pairs : List (Vertex ρ × Vertex ρ),
      pairs.map (·.1) = g.pending.filter (fun v => decide (v.key ∉ doomed)) ∧
      pairs.map (·.2) = g'.pending ∧ forall p, p ∈ pairs ->
        p.2.launchId = p.1.launchId ∧ p.2.record = (scan.graph.vertexOf p.1.key).record ∧
          p.2.handle = (scan.graph.vertexOf p.1.key).handle := by
  have htickets := h.map_kept hg (f := fun v => v.ticket) (fun _ => rfl) h.tickets
  have hlength := length_eq_of_map_eq htickets
  refine ⟨_, List.map_fst_zip (Nat.le_of_eq hlength.symm), List.map_snd_zip (Nat.le_of_eq hlength),
    ?_⟩
  intro p hp
  have hmem := (List.mem_filter.mp (List.of_mem_zip hp).left).left
  rcases Prod.mk.inj (eq_of_mem_zip htickets.symm hp) with ⟨hrecord, hrest⟩
  rcases Prod.mk.inj hrest with ⟨hhandle, hlaunchId⟩
  exact ⟨hlaunchId.symm.trans (h.launchId_vertexOf hg hmem), hrecord.symm, hhandle.symm⟩

theorem survives (hg : g.Built origin) (hbank : bank.StripsOutputs)
    (hdescribed : g.Described bank) :
    exists pairs, g.Survives g' origin base.ownerOrInitial pairs := by
  have hkeyed := hg.sound.keyed
  rcases h.paired hkeyed with ⟨pairs, hbefore, hafter, hpairs⟩
  have htask : forall p, p ∈ pairs -> p.2.task = (scan.graph.vertexOf p.1.key).task :=
    fun p hp => congrArg TaskHandle.task (hpairs p hp).right.right
  have hfate := fun v hv => h.walked.fate hkeyed h.doomed_at (v := v) hv
  have hleft : forall v, v ∈ pairs.map (·.1) ↔ v ∈ g.pending ∧ v.key ∉ doomed := by
    intro v
    rw [hbefore, List.mem_filter, decide_eq_true_iff]
  have hstrips : forall v, v ∈ g.pending -> v.key ∉ doomed ->
      g.Strips v (scan.graph.vertexOf v.key).task :=
    fun v hv hstays => (hfate v hv).strips hbank (hdescribed v hv) hstays
  refine ⟨pairs, Thinned.of_filter hbefore ?_ ?_, hafter, h.executed, h.built, ?_, ?_⟩
  · intro p hp
    rcases (hleft p.1).mp (List.mem_map_of_mem hp) with ⟨hv, hstays⟩
    rw [htask p hp]
    exact ⟨(hpairs p hp).left, hstrips p.1 hv hstays⟩
  · intro v hv hgoes
    have hin : v.key ∈ doomed := Decidable.not_not.mp (of_decide_eq_false hgoes)
    cases hfate v hv with
    | keep stays _ => exact absurd hin stays
    | delete _ judged =>
        cases judged with
        | delete quiet dead => exact ⟨quiet, dead⟩
    | strip stays _ _ => exact absurd hin stays
  · intro s hstripped
    rcases hstripped with ⟨p, hp, hwrote, hlost⟩
    rcases (hleft p.1).mp (List.mem_map_of_mem hp) with ⟨hv, hstays⟩
    rw [htask p hp] at hlost
    exact h.origin_lost hg hv hstays hwrote hlost ((hstrips p.1 hv hstays).dead s hwrote hlost)
  · intro s hnone
    refine h.origin_kept hg ?_
    intro v hv hstays
    rcases List.mem_map.mp ((hleft v).mpr ⟨hv, hstays⟩) with ⟨p, hp, rfl⟩
    cases hnow : (scan.graph.vertexOf p.1.key).task.writes s with
    | true => exact ((hstrips p.1 hv hstays).fewer s hnow).symm
    | false =>
        rw [← htask p hp] at hnow
        cases hwrote : p.1.task.writes s with
        | true => exact absurd ⟨p, hp, hwrote, hnow⟩ hnone
        | false => rfl

end Pruned

theorem eliminateDeadStores_survives {g : Graph ρ} {bank : Bank ρ} {origin : State -> NodeKey}
    (hg : g.Built origin) (hbank : bank.StripsOutputs) (hdescribed : g.Described bank) :
    exists g' changed pairs origin', g.eliminateDeadStores bank = .ok (g', changed) ∧
      g.Survives g' origin origin' pairs := by
  rcases eliminateDeadStores_cases bank hg.sound hg.forward
    with ⟨g', changed, hrun, ⟨_, rfl, _⟩ | ⟨_, scan, doomed, g1, base, h⟩⟩
  · exact ⟨g', changed, _, _, hrun, Survives.refl hg⟩
  · rcases h.survives hg hbank hdescribed with ⟨pairs, hsurvives⟩
    exact ⟨g', changed, pairs, _, hrun, hsurvives⟩

end Graph
end LaunchGraph
