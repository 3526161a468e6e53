import LaunchGraph.Graph.Verify
import LaunchGraph.Proofs.Cycle
import LaunchGraph.Proofs.Graph.Rebuild

/-!
# Consistent graphs pass every check

No check of a consistent graph reports a violation.  The check of tasks passes as
well if every pending node has the task of its record, and the bank derives the
same states from a record that it describes.
-/

namespace LaunchGraph

def Node.DescribedBy {ρ : Type} (n : Node ρ) (bank : Bank ρ) : Prop :=
  forall record, n.record = some record -> n.task = (bank.describe record).task

namespace Graph

variable {ρ : Type}

/-!
## Positions
-/

theorem Numbered.pendingId_eq {g : Graph ρ} (h : g.Numbered) {v : Vertex ρ} {i : Nat}
    (hv : g.vertices[i]? = some v) : v.pendingId = g.pendingPosition i := by
  rw [pendingPosition]
  rw [vertices] at hv
  by_cases hi : g.firstPending ≤ i
  · rw [if_pos hi]
    rw [List.getElem?_append_right hi] at hv
    exact h.pendingId_of_pending hv
  · rw [if_neg hi]
    rw [List.getElem?_append_left (Nat.not_le.mp hi)] at hv
    exact h.executedIds v (List.mem_of_getElem? hv)

theorem Numbered.nodeId_eq {g : Graph ρ} (h : g.Numbered) {v : Vertex ρ} {i : Nat}
    (hv : g.vertices[i]? = some v) : v.nodeId = i := by
  have hlt := (List.getElem?_eq_some_iff.mp hv).1
  have hget := congrArg (fun l => l[i]?) h.nodeIds
  rw [List.getElem?_map, size, List.getElem?_range hlt, hv] at hget
  exact Option.some.inj hget

theorem checkPositions_ok {g : Graph ρ} (h : g.Numbered) : g.checkPositions = .ok () := by
  refine forM_ok_of_forall ?_
  rintro ⟨v, i⟩ hmem
  have hv : g.vertices[i]? = some v := by
    rw [List.mem_zipIdx_iff_getElem?] at hmem
    exact hmem
  show g.checkPosition v i = .ok ()
  rw [checkPosition, if_neg (fun hne => hne (h.nodeId_eq hv)),
    if_neg (fun hne => hne (h.pendingId_eq hv))]
  rfl

/-!
## Ends of edges
-/

section Edges

variable {g : Graph ρ}

theorem Linked.leaves_of_mem (h : g.Linked) {v : Vertex ρ} (hv : v ∈ g.vertices) {s : State}
    {k : NodeKey} (hk : (s, k) ∈ v.outputs.pairs) : g.Leaves v.key k s := by
  rw [Leaves, outputsOf_of_find? (find?_of_mem h.keyed.nodup hv)]
  exact Links.mem_pairs.mp hk

theorem Linked.enters_of_mem (h : g.Linked) {v : Vertex ρ} (hv : v ∈ g.vertices) {s : State}
    {k : NodeKey} (hk : (s, k) ∈ v.inputs.pairs) : g.Enters k v.key s := by
  rw [Enters, inputsOf_of_find? (find?_of_mem h.keyed.nodup hv)]
  exact Links.mem_pairs.mp hk

theorem checkEnds_ok (h : g.Linked) : g.checkEnds = .ok () := by
  refine forM_ok_of_forall ?_
  intro v hv
  have houtputs : (v.outputs.pairs.forM fun p => g.checkOutput v p.1 p.2)
      = .ok () := by
    refine forM_ok_of_forall ?_
    rintro ⟨s, k⟩ hk
    have henters := (h.mirrored v.key k s).mp (h.leaves_of_mem hv hk)
    rcases exists_find? henters.target_mem with ⟨w, hw⟩
    rw [Enters, inputsOf_of_find? hw] at henters
    show g.checkOutput v s k = .ok ()
    rw [checkOutput, hw]
    show (if w.inputs.contains s v.key = true then _ else _) = _
    rw [if_pos (Links.contains_iff.mpr henters)]
    rfl
  have hinputs : (v.inputs.pairs.forM fun p => g.checkInput v p.1 p.2)
      = .ok () := by
    refine forM_ok_of_forall ?_
    rintro ⟨s, k⟩ hk
    have hleaves := (h.mirrored k v.key s).mpr (h.enters_of_mem hv hk)
    rcases exists_find? hleaves.source_mem with ⟨u, hu⟩
    rw [Leaves, outputsOf_of_find? hu] at hleaves
    show g.checkInput v s k = .ok ()
    rw [checkInput, hu]
    show (if u.outputs.contains s v.key = true then _ else _) = _
    rw [if_pos (Links.contains_iff.mpr hleaves)]
    rfl
  show (v.outputs.pairs.forM (fun p => g.checkOutput v p.1 p.2) >>= fun _ =>
    v.inputs.pairs.forM fun p => g.checkInput v p.1 p.2) = .ok ()
  rw [houtputs, ok_bind]
  exact hinputs

/-!
## Cycles
-/

def LeadsTo (g : Graph ρ) (u v : NodeKey) : Prop := exists s, g.Leaves u v s

def OnCycle (g : Graph ρ) (k : NodeKey) : Prop := Relation.TransGen g.LeadsTo k k

theorem mem_targets {u v : NodeKey} : v ∈ g.targets u ↔ g.LeadsTo u v := by
  rw [targets, LeadsTo]
  simp only [Leaves, outputsOf]
  cases hu : g.find? u with
  | none => simp
  | some w =>
      show v ∈ w.outputs.neighbors ↔ exists s, v ∈ w.outputs.get s
      exact Links.mem_neighbors

theorem onCycle_iff {k : NodeKey} : Cycle.OnCycle g.targets k ↔ g.OnCycle k := by
  have hleads : Cycle.LeadsTo g.targets = g.LeadsTo := by
    funext u v
    exact propext mem_targets
  rw [Cycle.OnCycle, hleads]
  exact Iff.rfl

theorem Linked.mem_keys_of_mem_targets (h : g.Linked) {u v : NodeKey} (huv : v ∈ g.targets u) :
    u ∈ g.keys ∧ v ∈ g.keys := by
  rcases mem_targets.mp huv with ⟨s, hs⟩
  exact ⟨hs.source_mem, ((h.mirrored u v s).mp hs).target_mem⟩

theorem checkAcyclic_error (h : g.Linked) (hself : g.Loopless) {k : NodeKey} (hk : g.OnCycle k) :
    exists v, v ∈ g.vertices ∧ g.OnCycle v.key ∧ g.checkAcyclic = .error (.cycle v.label) := by
  have hself' : forall u, u ∉ g.targets u := by
    intro u hu
    rcases mem_targets.mp hu with ⟨s, hs⟩
    exact hself u s hs
  have hmem : forall u v, v ∈ g.targets u -> u ∈ g.keys ∧ v ∈ g.keys :=
    fun u v huv => h.mem_keys_of_mem_targets huv
  cases hfind : Cycle.find? g.targets g.keys with
  | none =>
      have hnone := (Cycle.find?_eq_none_iff h.keyed.nodup hmem hself').mp hfind k
      exact absurd (onCycle_iff.mpr hk) hnone
  | some p =>
      have hp := Cycle.onCycle_of_find? h.keyed.nodup (fun u v huv => (hmem u v huv).right) hfind
      have hcycle := onCycle_iff.mp hp
      have hkey : p ∈ g.keys := by
        rcases Relation.TransGen.head'_iff.mp hcycle with ⟨q, ⟨s, hs⟩, _⟩
        exact hs.source_mem
      rcases exists_find? hkey with ⟨v, hv⟩
      refine ⟨v, mem_of_find? hv, ?_, ?_⟩
      · rw [key_of_find? hv]
        exact hcycle
      · unfold keys at hfind
        unfold checkAcyclic
        rw [hfind]
        show Except.error (Violation.cycle (g.nameOf p)) = _
        rw [nameOf, hv]

theorem checkAcyclic_ok (h : g.Linked) (hacyclic : forall k, ¬g.OnCycle k) :
    g.checkAcyclic = .ok () := by
  cases hfind : Cycle.find? g.targets g.keys with
  | some p =>
      have hp := Cycle.onCycle_of_find? h.keyed.nodup
        (fun u v huv => (h.mem_keys_of_mem_targets huv).right) hfind
      exact absurd (onCycle_iff.mp hp) (hacyclic p)
  | none =>
      unfold keys at hfind
      unfold checkAcyclic
      rw [hfind]
      rfl

theorem Forward.not_onCycle (hf : g.Forward) (h : g.Linked) (k : NodeKey) : ¬g.OnCycle k := by
  have hpath : forall v, Relation.TransGen g.LeadsTo k v -> ComesBefore g.keys k v := by
    intro v hv
    induction hv with
    | single hstep =>
        rcases hstep with ⟨s, hs⟩
        exact hf _ _ s ((h.mirrored _ _ s).mp hs)
    | tail _ hstep ih =>
        rcases hstep with ⟨s, hs⟩
        exact ih.trans h.keyed.nodup (hf _ _ s ((h.mirrored _ _ s).mp hs))
  intro hk
  exact ComesBefore.irrefl h.keyed.nodup (hpath k hk)

/-!
## Directions of edges
-/

/-- An edge leads forward, and into no executed node nor the initial one. -/
def LeadsOn (g : Graph ρ) (u v : NodeKey) : Prop :=
  ComesBefore g.keys u v ∧ v ∉ g.executed.map (·.key)

theorem checkExecutedInputs_ok {v : Vertex ρ} (hv : v ∈ g.pending ∨ forall s k, k ∉ v.inputs.get s)
    (h : g.Linked) : g.checkExecutedInputs v = .ok () := by
  rw [checkExecutedInputs]
  cases hpairs : v.inputs.pairs with
  | nil => rfl
  | cons e rest =>
      rcases e with ⟨s, k⟩
      rcases hv with hp | hnone
      · show (if v.isExecuted = true then _ else _) = _
        rw [h.numbered.isExecuted_of_pending hp]
        rfl
      · have hmem : (s, k) ∈ v.inputs.pairs := by
          rw [hpairs]
          exact List.mem_cons_self ..
        exact absurd (Links.mem_pairs.mp hmem) (hnone s k)

theorem not_mem_inputs_of_checkExecutedInputs {v : Vertex ρ} (h : g.Linked) (hv : v ∈ g.executed)
    (hcheck : g.checkExecutedInputs v = .ok ()) (s : State) (k : NodeKey) : k ∉ v.inputs.get s := by
  intro hk
  have hmem := Links.mem_pairs.mpr hk
  rw [checkExecutedInputs] at hcheck
  cases hpairs : v.inputs.pairs with
  | nil =>
      rw [hpairs] at hmem
      cases hmem
  | cons e rest =>
      have hexecuted : v.isExecuted = true := by
        rw [Node.isExecuted, h.numbered.executedIds v hv]
        rfl
      rw [hpairs] at hcheck
      have hstop : (if v.isExecuted = true then
          (Except.error (Violation.executedEdge v.label (g.nameOf e.2) e.1) : Except Violation Unit)
        else .ok ()) = .ok () := hcheck
      rw [if_pos hexecuted] at hstop
      cases hstop

theorem checkDirection_ok_iff (h : g.Linked) {v w : Vertex ρ} {s : State} {k : NodeKey}
    (hv : v ∈ g.vertices) (hw : g.find? k = some w) :
    g.checkDirection v s k = .ok () ↔
      (v.isExecuted && w.isExecuted) = false ∧ ComesBefore g.keys v.key k := by
  have hbefore : v.nodeId < w.nodeId ↔ ComesBefore g.keys v.key k := by
    rw [h.numbered.nodeId_lt_iff h.keyed hv (mem_of_find? hw), key_of_find? hw]
  rw [checkDirection, hw, ← hbefore]
  show (if (v.isExecuted && w.isExecuted) = true then Except.error _
    else if w.nodeId ≤ v.nodeId then Except.error _ else Except.ok ()) = _ ↔ _
  cases v.isExecuted && w.isExecuted with
  | true => simp
  | false =>
      rw [if_neg Bool.false_ne_true]
      by_cases hle : w.nodeId ≤ v.nodeId
      · rw [if_pos hle]
        simp [Nat.not_lt.mpr hle]
      · rw [if_neg hle]
        simp [Nat.not_le.mp hle]

theorem checkDirections_eq (g : Graph ρ) : g.checkDirections = g.vertices.forM fun v =>
    g.checkExecutedInputs v >>= fun _ =>
      v.outputs.pairs.forM fun p => g.checkDirection v p.1 p.2 := rfl

theorem checkDirections_ok (h : g.Linked) (hedges : forall u v s, g.Leaves u v s -> g.LeadsOn u v) :
    g.checkDirections = .ok () := by
  rw [checkDirections_eq]
  refine forM_ok_of_forall ?_
  intro v hv
  have hinputs : g.checkExecutedInputs v = .ok () := by
    refine checkExecutedInputs_ok ?_ h
    rcases List.mem_append.mp hv with hx | hp
    · refine Or.inr ?_
      intro s k hk
      have henters := h.enters_of_mem hv (Links.mem_pairs.mpr hk)
      have hon := hedges k v.key s ((h.mirrored k v.key s).mpr henters)
      exact hon.right (List.mem_map_of_mem hx)
    · exact Or.inl hp
  rw [hinputs, ok_bind]
  refine forM_ok_of_forall ?_
  rintro ⟨s, k⟩ hk
  have hon := hedges v.key k s (h.leaves_of_mem hv hk)
  rcases exists_find? hon.left.right_mem with ⟨w, hw⟩
  have hpending : w ∈ g.pending := by
    rcases List.mem_append.mp (mem_of_find? hw) with hx | hp
    · exact absurd (List.mem_map_of_mem hx) (key_of_find? hw ▸ hon.right)
    · exact hp
  refine (checkDirection_ok_iff h hv hw).mpr ⟨?_, hon.left⟩
  rw [h.numbered.isExecuted_of_pending hpending, Bool.and_false]

theorem checkDirections_ok_iff (h : g.Linked) :
    g.checkDirections = .ok () ↔ forall u v s, g.Leaves u v s -> g.LeadsOn u v := by
  refine ⟨?_, checkDirections_ok h⟩
  intro hcheck u v s huv
  rw [checkDirections_eq] at hcheck
  have hvertex := forM_ok_iff.mp hcheck
  have henters := (h.mirrored u v s).mp huv
  rcases exists_find? huv.source_mem with ⟨x, hx⟩
  rcases exists_find? henters.target_mem with ⟨w, hw⟩
  have houtput : (s, v) ∈ x.outputs.pairs := by
    rw [Leaves, outputsOf_of_find? hx] at huv
    exact Links.mem_pairs.mpr huv
  have hinput : u ∈ w.inputs.get s := by
    rw [Enters, inputsOf_of_find? hw] at henters
    exact henters
  have hboth : forall y, y ∈ g.vertices -> g.checkExecutedInputs y = .ok () ∧
      (y.outputs.pairs.forM fun p => g.checkDirection y p.1 p.2) = .ok () := by
    intro y hy
    have hrun := hvertex y hy
    cases hinputs : g.checkExecutedInputs y with
    | error e =>
        rw [hinputs] at hrun
        cases hrun
    | ok a =>
        rw [hinputs, ok_bind] at hrun
        exact ⟨rfl, hrun⟩
  have hdirection := forM_ok_iff.mp (hboth x (mem_of_find? hx)).right (s, v) houtput
  have hbefore := ((checkDirection_ok_iff h (mem_of_find? hx) hw).mp hdirection).right
  rw [key_of_find? hx] at hbefore
  refine ⟨hbefore, ?_⟩
  intro hexecuted
  rcases List.mem_map.mp hexecuted with ⟨y, hy, hkey⟩
  have hwy : w = y :=
    h.keyed.eq_of_key (mem_of_find? hw) (mem_vertices_of_executed hy) ((key_of_find? hw).trans hkey.symm)
  subst hwy
  exact not_mem_inputs_of_checkExecutedInputs h hy (hboth w (mem_of_find? hw)).left s u hinput

theorem checkExecutedInputs_ne_cycle (v : Vertex ρ) (node : String) :
    g.checkExecutedInputs v ≠ .error (.cycle node) := by
  rw [checkExecutedInputs]
  cases v.inputs.pairs with
  | nil =>
      intro h
      cases h
  | cons e rest =>
      cases v.isExecuted with
      | true =>
          intro h
          cases h
      | false =>
          intro h
          cases h

theorem checkDirection_ne_cycle (v : Vertex ρ) (s : State) (k : NodeKey) (node : String) :
    g.checkDirection v s k ≠ .error (.cycle node) := by
  rw [checkDirection]
  cases g.find? k with
  | none =>
      intro h
      cases h
  | some w =>
      show (if (v.isExecuted && w.isExecuted) = true then Except.error _
        else if w.nodeId ≤ v.nodeId then Except.error _ else Except.ok ()) ≠ _
      split
      · intro h
        cases h
      · split
        · intro h
          cases h
        · intro h
          cases h

theorem checkDirections_ne_cycle (node : String) :
    g.checkDirections ≠ .error (.cycle node) := by
  intro h
  rw [checkDirections_eq] at h
  rcases exists_of_forM_error h with ⟨v, _, hv⟩
  cases hinputs : g.checkExecutedInputs v with
  | error e =>
      rw [hinputs] at hv
      cases hv
      exact checkExecutedInputs_ne_cycle v node hinputs
  | ok a =>
      rw [hinputs, ok_bind] at hv
      rcases exists_of_forM_error hv with ⟨p, _, hp⟩
      exact checkDirection_ne_cycle v p.1 p.2 node hp

end Edges

/-!
## Owners and readers
-/

/-- Nodes know their places and both ends of their edges, and the tables of owners and readers
fit the edges. -/
structure Registered (g : Graph ρ) : Prop where
  linked : g.Linked
  owner_writes : forall s k, g.owners.get? s = some k -> g.WritesAt k s
  reader_linked : forall s k, k ∈ g.readers.get s ->
    k = g.ownerOrInitial s ∨ g.Enters (g.ownerOrInitial s) k s

theorem Consistent.registered {g : Graph ρ} (h : g.Consistent) : g.Registered :=
  ⟨h.sound.linked, h.owner_writes, h.reader_linked⟩

theorem checkOwners_ok {g : Graph ρ} (h : g.Registered) : g.checkOwners = .ok () := by
  refine forM_ok_of_forall ?_
  intro s _
  rw [checkOwner]
  cases ho : g.owners.get? s with
  | none => rfl
  | some k =>
      rcases h.owner_writes s k ho with ⟨v, hv, hw⟩
      have hany : (g.find? k).any (·.writes s) = true := by
        rw [hv]
        exact hw
      show (if (g.find? k).any (·.writes s) = true then _ else _) = _
      rw [if_pos hany]
      rfl

theorem checkReaders_ok {g : Graph ρ} (h : g.Registered) : g.checkReaders = .ok () := by
  refine forM_ok_of_forall ?_
  rintro ⟨s, k⟩ hk
  have hread := Links.mem_pairs.mp hk
  show (if k = g.ownerOrInitial s then _ else
    if (g.contains k && (g.find? (g.ownerOrInitial s)).any (·.outputs.contains s k)) = true
      then _ else _) = _
  rcases h.reader_linked s k hread with heq | henters
  · rw [if_pos heq]
    rfl
  · by_cases heq : k = g.ownerOrInitial s
    · rw [if_pos heq]
      rfl
    · have hcontains : g.contains k = true := contains_iff.mpr henters.target_mem
      have hleaves := (h.linked.mirrored _ _ s).mpr henters
      rcases exists_find? hleaves.source_mem with ⟨u, hu⟩
      rw [Leaves, outputsOf_of_find? hu] at hleaves
      have hany : (some u).any (fun v : Vertex ρ => v.outputs.contains s k) = true :=
        Links.contains_iff.mpr hleaves
      rw [if_neg heq, hcontains, hu, hany]
      rfl

/-!
## All checks
-/

def Described (bank : Bank ρ) (g : Graph ρ) : Prop :=
  forall v, v ∈ g.pending -> v.DescribedBy bank

/-- Once the tables are right, only a cycle and the directions of edges are left to report. -/
theorem Registered.verify_eq {g : Graph ρ} (h : g.Registered) (bank : Bank ρ) (tasks : Bool) :
    g.verify bank tasks = (g.checkAcyclic >>= fun _ => g.checkDirections >>= fun _ =>
      if tasks then g.pending.forM (checkTask bank) else .ok ()) := by
  rw [verify, h.linked.numbered.initial, checkPositions_ok h.linked.numbered,
    checkEnds_ok h.linked, checkOwners_ok h, checkReaders_ok h]
  rfl

theorem Consistent.verify_eq {g : Graph ρ} (h : g.Consistent) (bank : Bank ρ) (tasks : Bool) :
    g.verify bank tasks = if tasks then g.pending.forM (checkTask bank) else .ok () := by
  have hlinked := h.sound.linked
  have hdirections : g.checkDirections = .ok () := by
    refine checkDirections_ok hlinked ?_
    intro u v s huv
    have henters := (hlinked.mirrored u v s).mp huv
    refine ⟨h.forward u v s henters, ?_⟩
    intro hexecuted
    rcases List.mem_map.mp hexecuted with ⟨w, hw, rfl⟩
    exact hlinked.keyed.executed_not_pending hw (h.sound.wired.target_pending u w.key s henters)
  rw [h.registered.verify_eq, checkAcyclic_ok hlinked (h.forward.not_onCycle hlinked), ok_bind,
    hdirections, ok_bind]

theorem verify_ok {g : Graph ρ} (bank : Bank ρ) (h : g.Consistent) :
    g.verify bank false = .ok () :=
  h.verify_eq bank false

end Graph

/-- Whatever the bank derives from a record is what it describes. -/
def Bank.Agrees {ρ : Type} (bank : Bank ρ) : Prop :=
  forall record task, bank.analyze record = some task ->
    task.inputs = (bank.describe record).task.inputs ∧
      task.outputs = (bank.describe record).task.outputs

namespace Graph

variable {ρ : Type}

theorem checkTask_ok {bank : Bank ρ} (hbank : bank.Agrees) {v : Vertex ρ}
    (hv : v.DescribedBy bank) :
    checkTask bank v = .ok () := by
  rw [checkTask]
  cases hr : v.record with
  | none => rfl
  | some record =>
      rw [Option.bind_some]
      cases ha : bank.analyze record with
      | none => rfl
      | some actual =>
          rcases hbank record actual ha with ⟨hin, hout⟩
          have htask := hv record hr
          show (if v.task.inputs ≠ actual.inputs then _
            else if v.task.outputs ≠ actual.outputs then _ else _) = _
          rw [htask, if_neg (fun hne => hne hin.symm), if_neg (fun hne => hne hout.symm)]
          rfl

theorem verify_tasks_ok {g : Graph ρ} {bank : Bank ρ} (h : g.Consistent) (hbank : bank.Agrees)
    (hdescribed : g.Described bank) : g.verify bank true = .ok () := by
  rw [h.verify_eq]
  exact forM_ok_of_forall fun v hv => checkTask_ok hbank (hdescribed v hv)

end Graph
end LaunchGraph
