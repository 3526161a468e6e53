import LaunchGraph.Proofs.Session

/-!
# What the nodes of a group share

A node that joins a group is checked once, against the task of all that joined before it.
What the check says about single members depends on how the bank describes a fused record.
If it accesses element by element what both parts do, any two members may share a loop.  If
it unites the fields of both parts, a conflict only has to be on a field that the later
member and some earlier one access element by element.
-/

namespace LaunchGraph

variable {ρ : Type}

def Task.Accesses (t : Task) (id : SNodeId) : Prop :=
  exists kind, (kind = .value ∨ kind = .mask) ∧
    (State.ofSNode id kind ∈ t.inputs ∨ State.ofSNode id kind ∈ t.outputs)

namespace Task

theorem orderedByElement_iff {a b : Task} {s : State} :
    a.orderedByElement b s = true ↔ exists id, (s = .ofSNode id .value ∨ s = .ofSNode id .mask) ∧
      id ∈ a.elementWise ∧ id ∈ b.elementWise := by
  rcases s with ⟨resource, kind⟩
  cases resource with
  | globalTmp kernel => simp [orderedByElement, State.ofSNode]
  | snode id => cases kind <;> simp [orderedByElement, State.ofSNode, sharesElements]

theorem hazardFree_iff {a b : Task} : a.hazardFree b = true ↔
    a.taskType = .serial ∨ forall s, s ∈ a.hazards b -> a.orderedByElement b s = true := by
  rw [hazardFree, Bool.or_eq_true, beq_iff_eq, List.all_eq_true]

theorem mem_hazards_of_subset {a a' b : Task} (hin : forall s, s ∈ a.inputs -> s ∈ a'.inputs)
    (hout : forall s, s ∈ a.outputs -> s ∈ a'.outputs) {s : State} (h : s ∈ a.hazards b) :
    s ∈ a'.hazards b := by
  rw [mem_hazards] at h ⊢
  exact h.imp (fun h => ⟨hout s h.left, h.right⟩)
    (Or.imp (fun h => ⟨hout s h.left, h.right⟩) (fun h => ⟨hin s h.left, h.right⟩))

theorem accesses_of_hazard {a b : Task} {id : SNodeId} {s : State}
    (hs : s = .ofSNode id .value ∨ s = .ofSNode id .mask) (h : s ∈ a.hazards b) :
    a.Accesses id := by
  have haccess : s ∈ a.inputs ∨ s ∈ a.outputs := by
    rw [mem_hazards] at h
    rcases h with h | h | h
    · exact Or.inr h.left
    · exact Or.inr h.left
    · exact Or.inl h.left
  rcases hs with rfl | rfl
  · exact ⟨.value, Or.inl rfl, haccess⟩
  · exact ⟨.mask, Or.inr rfl, haccess⟩

end Task

/-!
## Descriptions of fused records
-/

/-- A fused record is launched as its first part is, and accesses what either part
accesses. -/
structure Bank.Unites (bank : Bank ρ) : Prop where
  taskType : forall a b c, bank.fuse a b = some c ->
    (bank.describe c).task.taskType = (bank.describe a).task.taskType
  snode : forall a b c, bank.fuse a b = some c ->
    (bank.describe c).task.snode = (bank.describe a).task.snode
  fusion : forall a b c, bank.fuse a b = some c ->
    (bank.describe c).task.fusion = (bank.describe a).task.fusion
  inputs : forall a b c, bank.fuse a b = some c -> forall s, s ∈ (bank.describe c).task.inputs ↔
    s ∈ (bank.describe a).task.inputs ∨ s ∈ (bank.describe b).task.inputs
  outputs : forall a b c, bank.fuse a b = some c -> forall s, s ∈ (bank.describe c).task.outputs ↔
    s ∈ (bank.describe a).task.outputs ∨ s ∈ (bank.describe b).task.outputs

theorem Bank.Unites.accesses {bank : Bank ρ} (h : bank.Unites) {a b c : ρ}
    (made : bank.fuse a b = some c) {id : SNodeId} : (bank.describe c).task.Accesses id ↔
      (bank.describe a).task.Accesses id ∨ (bank.describe b).task.Accesses id := by
  simp only [Task.Accesses, h.inputs a b c made, h.outputs a b c made]
  grind

/-- A fused record is said to access element by element what either part does. -/
def Bank.UnitesElements (bank : Bank ρ) : Prop :=
  forall a b c, bank.fuse a b = some c -> forall id, id ∈ (bank.describe c).task.elementWise ↔
    id ∈ (bank.describe a).task.elementWise ∨ id ∈ (bank.describe b).task.elementWise

/-- A fused record is said to access a field element by element only if every part that
accesses it does so element by element. -/
def Bank.KeepsElements (bank : Bank ρ) : Prop :=
  forall a b c, bank.fuse a b = some c -> forall id, id ∈ (bank.describe c).task.elementWise ->
    ((bank.describe a).task.Accesses id -> id ∈ (bank.describe a).task.elementWise) ∧
    ((bank.describe b).task.Accesses id -> id ∈ (bank.describe b).task.elementWise)

/-- The task accesses what the tasks of a list access, and is launched as the first of
them. -/
structure Task.Comprises (tasks : List Task) (t : Task) : Prop where
  taskType : exists first rest, tasks = first :: rest ∧ t.taskType = first.taskType
  inputs : forall u, u ∈ tasks -> forall s, s ∈ u.inputs -> s ∈ t.inputs
  outputs : forall u, u ∈ tasks -> forall s, s ∈ u.outputs -> s ∈ t.outputs

/-!
## Growing groups
-/

def Describes (bank : Bank ρ) (p : Option ρ × Task) : Prop :=
  forall r, p.1 = some r -> p.2 = (bank.describe r).task

namespace FusedFrom

variable {bank : Bank ρ} {parts : List (Option ρ × Task)} {p : Option ρ × Task}

/-- A part was checked against all parts before it, put together. -/
theorem checked (h : FusedFrom bank parts p) {earlier later : List (Option ρ × Task)}
    {q : Option ρ × Task} (hsplit : parts = earlier ++ q :: later) (hne : earlier ≠ []) :
    exists r, FusedFrom bank earlier r ∧ r.2.hazardFree q.2 = true := by
  induction h generalizing later with
  | single p =>
      rcases List.append_eq_singleton_iff.mp hsplit.symm with ⟨hnil, _⟩ | ⟨_, hnil⟩
      · exact absurd hnil hne
      · cases hnil
  | @fuse parts first next fused t u before _ free _ ih =>
      rcases later.eq_nil_or_concat with rfl | ⟨rest, last, rfl⟩
      · rcases List.append_inj' hsplit rfl with ⟨rfl, hlast⟩
        cases hlast
        exact ⟨_, before, free⟩
      · rw [List.concat_eq_append, ← List.cons_append, ← List.append_assoc] at hsplit
        exact ih (List.append_inj' hsplit rfl).left

section Described

variable (h : FusedFrom bank parts p) (hdescribed : forall q, q ∈ parts -> Describes bank q)

include h hdescribed

theorem describes : Describes bank p := by
  cases h with
  | single => exact hdescribed p (List.mem_singleton.mpr rfl)
  | fuse =>
      intro r hr
      cases hr
      rfl

/-- What is true of the task of one launch, and stays true when one is added, is true of the
task of any fused launch. -/
theorem accumulates {P : List Task -> Task -> Prop} (one : forall task, P [task] task)
    (more : forall tasks a b c, bank.fuse a b = some c -> P tasks (bank.describe a).task ->
      P (tasks ++ [(bank.describe b).task]) (bank.describe c).task) :
    P (parts.map (·.2)) p.2 := by
  induction h with
  | single p => exact one p.2
  | @fuse parts first next fused t u before _ _ made ih =>
      have hparts := fun q hq => hdescribed q (List.mem_append_left _ hq)
      have hbefore := ih hparts
      have hnext : u = (bank.describe next).task := hdescribed (some next, u) (by simp) next rfl
      rw [before.describes hparts first rfl] at hbefore
      rw [List.map_append, List.map_singleton, hnext]
      exact more _ _ _ _ made hbefore

theorem comprises (hbank : bank.Unites) : Task.Comprises (parts.map (·.2)) p.2 := by
  refine h.accumulates hdescribed (fun task => ?_) ?_
  · refine ⟨⟨task, [], rfl, rfl⟩, ?_, ?_⟩
    · intro u hu s hs
      rw [List.mem_singleton.mp hu] at hs
      exact hs
    · intro u hu s hs
      rw [List.mem_singleton.mp hu] at hs
      exact hs
  · intro tasks a b c made hcomprises
    refine ⟨?_, ?_, ?_⟩
    · rcases hcomprises.taskType with ⟨first, rest, rfl, htype⟩
      exact ⟨first, rest ++ [(bank.describe b).task], rfl, (hbank.taskType a b c made).trans htype⟩
    · intro u hu s hs
      rw [hbank.inputs a b c made]
      rcases List.mem_append.mp hu with hu | hu
      · exact Or.inl (hcomprises.inputs u hu s hs)
      · rw [List.mem_singleton.mp hu] at hs
        exact Or.inr hs
    · intro u hu s hs
      rw [hbank.outputs a b c made]
      rcases List.mem_append.mp hu with hu | hu
      · exact Or.inl (hcomprises.outputs u hu s hs)
      · rw [List.mem_singleton.mp hu] at hs
        exact Or.inr hs

theorem exists_elementWise (helements : bank.UnitesElements) {id : SNodeId}
    (hid : id ∈ p.2.elementWise) : exists q, q ∈ parts ∧ id ∈ q.2.elementWise := by
  have hall := h.accumulates hdescribed (P := fun tasks task =>
    id ∈ task.elementWise -> exists u, u ∈ tasks ∧ id ∈ u.elementWise) ?_ ?_
  · rcases hall hid with ⟨u, hu, hin⟩
    rcases List.mem_map.mp hu with ⟨q, hq, rfl⟩
    exact ⟨q, hq, hin⟩
  · exact fun task hin => ⟨task, List.mem_singleton.mpr rfl, hin⟩
  · intro tasks a b c made hbefore hin
    rcases (helements a b c made id).mp hin with hin | hin
    · rcases hbefore hin with ⟨u, hu, hin⟩
      exact ⟨u, List.mem_append_left _ hu, hin⟩
    · exact ⟨_, List.mem_append_right _ (List.mem_singleton.mpr rfl), hin⟩

theorem elementWise_of_accesses (hbank : bank.Unites) (hkeeps : bank.KeepsElements) {id : SNodeId}
    (hid : id ∈ p.2.elementWise) {q : Option ρ × Task} (hq : q ∈ parts)
    (haccesses : q.2.Accesses id) : id ∈ q.2.elementWise := by
  have hall := h.accumulates hdescribed (P := fun tasks task =>
    forall u, u ∈ tasks -> u.Accesses id -> task.Accesses id ∧
      (id ∈ task.elementWise -> id ∈ u.elementWise)) ?_ ?_
  · exact (hall _ (List.mem_map_of_mem hq) haccesses).right hid
  · intro task u hu hacc
    rw [List.mem_singleton.mp hu] at hacc ⊢
    exact ⟨hacc, fun hin => hin⟩
  · intro tasks a b c made hbefore u hu hacc
    rcases List.mem_append.mp hu with hu | hu
    · rcases hbefore u hu hacc with ⟨hfirst, himplies⟩
      exact ⟨(hbank.accesses made).mpr (Or.inl hfirst),
        fun hin => himplies ((hkeeps a b c made id hin).left hfirst)⟩
    · rw [List.mem_singleton.mp hu] at hacc ⊢
      exact ⟨(hbank.accesses made).mpr (Or.inr hacc),
        fun hin => (hkeeps a b c made id hin).right hacc⟩

end Described

end FusedFrom

/-!
## Groups of a window
-/

/-- Of two members of a parallel group, the later one had its conflicts with the earlier one
checked against all members before it. -/
theorem FusionGroup.conflict {bank : Bank ρ} {group : FusionGroup ρ}
    (hfused : FusedFrom bank (group.members.map (·.launch))
      (some group.record, group.description.task))
    (hdescribed : forall v, v ∈ group.members -> v.DescribedBy bank) (hbank : bank.Unites)
    (hparallel : group.leader.task.taskType ≠ .serial) {u v : Vertex ρ}
    (huv : ComesBefore group.members u v) {s : State} (hs : s ∈ u.task.hazards v.task) :
    exists earlier later r, group.members = earlier ++ v :: later ∧ u ∈ earlier ∧
      FusedFrom bank (earlier.map (·.launch)) r ∧ r.2.orderedByElement v.task s = true := by
  rcases huv.exists_split with ⟨before, between, later, hsplit⟩
  have hsplit' : group.members = (before ++ u :: between) ++ v :: later := by
    rw [hsplit, List.append_assoc, List.cons_append]
  have hu : u ∈ before ++ u :: between := by simp
  rw [hsplit', List.map_append, List.map_cons] at hfused
  rcases hfused.checked rfl (by simp) with ⟨r, hbefore, hfree⟩
  refine ⟨_, later, r, hsplit', hu, hbefore, ?_⟩
  have hcomprises := hbefore.comprises ?_ hbank
  · have htask : u.task ∈ ((before ++ u :: between).map (·.launch)).map (·.2) :=
      List.mem_map.mpr ⟨u.launch, List.mem_map_of_mem hu, rfl⟩
    rcases Task.hazardFree_iff.mp hfree with hserial | hall
    · rcases hcomprises.taskType with ⟨t, rest, hmap, htype⟩
      refine absurd ?_ hparallel
      have hleader : group.leader.task = t := by
        have hhead := congrArg (fun l : List (Vertex ρ) => (l.map (·.task)).head?) hsplit'
        rw [List.map_map] at hmap
        rw [List.map_append, List.head?_append_of_ne_nil _ (by simp)] at hhead
        exact Option.some.inj (hhead.trans (congrArg List.head? hmap))
      rw [hleader, ← htype]
      exact hserial
    · exact hall s (Task.mem_hazards_of_subset (hcomprises.inputs _ htask)
        (hcomprises.outputs _ htask) hs)
  · intro q hq
    rcases List.mem_map.mp hq with ⟨w, hw, rfl⟩
    exact hdescribed w (by rw [hsplit']; exact List.mem_append_left _ hw)

namespace Graph

theorem fuseRange_groups (bank : Bank ρ) {g : Graph ρ} (hg : g.Sound) (hf : g.Forward)
    {first last : Nat} (hfirst : first ≤ last) (hlast : last ≤ g.pendingCount) :
    exists groups r, g.fusionGroups bank first last = .ok groups ∧
      g.fuseRange bank first last = .ok r ∧
      (forall p, p ∈ r.2 ↔
        exists group v, group ∈ groups ∧ v ∈ group.members ∧ v.nodeId = p) ∧
      forall group, group ∈ groups -> group.members.Sublist g.pending ∧
        FusedFrom bank (group.members.map (·.launch))
          (some group.record, group.description.task) := by
  have hself : forall k s, ¬g.Enters k k s := fun k s he => (hf k k s he).irrefl hg.keyed.nodup
  rcases fuseRange_ok (Fusing.refl bank hg hself) hg hf hfirst hlast fun _ _ => rfl
    with ⟨names, fused, groups, before, r, hgroups, hrun, hgrouped, hplaced, _⟩
  have hmembers : forall group, group ∈ groups -> group.members.Sublist g.pending :=
    fun group hin => (hgrouped.sublist group hin).trans (g.windowOf_sublist first last)
  refine ⟨groups, r, hgroups, hrun, ?_,
    fun group hin => ⟨hmembers group hin, hgrouped.fused group hin⟩⟩
  intro p
  rw [hplaced.found]
  constructor
  · rintro ⟨v, hv, hkey, rfl⟩
    rcases List.mem_flatMap.mp hkey with ⟨group, hin, hkey⟩
    rcases List.mem_map.mp hkey with ⟨w, hw, heq⟩
    have hpending := (hmembers group hin).subset hw
    rw [← hg.keyed.eq_of_key (mem_vertices_of_pending hpending) (mem_vertices_of_pending hv) heq]
    exact ⟨group, w, hin, hw, rfl⟩
  · rintro ⟨group, v, hin, hv, rfl⟩
    exact ⟨v, (hmembers group hin).subset hv,
      List.mem_flatMap.mpr ⟨group, hin, List.mem_map_of_mem hv⟩, rfl⟩

end Graph

namespace Session

section Groups

variable {bank : Bank ρ} {s : Session ρ} {first last : Nat}

theorem Reachable.fuseRange_groups (h : Reachable bank Allowed s) (hfirst : first ≤ last)
    (hlast : last ≤ s.graph.pendingCount) :
    exists groups r, s.graph.fusionGroups bank first last = .ok groups ∧
      s.graph.fuseRange bank first last = .ok r ∧
      (forall p, p ∈ r.2 ↔
        exists group v, group ∈ groups ∧ v ∈ group.members ∧ v.nodeId = p) ∧
      forall group, group ∈ groups -> group.members.Sublist s.graph.pending ∧
        FusedFrom bank (group.members.map (·.launch))
          (some group.record, group.description.task) := by
  have hconsistent := h.consistent fun _ _ h => h.deletable
  exact Graph.fuseRange_groups bank hconsistent.sound hconsistent.forward hfirst hlast

theorem Reachable.conflict (h : Reachable bank Allowed s) (hbank : bank.Unites)
    {group : FusionGroup ρ} (hsub : group.members.Sublist s.graph.pending)
    (hfused : FusedFrom bank (group.members.map (·.launch))
      (some group.record, group.description.task))
    (hparallel : group.leader.task.taskType ≠ .serial)
    {u v : Vertex ρ} (hu : u ∈ group.members) (hv : v ∈ group.members)
    (huv : ComesBefore s.graph.pending u v) {t : State} (ht : t ∈ u.task.hazards v.task) :
    exists earlier later r, group.members = earlier ++ v :: later ∧ u ∈ earlier ∧
      FusedFrom bank (earlier.map (·.launch)) r ∧
      (forall q, q ∈ earlier.map (·.launch) -> Describes bank q) ∧
      r.2.orderedByElement v.task t = true := by
  have hconsistent := h.consistent fun _ _ h => h.deletable
  have hnodup : s.graph.pending.Nodup := .of_map _ hconsistent.sound.keyed.nodup_pending
  have hdescribed : forall w, w ∈ group.members -> w.DescribedBy bank :=
    fun w hw => h.described.left w (hsub.subset hw)
  rcases group.conflict hfused hdescribed hbank hparallel (huv.restrict hnodup hsub hu hv) ht
    with ⟨earlier, later, r, hsplit, hearlier, hbefore, hordered⟩
  refine ⟨earlier, later, r, hsplit, hearlier, hbefore, ?_, hordered⟩
  intro q hq
  rcases List.mem_map.mp hq with ⟨w, hw, rfl⟩
  exact hdescribed w (by rw [hsplit]; exact List.mem_append_left _ hw)

/-- Two members of a parallel group conflict only on the values or the mask of a field that
the later one accesses element by element, and so does some member before it.  That member
need not be the earlier one of the two. -/
theorem fused_conflicts_elementWise (hbank : bank.Unites) (helements : bank.UnitesElements)
    (h : Reachable bank Allowed s) (hfirst : first ≤ last) (hlast : last ≤ s.graph.pendingCount) :
    exists groups r, s.graph.fusionGroups bank first last = .ok groups ∧
      s.graph.fuseRange bank first last = .ok r ∧
      (forall p, p ∈ r.2 ↔
        exists group v, group ∈ groups ∧ v ∈ group.members ∧ v.nodeId = p) ∧
      forall group, group ∈ groups -> group.leader.task.taskType ≠ .serial ->
        forall u v, u ∈ group.members -> v ∈ group.members -> ComesBefore s.graph.pending u v ->
        forall t, t ∈ u.task.hazards v.task ->
          exists id w, (t = .ofSNode id .value ∨ t = .ofSNode id .mask) ∧
            id ∈ v.task.elementWise ∧ w ∈ group.members ∧ ComesBefore s.graph.pending w v ∧
            id ∈ w.task.elementWise := by
  rcases h.fuseRange_groups hfirst hlast with ⟨groups, r, hgroups, hrun, hpositions, hall⟩
  refine ⟨groups, r, hgroups, hrun, hpositions, ?_⟩
  intro group hin hparallel u v hu hv huv t ht
  rcases hall group hin with ⟨hsub, hfused⟩
  rcases h.conflict hbank hsub hfused hparallel hu hv huv ht
    with ⟨earlier, later, _, hsplit, _, hbefore, hdescribed, hordered⟩
  rcases Task.orderedByElement_iff.mp hordered with ⟨id, hstate, htask, hlater⟩
  rcases hbefore.exists_elementWise hdescribed helements htask with ⟨q, hq, hid⟩
  rcases List.mem_map.mp hq with ⟨w, hw, rfl⟩
  refine ⟨id, w, hstate, hlater, ?_, ?_, hid⟩
  · rw [hsplit]
    exact List.mem_append_left _ hw
  · refine ComesBefore.of_sublist ?_ hsub
    rw [hsplit, ComesBefore.append_iff]
    exact Or.inr (Or.inl ⟨hw, List.mem_cons_self ..⟩)

/-- If the bank says of a fused record no more than what holds of all its parts, both of two
members access element by element what they conflict on. -/
theorem fused_pairs_elementWise (hbank : bank.Unites) (hkeeps : bank.KeepsElements)
    (h : Reachable bank Allowed s) (hfirst : first ≤ last) (hlast : last ≤ s.graph.pendingCount) :
    exists groups r, s.graph.fusionGroups bank first last = .ok groups ∧
      s.graph.fuseRange bank first last = .ok r ∧
      forall group, group ∈ groups -> group.leader.task.taskType ≠ .serial ->
        forall u v, u ∈ group.members -> v ∈ group.members -> ComesBefore s.graph.pending u v ->
        forall t, t ∈ u.task.hazards v.task ->
          exists id, (t = .ofSNode id .value ∨ t = .ofSNode id .mask) ∧
            id ∈ u.task.elementWise ∧ id ∈ v.task.elementWise := by
  rcases h.fuseRange_groups hfirst hlast with ⟨groups, r, hgroups, hrun, _, hall⟩
  refine ⟨groups, r, hgroups, hrun, ?_⟩
  intro group hin hparallel u v hu hv huv t ht
  rcases hall group hin with ⟨hsub, hfused⟩
  rcases h.conflict hbank hsub hfused hparallel hu hv huv ht
    with ⟨earlier, later, _, _, hearlier, hbefore, hdescribed, hordered⟩
  rcases Task.orderedByElement_iff.mp hordered with ⟨id, hstate, htask, hlater⟩
  exact ⟨id, hstate, hbefore.elementWise_of_accesses hdescribed hbank hkeeps htask
    (List.mem_map_of_mem hearlier) (Task.accesses_of_hazard hstate ht), hlater⟩

end Groups

end Session

/-!
## A conflict that is not ordered
-/

def Task.unite (a b : Task) : Task :=
  { a with
    name := a.name ++ "+" ++ b.name
    inputs := a.inputs ∪ b.inputs
    outputs := a.outputs ∪ b.outputs
    elementWise := a.elementWise ∪ b.elementWise
    sideEffects := a.sideEffects || b.sideEffects }

def Bank.uniting : Bank Task where
  describe t := ⟨t, none⟩
  fuse a b := some (a.unite b)

theorem Bank.uniting_unites : Bank.uniting.Unites := by
  refine ⟨?_, ?_, ?_, ?_, ?_⟩
  · intro a b c made
    cases made
    rfl
  · intro a b c made
    cases made
    rfl
  · intro a b c made
    cases made
    rfl
  · intro a b c made s
    cases made
    exact OrderedSet.mem_union
  · intro a b c made s
    cases made
    exact OrderedSet.mem_union

theorem Bank.uniting_unitesElements : Bank.uniting.UnitesElements := by
  intro a b c made id
  cases made
  exact OrderedSet.mem_union

namespace Sample

def loopKey : FusionKey := ⟨none, .rangeFor, none, 128, false⟩

def gather : Task :=
  { name := "gather", taskType := .rangeFor, inputs := .ofList [cell 1], fusion := some loopKey }

def scan : Task :=
  { name := "scan", taskType := .rangeFor, inputs := .ofList [cell 1],
    elementWise := .ofList [⟨1⟩], fusion := some loopKey }

def store : Task :=
  { name := "store", taskType := .rangeFor, outputs := .ofList [cell 1],
    elementWise := .ofList [⟨1⟩], fusion := some loopKey }

def loops : Session Task :=
  match Session.new.perform Bank.uniting (.insertTasks false [gather, scan, store]) with
  | .ok s => s
  | .error _ => .new

theorem loops_reachable : Session.Reachable Bank.uniting Session.Allowed loops :=
  .step (a := .insertTasks false [gather, scan, store]) .start trivial rfl

theorem loops_grouped : exists groups group u v,
    loops.graph.fusionGroups Bank.uniting 0 3 = .ok groups ∧ group ∈ groups ∧
      group.leader.task.taskType ≠ .serial ∧ u ∈ group.members ∧ v ∈ group.members ∧
      ComesBefore loops.graph.pending u v ∧ u.task = gather ∧ v.task = store := by
  have htasks : (loops.graph.fusionGroups Bank.uniting 0 3).map
      (·.map fun group => group.members.map (·.task)) = .ok [[gather, scan, store]] := by
    decide +kernel
  rcases loops_reachable.fuseRange_groups (Nat.zero_le 3) (Nat.le_refl 3)
    with ⟨groups, r, hgroups, _, _, hall⟩
  rw [hgroups] at htasks
  rcases List.map_eq_singleton_iff.mp (Except.ok.inj htasks) with ⟨group, rfl, hmembers⟩
  rcases List.map_eq_cons_iff.mp hmembers with ⟨u, rest, hsplit, hu, hrest⟩
  rcases List.map_eq_cons_iff.mp hrest with ⟨w, rest, rfl, _, hlast⟩
  rcases List.map_eq_singleton_iff.mp hlast with ⟨v, rfl, hv⟩
  refine ⟨[group], group, u, v, hgroups, List.mem_singleton.mpr rfl, ?_, by simp [hsplit],
    by simp [hsplit], ?_, hu, hv⟩
  · rw [(List.cons.inj hsplit).left, hu]
    decide
  · refine ComesBefore.of_sublist ?_ (hall group (List.mem_singleton.mpr rfl)).left
    rw [hsplit]
    exact ComesBefore.cons_iff.mpr (Or.inl ⟨rfl, by simp⟩)

end Sample

namespace Session

theorem fused_conflicts_elementWise_loops :
    exists groups group u v id w, Sample.loops.graph.fusionGroups Bank.uniting 0 3 = .ok groups ∧
      group ∈ groups ∧ ComesBefore Sample.loops.graph.pending u v ∧
      Sample.cell 1 ∈ u.task.hazards v.task ∧
      (Sample.cell 1 = .ofSNode id .value ∨ Sample.cell 1 = .ofSNode id .mask) ∧
      id ∈ v.task.elementWise ∧ w ∈ group.members ∧ id ∈ w.task.elementWise := by
  rcases Sample.loops_grouped
    with ⟨groups, group, u, v, hgroups, hin, hparallel, hu, hv, huv, hfirst, hlast⟩
  rcases fused_conflicts_elementWise Bank.uniting_unites Bank.uniting_unitesElements
    Sample.loops_reachable (Nat.zero_le 3) (Nat.le_refl 3) with ⟨groups', r, hgroups', _, _, hall⟩
  cases hgroups.symm.trans hgroups'
  have hconflict : Sample.cell 1 ∈ u.task.hazards v.task := by
    rw [hfirst, hlast]
    decide
  rcases hall group hin hparallel u v hu hv huv _ hconflict with ⟨id, w, hstate, hid, hw, _, hwid⟩
  exact ⟨groups, group, u, v, id, w, hgroups, hin, huv, hconflict, hstate, hid, hw, hwid⟩

/-- The first loop of a group need not access element by element what it conflicts on with the
last one. -/
theorem fused_conflict_unordered :
    Reachable Bank.uniting Allowed Sample.loops ∧ exists groups group u v,
      Sample.loops.graph.fusionGroups Bank.uniting 0 3 = .ok groups ∧ group ∈ groups ∧
      group.leader.task.taskType ≠ .serial ∧ u ∈ group.members ∧ v ∈ group.members ∧
      ComesBefore Sample.loops.graph.pending u v ∧ Sample.cell 1 ∈ u.task.hazards v.task ∧
      forall id, id ∉ u.task.elementWise := by
  rcases Sample.loops_grouped
    with ⟨groups, group, u, v, hgroups, hin, hparallel, hu, hv, huv, hfirst, hlast⟩
  refine ⟨Sample.loops_reachable, groups, group, u, v, hgroups, hin, hparallel, hu, hv, huv, ?_, ?_⟩
  · rw [hfirst, hlast]
    decide
  · intro id
    rw [hfirst]
    exact OrderedSet.not_mem_empty id

end Session

end LaunchGraph
