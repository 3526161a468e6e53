import LaunchGraph.Proofs.ListCurrency
import LaunchGraph.Proofs.Session

/-!
# What the current lists say about the past

Which lists are known to be current is a digest of everything that happened to a graph.  A
list is current exactly if it was generated by a launch that could have been left out, and
nothing has made it stale since.  Launches and the caller make lists stale, each time those of
a field and of all fields below it, however the fields hang together.
-/

namespace LaunchGraph

variable {ρ : Type}

/-!
## Fields below a field
-/

namespace Bank

variable {bank : Bank ρ}

/-- Steps to children, none or many, lead from the first field to the second. -/
def Below (bank : Bank ρ) (r s : SNodeId) : Prop :=
  Relation.ReflTransGen (fun p c => c ∈ bank.children p) r s

theorem mem_of_mem_descend {work : List SNodeId} {seen : OrderedSet SNodeId} {s : SNodeId}
    (hs : s ∈ bank.descend work seen) : s ∈ seen ∨ exists r, r ∈ work ∧ bank.Below r s := by
  fun_induction Bank.descend bank work seen with
  | case1 work seen stopped => exact Or.inl hs
  | case2 work seen next rest stopped ih =>
      have hwork : forall r, r ∈ next :: rest -> r ∈ work := by
        intro r hr
        rw [← stopped] at hr
        exact (List.dropWhile_sublist _).subset hr
      have hnext : next ∈ work := hwork next (List.mem_cons_self ..)
      rcases ih hs with hseen | ⟨r, hr, hbelow⟩
      · rcases OrderedSet.mem_insert.mp hseen with rfl | hseen
        · exact Or.inr ⟨s, hnext, .refl⟩
        · exact Or.inl hseen
      · rcases List.mem_append.mp hr with hchild | hrest
        · exact Or.inr ⟨next, hnext, .head hchild hbelow⟩
        · exact Or.inr ⟨r, hwork r (List.mem_cons_of_mem _ hrest), hbelow⟩

/-- The search finds the fields below a field and no others, also where fields have several
parents or lie below themselves. -/
theorem mem_descendants {r s : SNodeId} : s ∈ bank.descendants r ↔ bank.Below r s := by
  constructor
  · intro hs
    rcases mem_of_mem_descend hs with hseen | ⟨r', hr', hbelow⟩
    · exact absurd hseen (OrderedSet.not_mem_empty s)
    · rw [List.mem_singleton.mp hr'] at hbelow
      exact hbelow
  · intro hbelow
    induction hbelow with
    | refl => exact mem_descendants_self r
    | tail _ hchild ih => exact mem_descendants_of_child ih hchild

end Bank

/-!
## What makes lists current and stale
-/

theorem Task.mem_staleLists_iff {t : Task} {s : SNodeId} :
    s ∈ t.staleLists ↔ exists kind, kind ≠ .value ∧ State.ofSNode s kind ∈ t.outputs := by
  constructor
  · intro hs
    rcases List.mem_filterMap.mp hs with ⟨⟨resource, kind⟩, hmem, heq⟩
    have hfield : kind ≠ .value ∧ State.snode? ⟨resource, kind⟩ = some s := by
      cases kind with
      | value => cases heq
      | mask => exact ⟨by decide, heq⟩
      | list => exact ⟨by decide, heq⟩
      | allocator => exact ⟨by decide, heq⟩
    cases resource with
    | snode r =>
        cases hfield.right
        exact ⟨kind, hfield.left, hmem⟩
    | globalTmp kernel => cases hfield.right
  · rintro ⟨kind, hkind, hmem⟩
    exact mem_staleLists hkind hmem

/-- What may change which lists are current: a launch, which list generations could have been
left out of or not, and a mark of the caller. -/
inductive ListEvent where
  | launched (filter : Bool) (t : Task)
  | marked (r : SNodeId)

namespace ListEvent

/-- The event makes the list of a field stale: the caller marks a field that it is or lies
below, or a launch that generates no list writes the mask, the list or the allocator of one. -/
def Dirties (bank : Bank ρ) : ListEvent -> SNodeId -> Prop
  | .launched _ t, s => t.taskType ≠ .listgen ∧
      exists r kind, kind ≠ .value ∧ State.ofSNode r kind ∈ t.outputs ∧ bank.Below r s
  | .marked r, s => bank.Below r s

def Refreshes (e : ListEvent) (s : SNodeId) : Prop :=
  exists t, e = .launched true t ∧ t.Generates s

end ListEvent

/-- The list of a field was refreshed, and no event has made it stale since. -/
def Refreshed (bank : Bank ρ) (events : List ListEvent) (s : SNodeId) : Prop :=
  exists earlier e later, events = earlier ++ e :: later ∧ e.Refreshes s ∧
    forall d, d ∈ later -> ¬d.Dirties bank s

theorem not_refreshed_nil (bank : Bank ρ) (s : SNodeId) : ¬Refreshed bank [] s := by
  rintro ⟨earlier, e, later, hevents, _⟩
  simp at hevents

theorem refreshed_append {bank : Bank ρ} {events : List ListEvent} {e : ListEvent} {s : SNodeId} :
    Refreshed bank (events ++ [e]) s ↔
      e.Refreshes s ∨ (Refreshed bank events s ∧ ¬e.Dirties bank s) := by
  constructor
  · rintro ⟨earlier, e', later, hevents, hrefreshes, hclean⟩
    rcases List.eq_nil_or_concat' later with rfl | ⟨later, last, rfl⟩
    · have hlast := List.append_inj_right' hevents rfl
      cases hlast
      exact Or.inl hrefreshes
    · rw [← List.cons_append, ← List.append_assoc] at hevents
      have hlast := List.append_inj_right' hevents rfl
      cases hlast
      refine Or.inr ⟨⟨earlier, e', later, List.append_inj_left' hevents rfl, hrefreshes, ?_⟩, ?_⟩
      · intro d hd
        exact hclean d (List.mem_append_left _ hd)
      · exact hclean e (List.mem_append_right _ (List.mem_singleton.mpr rfl))
  · rintro (hrefreshes | ⟨⟨earlier, e', later, rfl, hrefreshes, hclean⟩, hkeeps⟩)
    · refine ⟨events, e, [], rfl, hrefreshes, ?_⟩
      intro d hd
      cases hd
    · refine ⟨earlier, e', later ++ [e], by simp, hrefreshes, ?_⟩
      intro d hd
      rcases List.mem_append.mp hd with hd | hd
      · exact hclean d hd
      · rw [List.mem_singleton.mp hd]
        exact hkeeps

namespace Graph

variable {bank : Bank ρ}

def Remembers (bank : Bank ρ) (events : List ListEvent) (g : Graph ρ) : Prop :=
  forall s, s ∈ g.currentLists ↔ Refreshed bank events s

def Notes (bank : Bank ρ) (g : Graph ρ) (e : ListEvent) (g' : Graph ρ) : Prop :=
  forall s, s ∈ g'.currentLists ↔
    e.Refreshes s ∨ (s ∈ g.currentLists ∧ ¬e.Dirties bank s)

theorem Notes.remembers {events : List ListEvent} {e : ListEvent} {g g' : Graph ρ}
    (h : Notes bank g e g') (hg : g.Remembers bank events) :
    g'.Remembers bank (events ++ [e]) := by
  intro s
  rw [h s, hg s, refreshed_append]

theorem HasLists.remembers {events : List ListEvent} {g g' : Graph ρ}
    (h : g'.HasLists g.currentLists) (hg : g.Remembers bank events) :
    g'.Remembers bank events := by
  intro s
  have hlists : g'.currentLists = g.currentLists := h
  rw [hlists]
  exact hg s

theorem mem_markListStale {g : Graph ρ} {r s : SNodeId} :
    s ∈ (g.markListStale bank r).currentLists ↔ s ∈ g.currentLists ∧ ¬bank.Below r s := by
  rw [← Bank.mem_descendants]
  exact OrderedSet.mem_sdiff

theorem markListStale_notes (bank : Bank ρ) (g : Graph ρ) (r : SNodeId) :
    Notes bank g (.marked r) (g.markListStale bank r) := by
  intro s
  rw [mem_markListStale]
  constructor
  · exact Or.inr
  · rintro (⟨t, heq, _⟩ | hkept)
    · cases heq
    · exact hkept

theorem notes_self {g : Graph ρ} {e : ListEvent} (hrefreshes : forall s, ¬e.Refreshes s)
    (hdirties : forall s, ¬e.Dirties bank s) : Notes bank g e g := by
  intro s
  simp [hrefreshes s, hdirties s]

theorem markListCurrent_notes (bank : Bank ρ) (g : Graph ρ) {t : Task} {r : SNodeId}
    (h : t.Generates r) : Notes bank g (.launched true t) (g.markListCurrent r) := by
  intro s
  have hdirties : ¬ListEvent.Dirties bank (.launched true t) s := fun hd => hd.left h.taskType
  have hrefreshes : (ListEvent.launched true t).Refreshes s ↔ s = r := by
    constructor
    · rintro ⟨t', heq, hgenerates⟩
      cases heq
      exact Option.some.inj (hgenerates.snode.symm.trans h.snode)
    · rintro rfl
      exact ⟨t, rfl, h⟩
  rw [hrefreshes, and_iff_left hdirties]
  exact OrderedSet.mem_insert

theorem foldl_markListStale_notes (bank : Bank ρ) (g : Graph ρ) (filter : Bool) {t : Task}
    (htype : t.taskType ≠ .listgen) :
    Notes bank g (.launched filter t) (t.staleLists.foldl (markListStale bank) g) := by
  intro s
  have hrefreshes : ¬(ListEvent.launched filter t).Refreshes s := by
    rintro ⟨t', heq, hgenerates⟩
    cases heq
    exact htype hgenerates.taskType
  have hdirties : ListEvent.Dirties bank (.launched filter t) s ↔
      exists r, r ∈ t.staleLists ∧ s ∈ bank.descendants r := by
    simp only [ListEvent.Dirties, Task.mem_staleLists_iff, Bank.mem_descendants]
    constructor
    · rintro ⟨_, r, kind, hkind, hmem, hbelow⟩
      exact ⟨r, ⟨kind, hkind, hmem⟩, hbelow⟩
    · rintro ⟨r, ⟨kind, hkind, hmem⟩, hbelow⟩
      exact ⟨htype, r, kind, hkind, hmem, hbelow⟩
  rw [mem_foldl_markListStale, hdirties]
  simp [hrefreshes]

theorem trackLists_notes {filter : Bool} {g g' : Graph ρ} {t : Task}
    (h : g.trackLists bank filter t = some g') : Notes bank g (.launched filter t) g' := by
  rw [trackLists] at h
  split at h
  · next htype =>
      have hdirties : forall s, ¬ListEvent.Dirties bank (.launched filter t) s :=
        fun s hd => hd.left htype
      split at h
      · next r hr =>
          cases filter with
          | false =>
              cases h
              refine notes_self ?_ hdirties
              rintro s ⟨t', heq, _⟩
              cases heq
          | true =>
              rw [if_pos rfl] at h
              split at h
              · cases h
              · cases h
                exact markListCurrent_notes bank g ⟨htype, hr⟩
      · next hnone =>
          cases h
          refine notes_self ?_ hdirties
          rintro s ⟨t', heq, hgenerates⟩
          cases heq
          have hsome := hgenerates.snode
          rw [hnone] at hsome
          cases hsome
  · next htype =>
      cases h
      exact foldl_markListStale_notes bank g filter htype

theorem insertTask_notes (bank : Bank ρ) (filter : Bool) (g : Graph ρ) (record : ρ) :
    Yields (g.insertTask bank filter record) fun r =>
      (r.2 = false -> r.1 = g) ∧
      (r.2 = true -> Notes bank g (.launched filter (bank.describe record).task) r.1) := by
  rw [insertTask]
  dsimp only
  split
  · refine .ok ⟨fun _ => rfl, ?_⟩
    intro h
    cases h
  · next g1 hsome =>
      have hnode : HasLists g1.currentLists (g1.newNodeOf record (bank.describe record)).1 :=
        adopt_lists (g := g1) rfl (bank.describe record)
      refine .bind (insertNode_lists hnode _) fun r h1 => .ok ⟨?_, ?_⟩
      · intro h
        cases h
      · intro _ s
        have hlists : r.1.currentLists = g1.currentLists := h1
        rw [hlists]
        exact trackLists_notes hsome s

def launched (bank : Bank ρ) (filter : Bool) : Graph ρ -> List ρ -> List Task
  | _, [] => []
  | g, record :: records =>
      match g.insertTask bank filter record with
      | .error _ => []
      | .ok (g', true) => (bank.describe record).task :: launched bank filter g' records
      | .ok (g', false) => launched bank filter g' records

theorem insertTasks_remembers {events : List ListEvent} {g : Graph ρ}
    (hg : g.Remembers bank events) (filter : Bool) (records : List ρ) :
    Yields (g.insertTasks bank filter records) fun r => r.1.Remembers bank
      (events ++ (g.launched bank filter records).map (.launched filter)) := by
  rw [insertTasks]
  generalize 0 = count
  induction records generalizing g events count with
  | nil =>
      rw [launched, List.map_nil, List.append_nil]
      exact .ok hg
  | cons record records ih =>
      intro r hr
      rw [List.foldlM_cons] at hr
      dsimp only at hr
      cases hrun : g.insertTask bank filter record with
      | error e =>
          rw [hrun] at hr
          cases hr
      | ok p =>
          rcases p with ⟨g1, inserted⟩
          rw [hrun] at hr
          have hnotes := insertTask_notes bank filter g record _ hrun
          cases inserted with
          | false =>
              rw [launched, hrun]
              cases hnotes.left rfl
              exact ih hg _ r hr
          | true =>
              rw [launched, hrun, List.map_cons, List.append_cons]
              exact ih ((hnotes.right rfl).remembers hg) _ r hr

end Graph

/-!
## Everything that a caller does
-/

namespace Session

variable {bank : Bank ρ} {s : Session ρ} {events : List ListEvent}

theorem perform_lists {a : Action ρ}
    (hquiet : forall filter records, a ≠ .insertTasks filter records) :
    Yields (s.perform bank a) fun s' => s'.graph.HasLists s.graph.currentLists := by
  have hs : s.graph.HasLists s.graph.currentLists := rfl
  cases a with
  | insertTasks filter records => exact absurd rfl (hquiet filter records)
  | newNode record => exact .ok (Graph.adopt_lists hs (bank.describe record))
  | insertNode n => exact .bind (Graph.insertNode_lists hs n) fun _ h1 => .ok h1
  | runPass pass => exact .bind (pass.run_lists bank s.graph) fun _ h1 => .ok h1
  | setWindow size => exact .ok hs
  | rebuild sort => exact .bind (Graph.rebuild_lists hs sort) fun _ h1 => .ok h1
  | sortPending => exact .bind (Graph.sortPending_lists hs) fun _ h1 => .ok h1
  | deleteNodes positions => exact .bind (Graph.deleteNodes_lists hs positions) fun _ h1 => .ok h1
  | extractPending => exact .bind (Graph.extractPending_lists hs) fun _ h1 => .ok h1
  | markExecuted => exact .ok hs
  | extractToExecute =>
      exact .bind_any fun _ => .bind (Graph.extractToExecute_lists hs) fun _ h1 => .ok h1
  | clear => exact .ok hs

theorem perform_insertTasks_remembers (hs : s.graph.Remembers bank events) (filter : Bool)
    (records : List ρ) :
    Yields (s.perform bank (.insertTasks filter records)) fun s' => s'.graph.Remembers bank
      (events ++ (s.graph.launched bank filter records).map (.launched filter)) :=
  .bind (Graph.insertTasks_remembers hs filter records) fun _ h1 => .ok h1

/-- The sessions that a caller gets to who also marks lists stale, each with what happened
that lists have to do with. -/
inductive Recorded (bank : Bank ρ) : Session ρ -> List ListEvent -> Prop where
  | start : Recorded bank .new []
  | launch {s s' : Session ρ} {events : List ListEvent} {filter : Bool} {records : List ρ}
      (before : Recorded bank s events)
      (performed : s.perform bank (.insertTasks filter records) = .ok s') :
      Recorded bank s' (events ++ (s.graph.launched bank filter records).map (.launched filter))
  | mark {s : Session ρ} {events : List ListEvent} (before : Recorded bank s events)
      (r : SNodeId) :
      Recorded bank { s with graph := s.graph.markListStale bank r } (events ++ [.marked r])
  | act {s s' : Session ρ} {events : List ListEvent} {a : Action ρ}
      (before : Recorded bank s events) (allowed : s.Allowed a)
      (quiet : forall filter records, a ≠ .insertTasks filter records)
      (performed : s.perform bank a = .ok s') : Recorded bank s' events

namespace Recorded

theorem consistent (h : Recorded bank s events) : s.graph.Consistent := by
  induction h with
  | start => exact Graph.new_settled.built.consistent
  | launch _ performed ih =>
      exact (perform_stepped (a := .insertTasks _ _) ih trivial performed).consistent
  | mark _ r ih => exact ih.withCounts ..
  | act _ allowed _ performed ih =>
      exact (perform_stepped ih allowed.deletable performed).consistent

theorem remembers (h : Recorded bank s events) : s.graph.Remembers bank events := by
  induction h with
  | start =>
      intro s
      exact iff_of_false (OrderedSet.not_mem_empty s) (not_refreshed_nil bank s)
  | launch _ performed ih => exact perform_insertTasks_remembers ih _ _ _ performed
  | mark _ r ih => exact (Graph.markListStale_notes bank _ r).remembers ih
  | act _ _ quiet performed ih => exact (perform_lists quiet _ performed).remembers ih

/-- A list is current exactly if it was generated with the filter on after everything that made
it stale.  Further launches go through, and a further mark makes the lists of the field and of
the fields below it stale and no other. -/
theorem current_iff_refreshed (h : Recorded bank s events) :
    (forall f, s.graph.isListCurrent f = true ↔ Refreshed bank events f) ∧
    (forall filter records, exists s', s.perform bank (.insertTasks filter records) = .ok s') ∧
    forall r f, (s.graph.markListStale bank r).isListCurrent f = true ↔
      s.graph.isListCurrent f = true ∧ ¬bank.Below r f := by
  refine ⟨?_, ?_, ?_⟩
  · intro f
    rw [Graph.isListCurrent, decide_eq_true_iff]
    exact h.remembers f
  · intro filter records
    rcases perform_insertTasks_ok h.consistent filter records with ⟨s', hrun, _⟩
    exact ⟨s', hrun⟩
  · intro r f
    rw [Graph.isListCurrent, Graph.isListCurrent, decide_eq_true_iff, decide_eq_true_iff]
    exact Graph.mem_markListStale

end Recorded

end Session

/-!
## Fields below themselves
-/

def Bank.mutual : Bank Task where
  describe t := ⟨t, none⟩
  children s := if s = ⟨0⟩ then [⟨1⟩, ⟨1⟩] else if s = ⟨1⟩ then [⟨0⟩] else []

theorem Bank.below_mutual {r s : SNodeId} (hr : r = ⟨0⟩ ∨ r = ⟨1⟩) (h : Bank.mutual.Below r s) :
    s = ⟨0⟩ ∨ s = ⟨1⟩ := by
  induction h with
  | refl => exact hr
  | tail _ hchild ih =>
      rcases ih with rfl | rfl
      · exact Or.inr (by simpa [Bank.mutual] using hchild)
      · exact Or.inl (by simpa [Bank.mutual] using hchild)

namespace Sample

def listApart : Task :=
  { name := "list_apart", taskType := .listgen, snode := some ⟨2⟩, inputs := .ofList [mask 2],
    outputs := .ofList [list 2] }

def listedThree : Session Task :=
  match Session.new.perform Bank.mutual (.insertTasks true [listAbove, listBelow, listApart]) with
  | .ok s => s
  | .error _ => .new

end Sample

namespace Session

/-- A mark of the second field also makes the list of the first one stale, which lies below. -/
theorem Recorded.current_iff_refreshed_mutual :
    exists events, Recorded Bank.mutual
        ⟨Sample.listedThree.graph.markListStale Bank.mutual ⟨1⟩, [], []⟩ events ∧
      (Sample.listedThree.graph.markListStale Bank.mutual ⟨1⟩).isListCurrent ⟨2⟩ = true ∧
      (Sample.listedThree.graph.markListStale Bank.mutual ⟨1⟩).isListCurrent ⟨0⟩ ≠ true := by
  have hlisted : Recorded Bank.mutual Sample.listedThree
      [.launched true Sample.listAbove, .launched true Sample.listBelow,
        .launched true Sample.listApart] :=
    @Recorded.launch Task Bank.mutual .new Sample.listedThree [] true
      [Sample.listAbove, Sample.listBelow, Sample.listApart] .start rfl
  have hmarked : Recorded Bank.mutual
      ⟨Sample.listedThree.graph.markListStale Bank.mutual ⟨1⟩, [], []⟩
      [.launched true Sample.listAbove, .launched true Sample.listBelow,
        .launched true Sample.listApart, .marked ⟨1⟩] := .mark hlisted ⟨1⟩
  refine ⟨_, hmarked, ?_, ?_⟩
  · refine ((current_iff_refreshed hmarked).left ⟨2⟩).mpr ?_
    refine ⟨[.launched true Sample.listAbove, .launched true Sample.listBelow], _,
      [.marked ⟨1⟩], rfl, ⟨Sample.listApart, rfl, rfl, rfl⟩, ?_⟩
    intro e he hdirties
    rw [List.mem_singleton.mp he] at hdirties
    rcases Bank.below_mutual (Or.inr rfl) hdirties with heq | heq
    · cases heq
    · cases heq
  · have hbelow : Bank.mutual.Below ⟨1⟩ ⟨0⟩ := .single (List.mem_singleton.mpr rfl)
    intro hcurrent
    have hkept := ((current_iff_refreshed hlisted).right.right ⟨1⟩ ⟨0⟩).mp hcurrent
    exact hkept.right hbelow

end Session

end LaunchGraph
