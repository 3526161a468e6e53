import LaunchGraph.Proofs.Graph.Order
import LaunchGraph.Proofs.Program

/-!
# The order that the sort makes

Whenever several pending nodes could come next, the sort takes the oldest of them,
and of equally old ones the one that was first before.  This determines the order:
a graph has at most one, and has one exactly if its pending nodes do not wait for
one another in a cycle.  A graph that is in this order already stays as it is, so
to sort it again changes nothing.

Nothing is supposed about the edges here: they may lead backward, and the ends of
an edge need not agree about it.
-/

namespace LaunchGraph

namespace Candidate

variable {α : Type}

/-!
## Taking candidates
-/

def Ahead (c d : Candidate α) : Prop :=
  c.seq < d.seq ∨ (c.seq = d.seq ∧ c.position ≤ d.position)

theorem Ahead.refl (c : Candidate α) : Ahead c c := Or.inr ⟨rfl, Nat.le_refl _⟩

theorem Ahead.trans {c d e : Candidate α} (hcd : Ahead c d) (hde : Ahead d e) : Ahead c e := by
  unfold Ahead at hcd hde ⊢
  omega

def Free (remaining : List (Candidate α)) (c : Candidate α) : Prop :=
  forall a, a ∈ remaining -> a.position ∉ c.after

theorem Free.of_subset {l m : List (Candidate α)} {c : Candidate α} (h : Free m c)
    (hlm : l ⊆ m) : Free l c :=
  fun a ha => h a (hlm ha)

structure First (remaining : List (Candidate α)) (c : Candidate α) : Prop where
  free : Free remaining c
  ahead : forall d, d ∈ remaining -> Free remaining d -> Ahead c d

def Greedy : List (Candidate α) -> Prop
  | [] => True
  | c :: rest => First (c :: rest) c ∧ Greedy rest

theorem Greedy.first {done rest : List (Candidate α)} {c : Candidate α}
    (h : Greedy (done ++ c :: rest)) : First (c :: rest) c := by
  induction done with
  | nil => exact h.left
  | cons d done ih => exact ih h.right

theorem ahead_of_foldl_older {l : List (Candidate α)} {start c : Candidate α}
    (hstart : forall d, d ∈ l -> start.position ≤ d.position)
    (hl : l.Pairwise (fun a b => a.position ≤ b.position))
    (h : l.foldl older (some start) = some c) :
    Ahead c start ∧ forall d, d ∈ l -> Ahead c d := by
  induction l generalizing start with
  | nil =>
      cases h
      exact ⟨Ahead.refl c, by simp⟩
  | cons b l ih =>
      rw [List.pairwise_cons] at hl
      rw [List.foldl_cons, older] at h
      by_cases hlt : b.seq < start.seq
      · rw [if_pos hlt] at h
        rcases ih hl.left hl.right h with ⟨hb, hrest⟩
        refine ⟨hb.trans (Or.inl hlt), ?_⟩
        intro d hd
        rcases List.mem_cons.mp hd with rfl | hd
        · exact hb
        · exact hrest d hd
      · rw [if_neg hlt] at h
        rcases ih (fun d hd => hstart d (List.mem_cons_of_mem _ hd)) hl.right h
          with ⟨hs, hrest⟩
        refine ⟨hs, ?_⟩
        intro d hd
        rcases List.mem_cons.mp hd with rfl | hd
        · have hle := hstart d (List.mem_cons_self ..)
          have hsd : Ahead start d := by
            unfold Ahead
            omega
          exact hs.trans hsd
        · exact hrest d hd

theorem next?_first {cs : List (Candidate α)} {c : Candidate α}
    (hcs : cs.Pairwise (fun a b => a.position ≤ b.position)) (h : next? cs = some c) :
    c ∈ cs ∧ First cs c := by
  rw [next?] at h
  have hsorted := hcs.sublist (List.filter_sublist (p := isReady (positions cs)))
  cases hready : cs.filter (isReady (positions cs)) with
  | nil =>
      rw [hready] at h
      cases h
  | cons b l =>
      have hmem : forall d, d ∈ b :: l -> d ∈ cs ∧ Free cs d := by
        intro d hd
        rw [← hready, List.mem_filter] at hd
        exact ⟨hd.left, isReady_iff.mp hd.right⟩
      rw [hready] at h hsorted
      rw [List.pairwise_cons] at hsorted
      have hc : c ∈ b :: l := by
        rcases exists_foldl_older (b :: l) none (Or.inl (by simp)) with ⟨d, hd, hor⟩
        rw [h] at hd
        cases hd
        rcases hor with hin | hnone
        · exact hin
        · cases hnone
      rcases ahead_of_foldl_older hsorted.left hsorted.right h with ⟨hb, hrest⟩
      refine ⟨(hmem c hc).left, (hmem c hc).right, ?_⟩
      intro d hd hfree
      have hin : d ∈ b :: l := by
        rw [← hready, List.mem_filter]
        exact ⟨hd, isReady_iff.mpr hfree⟩
      rcases List.mem_cons.mp hin with rfl | hin
      · exact hb
      · exact hrest d hin

theorem arrange_greedy {cs : List (Candidate α)} {items : List α}
    (hcs : cs.Pairwise (fun a b => a.position < b.position))
    (h : arrange cs.length cs = some items) :
    exists order : List (Candidate α),
      items = order.map (·.item) ∧ order.Perm cs ∧ Greedy order := by
  induction hn : cs.length generalizing cs items with
  | zero =>
      rw [List.length_eq_zero_iff.mp hn] at h
      cases h
      exact ⟨[], rfl, by rw [List.length_eq_zero_iff.mp hn], trivial⟩
  | succ n ih =>
      have hnodup : (cs.map (·.position)).Nodup := by
        rw [List.Nodup, List.pairwise_map]
        exact hcs.imp fun hlt => Nat.ne_of_lt hlt
      rw [hn, arrange] at h
      rcases Option.bind_eq_some_iff.mp h with ⟨c, hnext, h⟩
      rcases Option.bind_eq_some_iff.mp h with ⟨tail, htail, hitems⟩
      rcases next?_first (hcs.imp fun hlt => Nat.le_of_lt hlt) hnext with ⟨hc, hfirst⟩
      have hperm := perm_cons_filter hnodup hc
      have hlength := length_filter_of_mem hnodup hc hn
      rw [← hlength] at htail
      rcases ih (hcs.sublist List.filter_sublist) htail hlength
        with ⟨order, rfl, hperm', hgreedy⟩
      have hwhole := (hperm'.cons c).trans hperm
      refine ⟨c :: order, (Option.some.inj hitems).symm, hwhole, ⟨?_, ?_⟩, hgreedy⟩
      · exact hfirst.free.of_subset hwhole.subset
      · intro d hd hfree
        exact hfirst.ahead d (hwhole.mem_iff.mp hd) (hfree.of_subset hwhole.symm.subset)

end Candidate

namespace Graph

variable {ρ : Type} {g g' : Graph ρ}

/-!
## Orders of the pending nodes
-/

/-- An edge leads from a pending node to a pending node, as its source knows it. -/
def Blocks (g : Graph ρ) (u v : NodeKey) : Prop :=
  u ∈ g.pendingKeys ∧ v ∈ g.pendingKeys ∧ exists s, g.Leaves u v s

def Cyclic (g : Graph ρ) : Prop := exists k, Relation.TransGen g.Blocks k k

def ForwardIn (g : Graph ρ) (order : List NodeKey) : Prop :=
  forall u v, g.Blocks u v -> ComesBefore order u v

def ReadyAfter (g : Graph ρ) (done : List NodeKey) (v : NodeKey) : Prop :=
  forall u, g.Blocks u v -> u ∈ done

def seqOf (g : Graph ρ) (k : NodeKey) : Nat := ((g.find? k).map (·.seq)).getD 0

/-- The node under `u` is older, or as old and before the other one. -/
def Smaller (g : Graph ρ) (u v : NodeKey) : Prop :=
  g.seqOf u < g.seqOf v ∨ (g.seqOf u = g.seqOf v ∧ ComesBefore g.pendingKeys u v)

/-- An order of the pending nodes in which each is, of those that are ready when its
turn comes, the smallest. -/
structure SmallestFirst (g : Graph ρ) (order : List NodeKey) : Prop where
  perm : order.Perm g.pendingKeys
  ready : forall done v rest, order = done ++ v :: rest -> g.ReadyAfter done v
  smallest : forall done v rest, order = done ++ v :: rest ->
    forall w, w ∈ rest -> g.ReadyAfter done w -> g.Smaller v w

theorem seqOf_of_mem (hkeys : g.keys.Nodup) {v : Vertex ρ} (hv : v ∈ g.pending) :
    g.seqOf v.key = v.seq := by
  rw [seqOf, find?_of_mem hkeys (mem_vertices_of_pending hv)]
  rfl

theorem nodup_pendingKeys (hkeys : g.keys.Nodup) : g.pendingKeys.Nodup :=
  hkeys.sublist g.pendingKeys_sublist

theorem Smaller.asymm (hkeys : g.keys.Nodup) {u v : NodeKey} (huv : g.Smaller u v) :
    ¬g.Smaller v u := by
  intro hvu
  rcases huv with hlt | ⟨heq, hbefore⟩
  · rcases hvu with hlt' | ⟨heq', _⟩
    · exact Nat.lt_asymm hlt hlt'
    · exact Nat.lt_irrefl _ (heq' ▸ hlt)
  · rcases hvu with hlt' | ⟨_, hbefore'⟩
    · exact Nat.lt_irrefl _ (heq ▸ hlt')
    · exact hbefore.asymm (nodup_pendingKeys hkeys) hbefore'

namespace SmallestFirst

variable {order : List NodeKey}

theorem forwardIn (h : g.SmallestFirst order) : g.ForwardIn order := by
  intro u v huv
  have hv : v ∈ order := h.perm.mem_iff.mpr huv.right.left
  rcases List.append_of_mem hv with ⟨done, rest, hsplit⟩
  rw [hsplit, ComesBefore.append_iff]
  exact Or.inr (Or.inl ⟨h.ready done v rest hsplit u huv, by simp⟩)

theorem not_cyclic (hkeys : g.keys.Nodup) (h : g.SmallestFirst order) : ¬g.Cyclic := by
  rintro ⟨k, hk⟩
  have hnodup : order.Nodup := h.perm.nodup_iff.mpr (nodup_pendingKeys hkeys)
  have hforward : forall v, Relation.TransGen g.Blocks k v -> ComesBefore order k v := by
    intro v hv
    induction hv with
    | single hstep => exact h.forwardIn _ _ hstep
    | tail _ hstep ih => exact ih.trans hnodup (h.forwardIn _ _ hstep)
  exact ComesBefore.irrefl hnodup (hforward k hk)

theorem rest_unique (hkeys : g.keys.Nodup) {order' done rest rest' : List NodeKey}
    (h : g.SmallestFirst order) (h' : g.SmallestFirst order') (hsplit : order = done ++ rest)
    (hsplit' : order' = done ++ rest') : rest = rest' := by
  induction rest generalizing done rest' with
  | nil =>
      have hlength := (h.perm.trans h'.perm.symm).length_eq
      rw [hsplit, hsplit', List.length_append, List.length_append] at hlength
      have hnone : rest'.length = 0 := by
        rw [List.length_nil] at hlength
        omega
      exact (List.length_eq_zero_iff.mp hnone).symm
  | cons v rest ih =>
      have hperm : (v :: rest).Perm rest' := by
        refine (List.perm_append_left_iff done).mp ?_
        rw [← hsplit, ← hsplit']
        exact h.perm.trans h'.perm.symm
      cases rest' with
      | nil => exact absurd hperm.length_eq (by simp)
      | cons w rest' =>
          have hvw : v = w := by
            by_contra hne
            have hw : w ∈ rest := by
              have hin := hperm.mem_iff.mpr (List.mem_cons_self (a := w))
              exact (List.mem_cons.mp hin).resolve_left (Ne.symm hne)
            have hv : v ∈ rest' := by
              have hin := hperm.mem_iff.mp (List.mem_cons_self (a := v))
              exact (List.mem_cons.mp hin).resolve_left hne
            have hsmall := h.smallest _ _ _ hsplit w hw (h'.ready _ _ _ hsplit')
            exact hsmall.asymm hkeys (h'.smallest _ _ _ hsplit' v hv (h.ready _ _ _ hsplit))
          subst hvw
          have hnext : order = (done ++ [v]) ++ rest := by simp [hsplit]
          have hnext' : order' = (done ++ [v]) ++ rest' := by simp [hsplit']
          rw [ih hnext hnext']

theorem unique (hkeys : g.keys.Nodup) {order' : List NodeKey} (h : g.SmallestFirst order)
    (h' : g.SmallestFirst order') : order = order' :=
  h.rest_unique hkeys h' (List.nil_append order).symm (List.nil_append order').symm

theorem of_pending (hkeys : g.keys.Nodup) (hforward : g.ForwardIn g.pendingKeys)
    (hseq : g.pending.Pairwise (fun u v => u.seq ≤ v.seq)) : g.SmallestFirst g.pendingKeys := by
  have hnodup := nodup_pendingKeys hkeys
  have hseq' : g.pendingKeys.Pairwise (fun u v => g.seqOf u ≤ g.seqOf v) := by
    rw [pendingKeys, List.pairwise_map]
    refine hseq.imp_of_mem ?_
    intro u v hu hv hle
    rw [seqOf_of_mem hkeys hu, seqOf_of_mem hkeys hv]
    exact hle
  refine ⟨List.Perm.refl _, ?_, ?_⟩
  · intro done v rest hsplit u huv
    have hbefore := hforward u v huv
    rw [hsplit] at hnodup hbefore
    exact hbefore.mem_of_split hnodup
  · intro done v rest hsplit w hw _
    have hbefore : ComesBefore g.pendingKeys v w := by
      rw [hsplit, ComesBefore.append_iff, ComesBefore.cons_iff]
      exact Or.inr (Or.inr (Or.inl ⟨rfl, hw⟩))
    have hle := ComesBefore.of_pairwise hseq' hbefore
    rcases Nat.lt_or_eq_of_le hle with hlt | heq
    · exact Or.inl hlt
    · exact Or.inr ⟨heq, hbefore⟩

end SmallestFirst

/-!
## The sort makes this order
-/

theorem exists_candidate {k : NodeKey} (hk : k ∈ g.pendingKeys) :
    exists c, c ∈ g.candidates ∧ c.item.key = k := by
  rw [pendingKeys, ← map_item_candidates, List.map_map, List.mem_map] at hk
  exact hk

theorem candidate_eq_of_key (hkeys : g.keys.Nodup) {a b : Candidate (Vertex ρ)}
    (ha : a ∈ g.candidates) (hb : b ∈ g.candidates) (h : a.item.key = b.item.key) : a = b := by
  have hnodup : (g.candidates.map (fun c => c.item.key)).Nodup := by
    have hpending := nodup_pendingKeys hkeys
    rw [pendingKeys, ← map_item_candidates, List.map_map] at hpending
    exact hpending
  exact List.inj_on_of_nodup_map hnodup ha hb h

theorem seqOf_candidate (hkeys : g.keys.Nodup) {c : Candidate (Vertex ρ)}
    (hc : c ∈ g.candidates) : g.seqOf c.item.key = c.seq := by
  rw [seqOf_of_mem hkeys (item_mem_pending hc), (mem_candidates hc).right.left]

/-- A candidate is free if and only if its node is ready. -/
theorem free_iff_readyAfter (hkeys : g.keys.Nodup) {done rest : List (Candidate (Vertex ρ))}
    {c : Candidate (Vertex ρ)} (hperm : (done ++ rest).Perm g.candidates) (hc : c ∈ rest) :
    Candidate.Free rest c ↔ g.ReadyAfter (done.map (·.item.key)) c.item.key := by
  have hmem : forall a, a ∈ done ++ rest -> a ∈ g.candidates := fun a ha => hperm.mem_iff.mp ha
  have hcc := hmem c (List.mem_append_right _ hc)
  constructor
  · intro hfree u huc
    rcases exists_candidate huc.left with ⟨a, ha, rfl⟩
    have hafter := (position_mem_after_iff hkeys ha hcc).mpr huc.right.right
    rcases List.mem_append.mp (hperm.mem_iff.mpr ha) with hdone | hrest
    · exact List.mem_map_of_mem hdone
    · exact absurd hafter (hfree a hrest)
  · intro hready a ha hafter
    have hac := hmem a (List.mem_append_right _ ha)
    have hblocks : g.Blocks a.item.key c.item.key :=
      ⟨List.mem_map_of_mem (item_mem_pending hac), List.mem_map_of_mem (item_mem_pending hcc),
        (position_mem_after_iff hkeys hac hcc).mp hafter⟩
    rcases List.mem_map.mp (hready _ hblocks) with ⟨b, hb, hkey⟩
    have hba : b = a :=
      candidate_eq_of_key hkeys (hmem b (List.mem_append_left _ hb)) hac hkey
    have hnodup : (done ++ rest).Nodup :=
      hperm.nodup_iff.mpr (List.Nodup.of_map _ g.nodup_candidates)
    exact (List.nodup_append.mp hnodup).right.right b hb a ha hba

theorem smaller_of_ahead (hkeys : g.keys.Nodup) {c d : Candidate (Vertex ρ)}
    (hc : c ∈ g.candidates) (hd : d ∈ g.candidates) (hcd : c ≠ d) (h : Candidate.Ahead c d) :
    g.Smaller c.item.key d.item.key := by
  rw [Smaller, seqOf_candidate hkeys hc, seqOf_candidate hkeys hd]
  rcases h with hlt | ⟨heq, hle⟩
  · exact Or.inl hlt
  · refine Or.inr ⟨heq, ?_⟩
    have hne : c.position ≠ d.position := fun hp =>
      hcd (List.inj_on_of_nodup_map g.nodup_candidates hc hd hp)
    have hbefore := ComesBefore.of_getElem? (Nat.lt_of_le_of_ne hle hne) (mem_candidates hc).left
      (mem_candidates hd).left
    exact hbefore.map (fun v : Vertex ρ => v.key)

theorem candidates_by_position (g : Graph ρ) :
    g.candidates.Pairwise (fun a b => a.position < b.position) := by
  have hrange := List.pairwise_lt_range (n := g.pending.length)
  rw [← map_position_candidates, List.pairwise_map] at hrange
  exact hrange

/-- What the sort arranges is the pending nodes, the smallest first. -/
theorem arrange_smallestFirst (hkeys : g.keys.Nodup) {pending : List (Vertex ρ)}
    (h : Candidate.arrange g.pending.length g.candidates = some pending) :
    pending.Perm g.pending ∧ g.SmallestFirst (pending.map (·.key)) := by
  rw [← length_candidates] at h
  rcases Candidate.arrange_greedy g.candidates_by_position h with ⟨order, rfl, hperm, hgreedy⟩
  have hitems : (order.map (·.item)).Perm g.pending := by
    have hmapped := hperm.map (·.item)
    rw [map_item_candidates] at hmapped
    exact hmapped
  -- a split of the keys is the image of a split of the candidates
  have hsplit : forall done v rest, (order.map (·.item)).map (·.key) = done ++ v :: rest ->
      exists before c after, order = before ++ c :: after ∧ before.map (·.item.key) = done ∧
        c.item.key = v ∧ after.map (·.item.key) = rest := by
    intro done v rest hkeysplit
    rw [List.map_map] at hkeysplit
    rcases List.map_eq_append_iff.mp hkeysplit with ⟨before, tail, rfl, hbefore, htail⟩
    rcases List.map_eq_cons_iff.mp htail with ⟨c, after, rfl, hc, hafter⟩
    exact ⟨before, c, after, rfl, hbefore, hc, hafter⟩
  refine ⟨hitems, hitems.map (·.key), ?_, ?_⟩
  · intro done v rest heq
    rcases hsplit done v rest heq with ⟨before, c, after, rfl, rfl, rfl, _⟩
    exact (free_iff_readyAfter hkeys hperm (by simp)).mp hgreedy.first.free
  · intro done v rest heq w hw hready
    rcases hsplit done v rest heq with ⟨before, c, after, rfl, rfl, rfl, rfl⟩
    rcases List.mem_map.mp hw with ⟨d, hd, rfl⟩
    have hin : d ∈ c :: after := List.mem_cons_of_mem _ hd
    have hfree := (free_iff_readyAfter hkeys hperm hin).mpr hready
    have hnodup := hperm.nodup_iff.mpr (List.Nodup.of_map _ g.nodup_candidates)
    have hcd : c ≠ d := by
      rintro rfl
      have htail := (List.nodup_append.mp hnodup).right.left
      exact (List.nodup_cons.mp htail).left hd
    exact smaller_of_ahead hkeys (hperm.mem_iff.mp (by simp))
      (hperm.mem_iff.mp (List.mem_append_right _ hin)) hcd (hgreedy.first.ahead d hin hfree)

theorem exists_arrange (hkeys : g.keys.Nodup) (hacyclic : ¬g.Cyclic) :
    exists pending, Candidate.arrange g.pending.length g.candidates = some pending := by
  have hwaits : forall a b, Candidate.Waits g.candidates a b ->
      g.Blocks a.item.key b.item.key := by
    rintro a b ⟨ha, hb, hab⟩
    exact ⟨List.mem_map_of_mem (item_mem_pending ha), List.mem_map_of_mem (item_mem_pending hb),
      (position_mem_after_iff hkeys ha hb).mp hab⟩
  have hnocycle : forall c, ¬Relation.TransGen (Candidate.Waits g.candidates) c c := by
    intro c hc
    exact hacyclic ⟨_, Relation.TransGen.lift (fun c : Candidate (Vertex ρ) => c.item.key)
      hwaits c c hc⟩
  rcases Candidate.arrange_ok g.nodup_candidates hnocycle with ⟨order, horder, _, _⟩
  rw [length_candidates] at horder
  exact ⟨_, horder⟩

/-!
## The sort as a whole
-/

def placePending : Option (List (Vertex ρ)) -> ExceptT Fault (StateM (Graph ρ)) Unit
  | some pending => do
      modifyGet fun g => ((), { g with pending })
      modifyGet fun g => ((), g.renumberPending)
  | none => throw .pendingCycle

/-- The sort in place.  The sequence is written only once all nodes are arranged. -/
def sortInPlace : ExceptT Fault (StateM (Graph ρ)) Unit := do
  let g ← get
  placePending (Candidate.arrange g.pending.length g.candidates)

/-- In place, the sort leaves its result, or the graph as it was. -/
theorem sortInPlace_eq (g : Graph ρ) :
    sortInPlace.run.run g = match g.sortPending with
      | .ok g' => (.ok (), g')
      | .error e => (.error e, g) := by
  show (placePending (Candidate.arrange g.pending.length g.candidates)).run.run g = _
  rw [sortPending]
  cases Candidate.arrange g.pending.length g.candidates with
  | some pending => rfl
  | none => rfl

/-- The graph `g'` is `g` with its pending nodes in the order that takes the smallest
first, and renumbered. -/
structure Reordered (g g' : Graph ρ) : Prop where
  /-- Executed nodes, owners, readers and all counts are the same. -/
  rest : g' = { g with pending := g'.pending }
  /-- Every node is there still, and is the same but for its position. -/
  sameNodes : g.SameNodes g'
  leaves_iff : forall u v s, g'.Leaves u v s ↔ g.Leaves u v s
  enters_iff : forall u v s, g'.Enters u v s ↔ g.Enters u v s
  smallestFirst : g.SmallestFirst g'.pendingKeys
  forward : g'.ForwardIn g'.pendingKeys
  numbered : g'.PendingNumbered

theorem SameNodes.seqOf (h : g.SameNodes g') (k : NodeKey) : g'.seqOf k = g.seqOf k := by
  have hk := congrArg (Option.map fun v : Vertex ρ => v.seq) (h k)
  rw [Option.map_map, Option.map_map] at hk
  exact congrArg (Option.getD · 0) hk

theorem sortPending_reordered (hkeys : g.keys.Nodup) (hacyclic : ¬g.Cyclic) :
    exists g', g.sortPending = .ok g' ∧ g.Reordered g' := by
  rcases exists_arrange hkeys hacyclic with ⟨order, harrange⟩
  rcases arrange_smallestFirst hkeys harrange with ⟨hperm, hfirst⟩
  refine ⟨{ g with pending := order }.renumberPending, by rw [sortPending, harrange], ?_⟩
  have hvertices : ({ g with pending := order } : Graph ρ).vertices.Perm g.vertices :=
    hperm.append_left g.executed
  have hsame : g.SameNodes ({ g with pending := order } : Graph ρ).renumberPending :=
    (sameNodes_of_perm hkeys hvertices).trans (renumberPending_sameNodes _)
  have hpending : ({ g with pending := order } : Graph ρ).renumberPending.pendingKeys
      = order.map (·.key) := map_numberPending (fun _ _ _ => rfl) ..
  refine ⟨rfl, hsame, hsame.leaves_iff, hsame.enters_iff, ?_, ?_,
    renumberPending_pendingNumbered _⟩
  · rw [hpending]
    exact hfirst
  · rintro u v ⟨hu, hv, s, hs⟩
    rw [hpending] at hu hv ⊢
    refine hfirst.forwardIn u v ⟨hfirst.perm.mem_iff.mp hu, hfirst.perm.mem_iff.mp hv, s, ?_⟩
    exact (hsame.leaves_iff u v s).mp hs

theorem sortPending_error_iff (hkeys : g.keys.Nodup) :
    g.sortPending = .error .pendingCycle ↔ g.Cyclic := by
  constructor
  · intro herror
    by_contra hacyclic
    rcases sortPending_reordered hkeys hacyclic with ⟨g', hsort, _⟩
    cases herror.symm.trans hsort
  · intro hcyclic
    rw [sortPending]
    cases harrange : Candidate.arrange g.pending.length g.candidates with
    | none => rfl
    | some order =>
        exact absurd hcyclic ((arrange_smallestFirst hkeys harrange).right.not_cyclic hkeys)

theorem eq_of_perm_of_map_eq {α β : Type} {f : α -> β} {l m : List α} (hl : (l.map f).Nodup)
    (hperm : m.Perm l) (h : m.map f = l.map f) : m = l := by
  refine List.ext_getElem hperm.length_eq ?_
  intro i hm hl'
  have hi : f m[i] = f l[i] := by
    have hget := congrArg (·[i]?) h
    simpa [hm, hl'] using hget
  exact List.inj_on_of_nodup_map hl (hperm.mem_iff.mp (List.getElem_mem hm))
    (List.getElem_mem hl') hi

theorem sortPending_of_smallestFirst (hkeys : g.keys.Nodup)
    (h : g.SmallestFirst g.pendingKeys) : g.sortPending = .ok g.renumberPending := by
  rcases exists_arrange hkeys (h.not_cyclic hkeys) with ⟨order, harrange⟩
  rcases arrange_smallestFirst hkeys harrange with ⟨hperm, hfirst⟩
  have horder : order = g.pending :=
    eq_of_perm_of_map_eq (nodup_pendingKeys hkeys) hperm (hfirst.unique hkeys h)
  rw [sortPending, harrange, horder]

namespace Reordered

theorem perm_keys (h : g.Reordered g') : g'.keys.Perm g.keys := by
  have hexecuted : g'.executed = g.executed := by
    rw [h.rest]
    rfl
  rw [keys_eq_append, keys_eq_append, hexecuted]
  exact h.smallestFirst.perm.append_left _

theorem blocks_iff (h : g.Reordered g') (u v : NodeKey) : g'.Blocks u v ↔ g.Blocks u v := by
  unfold Blocks
  simp only [h.leaves_iff, h.smallestFirst.perm.mem_iff]

/-- The new order still takes the smallest first, by the new positions. -/
theorem again (h : g.Reordered g') : g'.SmallestFirst g'.pendingKeys := by
  have hready : forall done v, g'.ReadyAfter done v ↔ g.ReadyAfter done v := by
    intro done v
    unfold ReadyAfter
    simp only [h.blocks_iff]
  refine ⟨List.Perm.refl _, ?_, ?_⟩
  · intro done v rest hsplit
    exact (hready done v).mpr (h.smallestFirst.ready done v rest hsplit)
  · intro done v rest hsplit w hw hw'
    have hsmaller := h.smallestFirst.smallest done v rest hsplit w hw ((hready done w).mp hw')
    unfold Smaller at hsmaller ⊢
    rw [h.sameNodes.seqOf, h.sameNodes.seqOf]
    rcases hsmaller with hlt | ⟨heq, _⟩
    · exact Or.inl hlt
    · refine Or.inr ⟨heq, ?_⟩
      rw [hsplit, ComesBefore.append_iff, ComesBefore.cons_iff]
      exact Or.inr (Or.inr (Or.inl ⟨rfl, hw⟩))

end Reordered

/-- The sort fails exactly if the pending nodes wait for one another in a cycle, and
leaves the graph alone then.  Otherwise it makes the one order that takes the smallest
first, changes nothing else, and has nothing to do a second time. -/
theorem sortPending_smallest_first (hkeys : g.keys.Nodup) :
    (g.sortPending = .error .pendingCycle ↔ g.Cyclic) ∧
    (g.Cyclic -> sortInPlace.run.run g = (.error .pendingCycle, g)) ∧
    (¬g.Cyclic -> exists g', g.sortPending = .ok g' ∧ sortInPlace.run.run g = (.ok (), g') ∧
      g.Reordered g' ∧ (forall order, g.SmallestFirst order -> order = g'.pendingKeys) ∧
      g'.sortPending = .ok g') ∧
    (g.ForwardIn g.pendingKeys -> g.pending.Pairwise (fun u v => u.seq ≤ v.seq) ->
      g.sortPending = .ok g.renumberPending ∧ (g.PendingNumbered -> g.sortPending = .ok g)) := by
  refine ⟨sortPending_error_iff hkeys, ?_, ?_, ?_⟩
  · intro hcyclic
    rw [sortInPlace_eq, (sortPending_error_iff hkeys).mpr hcyclic]
  · intro hacyclic
    rcases sortPending_reordered hkeys hacyclic with ⟨g', hsort, hreordered⟩
    refine ⟨g', hsort, by rw [sortInPlace_eq, hsort], hreordered, ?_, ?_⟩
    · intro order horder
      exact horder.unique hkeys hreordered.smallestFirst
    · have hkeys' := hreordered.perm_keys.nodup_iff.mpr hkeys
      rw [sortPending_of_smallestFirst hkeys' hreordered.again,
        hreordered.numbered.renumberPending_eq]
  · intro hforward hseq
    have hsort := sortPending_of_smallestFirst hkeys (.of_pending hkeys hforward hseq)
    refine ⟨hsort, ?_⟩
    intro hnumbered
    rw [hsort, hnumbered.renumberPending_eq]

end Graph

namespace Sample

def clear : Program Task := .launch
  { name := "clear", taskType := .serial, outputs := .ofList [cell 2] }

def turned (first second : Program Task) : Graph (Program Task) :=
  match Graph.new.insertTasks bank false [first, second] with
  | .ok (g, _) => g.connect ⟨2⟩ ⟨1⟩ (cell 2)
  | .error _ => .new

end Sample

namespace Graph

theorem sortPending_smallest_first_turned :
    (Sample.turned Sample.fill Sample.copy).keys.Nodup ∧
    (Sample.turned Sample.fill Sample.copy).Cyclic ∧
    sortInPlace.run.run (Sample.turned Sample.fill Sample.copy)
      = (.error .pendingCycle, Sample.turned Sample.fill Sample.copy) ∧
    (Sample.turned Sample.fill Sample.clear).keys.Nodup ∧
    exists g', (Sample.turned Sample.fill Sample.clear).sortPending = .ok g' ∧
      (Sample.turned Sample.fill Sample.clear).Reordered g' ∧ g'.pendingKeys = [⟨2⟩, ⟨1⟩] ∧
      g'.sortPending = .ok g' := by
  have hknot : (Sample.turned Sample.fill Sample.copy).keys.Nodup := by decide +kernel
  have hturned : (Sample.turned Sample.fill Sample.clear).keys.Nodup := by decide +kernel
  have herror : (Sample.turned Sample.fill Sample.copy).sortPending = .error .pendingCycle := rfl
  have hcyclic := (sortPending_smallest_first hknot).left.mp herror
  have hkeys : ((Sample.turned Sample.fill Sample.clear).sortPending.map (·.pendingKeys))
      = .ok [⟨2⟩, ⟨1⟩] := rfl
  have hacyclic : ¬(Sample.turned Sample.fill Sample.clear).Cyclic := by
    intro h
    rw [(sortPending_smallest_first hturned).left.mpr h] at hkeys
    cases hkeys
  rcases (sortPending_smallest_first hturned).right.right.left hacyclic
    with ⟨g', hsort, _, hreordered, _, hagain⟩
  rw [hsort] at hkeys
  exact ⟨hknot, hcyclic, (sortPending_smallest_first hknot).right.left hcyclic, hturned, g', hsort,
    hreordered, Except.ok.inj hkeys, hagain⟩

end Graph

end LaunchGraph
