import LaunchGraph.Graph.Order
import LaunchGraph.Proofs.Graph.Consistent
import LaunchGraph.Proofs.Graph.Places

/-!
# Putting pending nodes in order

The sort takes away one ready candidate after the other.  It goes through if the
candidates do not wait for one another in a cycle, and then nothing waits for what
comes later.  Candidates that are in such an order already, oldest first, stay as
they are.
-/

namespace LaunchGraph

/-- Where a relation has no cycle, a list has an item with none before it. -/
theorem exists_minimal {α : Type} {R : α -> α -> Prop} {l : List α} (hl : l ≠ [])
    (hacyclic : forall a, ¬Relation.TransGen R a a) :
    exists m, m ∈ l ∧ forall x, x ∈ l -> ¬Relation.TransGen R x m := by
  induction l with
  | nil => exact absurd rfl hl
  | cons a l ih =>
      cases hrest : l with
      | nil =>
          refine ⟨a, by simp, ?_⟩
          intro x hx
          rw [List.mem_singleton.mp hx]
          exact hacyclic a
      | cons b rest =>
          rcases ih (by simp [hrest]) with ⟨m, hm, hmin⟩
          rw [← hrest]
          by_cases ham : Relation.TransGen R a m
          · refine ⟨a, by simp, ?_⟩
            intro x hx hxa
            rcases List.mem_cons.mp hx with rfl | hx
            · exact hacyclic x hxa
            · exact hmin x hx (hxa.trans ham)
          · refine ⟨m, List.mem_cons_of_mem _ hm, ?_⟩
            intro x hx hxm
            rcases List.mem_cons.mp hx with rfl | hx
            · exact ham hxm
            · exact hmin x hx hxm

namespace Candidate

variable {α : Type}

/-- Of two candidates in `cs`, `b` has to wait for `a`. -/
def Waits (cs : List (Candidate α)) (a b : Candidate α) : Prop :=
  a ∈ cs ∧ b ∈ cs ∧ a.position ∈ b.after

theorem isReady_iff {cs : List (Candidate α)} {c : Candidate α} :
    c.isReady (positions cs) = true ↔ forall a, a ∈ cs -> a.position ∉ c.after := by
  rw [isReady, IndexSet.isEmpty_iff]
  constructor
  · intro h a ha hafter
    refine h a.position (IndexSet.mem_inter.mpr ⟨hafter, ?_⟩)
    exact IndexSet.mem_ofList.mpr (List.mem_map_of_mem ha)
  · intro h i hi
    rcases IndexSet.mem_inter.mp hi with ⟨hafter, hposition⟩
    rcases List.mem_map.mp (IndexSet.mem_ofList.mp hposition) with ⟨a, ha, rfl⟩
    exact h a ha hafter

theorem exists_older (a : Option (Candidate α)) (b : Candidate α) :
    exists c, older a b = some c ∧ (c = b ∨ a = some c) := by
  cases a with
  | none => exact ⟨b, rfl, Or.inl rfl⟩
  | some a =>
      rw [older]
      split
      · exact ⟨b, rfl, Or.inl rfl⟩
      · exact ⟨a, rfl, Or.inr rfl⟩

theorem exists_foldl_older (l : List (Candidate α)) (a : Option (Candidate α))
    (h : l ≠ [] ∨ a ≠ none) :
    exists c, l.foldl older a = some c ∧ (c ∈ l ∨ a = some c) := by
  induction l generalizing a with
  | nil =>
      rcases h with h | h
      · exact absurd rfl h
      · rcases Option.ne_none_iff_exists'.mp h with ⟨c, rfl⟩
        exact ⟨c, rfl, Or.inr rfl⟩
  | cons b l ih =>
      rcases exists_older a b with ⟨c, hc, hor⟩
      rw [List.foldl_cons, hc]
      rcases ih (some c) (Or.inr (by simp)) with ⟨d, hd, hmem⟩
      refine ⟨d, hd, ?_⟩
      rcases hmem with hmem | hmem
      · exact Or.inl (List.mem_cons_of_mem _ hmem)
      · cases hmem
        rcases hor with rfl | hor
        · exact Or.inl (by simp)
        · exact Or.inr hor

theorem next?_ok {cs : List (Candidate α)} {m : Candidate α} (hm : m ∈ cs)
    (hready : forall a, a ∈ cs -> a.position ∉ m.after) :
    exists c, next? cs = some c ∧ c ∈ cs ∧ forall a, a ∈ cs -> a.position ∉ c.after := by
  have hne : cs.filter (isReady (positions cs)) ≠ [] := by
    intro hnil
    have hin : m ∈ cs.filter (isReady (positions cs)) :=
      List.mem_filter.mpr ⟨hm, isReady_iff.mpr hready⟩
    rw [hnil] at hin
    cases hin
  rcases exists_foldl_older _ none (Or.inl hne) with ⟨c, hc, hmem | hmem⟩
  · rcases List.mem_filter.mp hmem with ⟨hcs, hc'⟩
    exact ⟨c, hc, hcs, isReady_iff.mp hc'⟩
  · cases hmem

theorem perm_cons_filter {cs : List (Candidate α)} (hnodup : (cs.map (·.position)).Nodup)
    {c : Candidate α} (hc : c ∈ cs) :
    (c :: cs.filter (·.position != c.position)).Perm cs := by
  induction cs with
  | nil => cases hc
  | cons d cs ih =>
      rw [List.map_cons, List.nodup_cons] at hnodup
      by_cases hd : d.position = c.position
      · have hcd : c = d := by
          rcases List.mem_cons.mp hc with heq | hc'
          · exact heq
          · exact absurd (hd ▸ List.mem_map_of_mem hc') hnodup.left
        subst hcd
        have hall : cs.filter (·.position != c.position) = cs := by
          rw [List.filter_eq_self]
          intro a ha
          rw [bne_iff_ne]
          intro heq
          exact hnodup.left (heq ▸ List.mem_map_of_mem ha)
        rw [List.filter_cons_of_neg (by simp), hall]
      · have hc' : c ∈ cs := by
          rcases List.mem_cons.mp hc with heq | hc'
          · exact absurd (congrArg Candidate.position heq).symm hd
          · exact hc'
        rw [List.filter_cons_of_pos (by simpa using hd)]
        exact (List.Perm.swap d c _).trans ((ih hnodup.right hc').cons d)

theorem length_filter_of_mem {cs : List (Candidate α)} (hnodup : (cs.map (·.position)).Nodup)
    {c : Candidate α} (hc : c ∈ cs) {n : Nat} (hn : cs.length = n + 1) :
    (cs.filter (·.position != c.position)).length = n := by
  have hcount := (perm_cons_filter hnodup hc).length_eq
  rw [List.length_cons, hn] at hcount
  exact Nat.succ.inj hcount

theorem arrange_ok {cs : List (Candidate α)} (hnodup : (cs.map (·.position)).Nodup)
    (hacyclic : forall c, ¬Relation.TransGen (Waits cs) c c) :
    exists order : List (Candidate α),
      arrange cs.length cs = some (order.map (·.item)) ∧ order.Perm cs ∧
      order.Pairwise (fun a b => b.position ∉ a.after) := by
  induction hn : cs.length generalizing cs with
  | zero =>
      rw [List.length_eq_zero_iff.mp hn]
      exact ⟨[], rfl, List.Perm.nil, List.Pairwise.nil⟩
  | succ n ih =>
      have hne : cs ≠ [] := by
        intro hnil
        rw [hnil] at hn
        cases hn
      rcases exists_minimal hne hacyclic with ⟨m, hm, hmin⟩
      rcases next?_ok hm (fun a ha hafter => hmin a ha (.single ⟨ha, hm, hafter⟩))
        with ⟨c, hnext, hc, hready⟩
      have hperm := perm_cons_filter hnodup hc
      have hlength := length_filter_of_mem hnodup hc hn
      have hsub : forall a, a ∈ cs.filter (·.position != c.position) -> a ∈ cs :=
        fun a ha => (List.mem_filter.mp ha).left
      have hnodup' : ((cs.filter (·.position != c.position)).map (·.position)).Nodup :=
        hnodup.sublist (List.Sublist.map _ List.filter_sublist)
      have hacyclic' : forall d,
          ¬Relation.TransGen (Waits (cs.filter (·.position != c.position))) d d := by
        intro d hd
        have hsmaller : Waits (cs.filter (·.position != c.position)) ≤ Waits cs := by
          rintro a b ⟨ha, hb, hab⟩
          exact ⟨hsub a ha, hsub b hb, hab⟩
        exact hacyclic d (Relation.TransGen.mono hsmaller d d hd)
      rcases ih hnodup' hacyclic' hlength with ⟨order, horder, hperm', hpairwise⟩
      refine ⟨c :: order, ?_, (hperm'.cons c).trans hperm, ?_⟩
      · rw [arrange, hnext]
        show (arrange n _ >>= fun rest => some (c.item :: rest)) = _
        rw [horder]
        rfl
      · rw [List.pairwise_cons]
        refine ⟨?_, hpairwise⟩
        intro b hb
        exact hready b (hsub b (hperm'.mem_iff.mp hb))

theorem foldl_older_some {c : Candidate α} {l : List (Candidate α)}
    (h : forall a, a ∈ l -> c.seq < a.seq) : l.foldl older (some c) = some c := by
  induction l with
  | nil => rfl
  | cons a l ih =>
      have hlt := h a (by simp)
      rw [List.foldl_cons, older, if_neg (Nat.lt_asymm hlt)]
      exact ih (fun b hb => h b (List.mem_cons_of_mem _ hb))

/-- Candidates in order of age, none of which waits for a later one or itself, are
in the order that the sort makes. -/
theorem arrange_sorted {cs : List (Candidate α)} (hnodup : (cs.map (·.position)).Nodup)
    (hself : forall c, c ∈ cs -> c.position ∉ c.after)
    (hpairwise : cs.Pairwise (fun a b => a.seq < b.seq ∧ b.position ∉ a.after)) :
    arrange cs.length cs = some (cs.map (·.item)) := by
  induction cs with
  | nil => rfl
  | cons c cs ih =>
      rw [List.pairwise_cons] at hpairwise
      rw [List.map_cons, List.nodup_cons] at hnodup
      have hready : c.isReady (positions (c :: cs)) = true := by
        rw [isReady_iff]
        intro a ha
        rcases List.mem_cons.mp ha with rfl | ha
        · exact hself a (by simp)
        · exact (hpairwise.left a ha).right
      have hnext : next? (c :: cs) = some c := by
        rw [next?, List.filter_cons_of_pos hready, List.foldl_cons]
        refine foldl_older_some ?_
        intro a ha
        exact (hpairwise.left a (List.mem_filter.mp ha).left).left
      have hrest : (c :: cs).filter (·.position != c.position) = cs := by
        rw [List.filter_cons_of_neg (by simp), List.filter_eq_self]
        intro a ha
        rw [bne_iff_ne]
        intro heq
        exact hnodup.left (heq ▸ List.mem_map_of_mem ha)
      rw [List.length_cons, arrange, hnext]
      show (arrange cs.length _ >>= fun rest => some (c.item :: rest)) = _
      rw [hrest, ih hnodup.right (fun a ha => hself a (List.mem_cons_of_mem _ ha))
        hpairwise.right]
      rfl

end Candidate

namespace Graph

variable {ρ : Type}

/-!
## Pending nodes as candidates
-/

theorem mem_positionsInto {k : NodeKey} {targets : List (Nat × List NodeKey)} {i : Nat} :
    i ∈ positionsInto k targets ↔ exists ks, (i, ks) ∈ targets ∧ k ∈ ks := by
  rw [positionsInto, IndexSet.mem_ofList, List.mem_map]
  constructor
  · rintro ⟨⟨j, ks⟩, hmem, rfl⟩
    rcases List.mem_filter.mp hmem with ⟨hin, hk⟩
    exact ⟨ks, hin, decide_eq_true_iff.mp hk⟩
  · rintro ⟨ks, hin, hk⟩
    exact ⟨(i, ks), List.mem_filter.mpr ⟨hin, decide_eq_true_iff.mpr hk⟩, rfl⟩

theorem length_candidates (g : Graph ρ) : g.candidates.length = g.pending.length :=
  List.length_mapIdx

theorem map_item_candidates (g : Graph ρ) : g.candidates.map (·.item) = g.pending := by
  apply List.ext_getElem
  · simp [candidates]
  · intro n h1 h2
    simp [candidates]

theorem map_position_candidates (g : Graph ρ) :
    g.candidates.map (·.position) = List.range g.pending.length := by
  apply List.ext_getElem
  · simp [candidates]
  · intro n h1 h2
    simp [candidates]

theorem nodup_candidates (g : Graph ρ) : (g.candidates.map (·.position)).Nodup := by
  rw [map_position_candidates]
  exact List.nodup_range

theorem mem_candidates {g : Graph ρ} {c : Candidate (Vertex ρ)} (hc : c ∈ g.candidates) :
    g.pending[c.position]? = some c.item ∧ c.seq = c.item.seq ∧
      c.after = positionsInto c.item.key
        (g.pending.mapIdx fun j u => (j, u.outputs.neighbors)) := by
  rcases List.mem_mapIdx.mp hc with ⟨i, hi, rfl⟩
  exact ⟨List.getElem?_eq_getElem hi, rfl, rfl⟩

theorem item_mem_pending {g : Graph ρ} {c : Candidate (Vertex ρ)} (hc : c ∈ g.candidates) :
    c.item ∈ g.pending :=
  List.mem_of_getElem? (mem_candidates hc).left

theorem exists_leaves_iff {g : Graph ρ} (hkeys : g.keys.Nodup) {v : Vertex ρ} (hv : v ∈ g.pending)
    {k : NodeKey} : (exists s, g.Leaves v.key k s) ↔ k ∈ v.outputs.neighbors := by
  have hout : g.outputsOf v.key = v.outputs :=
    outputsOf_of_find? (find?_of_mem hkeys (mem_vertices_of_pending hv))
  simp only [Leaves, hout, Links.mem_neighbors]

theorem position_mem_after_iff {g : Graph ρ} (hkeys : g.keys.Nodup) {a b : Candidate (Vertex ρ)}
    (ha : a ∈ g.candidates) (hb : b ∈ g.candidates) :
    a.position ∈ b.after ↔ exists s, g.Leaves a.item.key b.item.key s := by
  rcases mem_candidates ha with ⟨hat, _, _⟩
  rcases mem_candidates hb with ⟨_, _, hafter⟩
  rw [hafter, mem_positionsInto, exists_leaves_iff hkeys (item_mem_pending ha)]
  constructor
  · rintro ⟨ks, hin, hk⟩
    rcases List.mem_mapIdx.mp hin with ⟨j, hj, heq⟩
    cases heq
    rw [List.getElem?_eq_getElem hj] at hat
    rw [← Option.some.inj hat]
    exact hk
  · intro hk
    refine ⟨a.item.outputs.neighbors, ?_, hk⟩
    rcases List.getElem?_eq_some_iff.mp hat with ⟨hj, hitem⟩
    refine List.mem_mapIdx.mpr ⟨a.position, hj, ?_⟩
    rw [hitem]

/-!
## The sort of a graph
-/

def Precedes (g : Graph ρ) (u v : NodeKey) : Prop := u ∈ g.pendingKeys ∧ exists s, g.Enters u v s

structure Sorted (g : Graph ρ) (order : List (Vertex ρ)) (g' : Graph ρ) : Prop where
  eq : g' = { g with pending := order }.renumberPending
  perm : order.Perm g.pending
  forward : (order.map (·.key)).Pairwise (fun u v => forall s, ¬g.Enters v u s)

theorem sortPending_ok {g : Graph ρ} (hg : g.Sound)
    (hacyclic : forall k, ¬Relation.TransGen g.Precedes k k) :
    exists order g', g.sortPending = .ok g' ∧ g.Sorted order g' := by
  have hwaits : forall a b, Candidate.Waits g.candidates a b ->
      g.Precedes a.item.key b.item.key := by
    rintro a b ⟨ha, hb, hab⟩
    rcases (position_mem_after_iff hg.keyed.nodup ha hb).mp hab with ⟨s, hs⟩
    exact ⟨List.mem_map_of_mem (item_mem_pending ha), s, (hg.wired.mirrored _ _ s).mp hs⟩
  have hnocycle : forall c, ¬Relation.TransGen (Candidate.Waits g.candidates) c c := by
    intro c hc
    exact hacyclic _ (Relation.TransGen.lift (fun c : Candidate (Vertex ρ) => c.item.key)
      hwaits c c hc)
  rcases Candidate.arrange_ok g.nodup_candidates hnocycle with ⟨order, horder, hperm, hafter⟩
  refine ⟨order.map (·.item), _, ?_, rfl, ?_, ?_⟩
  · rw [sortPending, ← length_candidates, horder]
  · have hitems := hperm.map (·.item)
    rw [map_item_candidates] at hitems
    exact hitems
  · rw [List.map_map, List.pairwise_map]
    refine hafter.imp_of_mem ?_
    intro a b ha hb hnot s hs
    refine hnot ((position_mem_after_iff hg.keyed.nodup (hperm.mem_iff.mp hb)
      (hperm.mem_iff.mp ha)).mpr ⟨s, ?_⟩)
    exact (hg.wired.mirrored _ _ s).mpr hs

namespace Sorted

variable {g g' : Graph ρ} {order : List (Vertex ρ)}

theorem executed (h : g.Sorted order g') : g'.executed = g.executed := by
  rw [h.eq]
  rfl

theorem owners (h : g.Sorted order g') : g'.owners = g.owners := by
  rw [h.eq]
  rfl

theorem readers (h : g.Sorted order g') : g'.readers = g.readers := by
  rw [h.eq]
  rfl

theorem map_pending {β : Type} {f : Vertex ρ -> β}
    (hf : forall v i p, f (v.update (·.renumbered i p)) = f v) (h : g.Sorted order g') :
    g'.pending.map f = order.map f := by
  rw [h.eq]
  exact map_numberPending hf ..

theorem pendingKeys (h : g.Sorted order g') : g'.pendingKeys = order.map (·.key) :=
  h.map_pending fun _ _ _ => rfl

theorem mem_pendingKeys (h : g.Sorted order g') {k : NodeKey} :
    k ∈ g'.pendingKeys ↔ k ∈ g.pendingKeys := by
  rw [h.pendingKeys]
  exact (h.perm.map fun v : Vertex ρ => v.key).mem_iff

theorem perm_keys (h : g.Sorted order g') : g'.keys.Perm g.keys := by
  rw [keys_eq_append, keys_eq_append, h.executed, h.pendingKeys]
  exact (h.perm.map fun v : Vertex ρ => v.key).append_left _

theorem sameNodes (h : g.Sorted order g') (hg : g.Keyed) : g.SameNodes g' := by
  have hperm : ({ g with pending := order } : Graph ρ).vertices.Perm g.vertices :=
    h.perm.append_left g.executed
  rw [h.eq]
  exact (sameNodes_of_perm hg.nodup hperm).trans (renumberPending_sameNodes _)

theorem sound (h : g.Sorted order g') (hg : g.Sound) : g'.Sound := by
  have hsame := h.sameNodes hg.keyed
  refine ⟨⟨?_, ?_⟩, ?_, ⟨?_, ?_⟩, ⟨?_, ?_, ?_⟩⟩
  · exact h.perm_keys.nodup_iff.mpr hg.keyed.nodup
  · intro k hk
    have hstamp : g'.nextStamp = g.nextStamp := by
      rw [h.eq]
      rfl
    rw [hstamp]
    exact hg.keyed.stamp_lt k (h.perm_keys.mem_iff.mp hk)
  · rw [h.eq]
    refine renumberPending_numbered hg.numbered.executed_nodeIds hg.numbered.executedIds
      hg.numbered.initial ?_
    intro v hv
    refine hg.numbered.later v ?_
    rcases List.mem_append.mp hv with hv | hv
    · exact List.mem_append_left _ hv
    · exact List.mem_append_right _ (h.perm.mem_iff.mp hv)
  · intro u v s
    rw [hsame.leaves_iff, hsame.enters_iff, hg.wired.mirrored]
  · intro u v s huv
    rw [h.mem_pendingKeys]
    exact hg.wired.target_pending u v s ((hsame.enters_iff u v s).mp huv)
  · intro s k hk
    rw [h.owners] at hk
    exact hsame.mem_keys (hg.owned.owner_mem s k hk)
  · intro s k hk hnot
    rw [h.owners] at hk
    rw [h.mem_pendingKeys] at hnot
    exact hsame.writesAt (hg.owned.executed_writes s k hk hnot)
  · intro s k hk
    rw [h.readers] at hk
    rw [h.mem_pendingKeys]
    exact hg.owned.readers_pending s k hk

theorem leads_forward (h : g.Sorted order g') (hg : g.Sound)
    (hself : forall k s, ¬g.Enters k k s) : g'.Forward := by
  have hsame := h.sameNodes hg.keyed
  intro u v s huv
  rw [hsame.enters_iff] at huv
  have hv := hg.wired.target_pending u v s huv
  have hu := hg.wired.source_mem huv
  rw [keys_eq_append] at hu
  rw [keys_eq_append, h.executed, h.pendingKeys, ComesBefore.append_iff]
  have hmem : forall k, k ∈ order.map (·.key) ↔ k ∈ g.pendingKeys := by
    intro k
    rw [← h.pendingKeys]
    exact h.mem_pendingKeys
  rcases List.mem_append.mp hu with hu | hu
  · exact Or.inr (Or.inl ⟨hu, (hmem v).mpr hv⟩)
  · have hne : u ≠ v := by
      rintro rfl
      exact hself u s huv
    rcases ComesBefore.total ((hmem u).mpr hu) ((hmem v).mpr hv) hne with hbefore | hafter
    · exact Or.inr (Or.inr hbefore)
    · exact absurd huv (ComesBefore.of_pairwise h.forward hafter s)

end Sorted

def PendingNumbered (g : Graph ρ) : Prop :=
  forall i v, g.pending[i]? = some v -> v.nodeId = g.firstPending + i ∧ v.pendingId = some i

theorem renumberPending_pendingNumbered (g : Graph ρ) : g.renumberPending.PendingNumbered := by
  intro i v hv
  have hget : (numberPending g.pending g.firstPending 0)[i]? = some v := hv
  rw [numberPending, List.getElem?_mapIdx, Option.map_eq_some_iff] at hget
  rcases hget with ⟨w, _, rfl⟩
  exact ⟨rfl, congrArg some (Nat.zero_add i)⟩

theorem PendingNumbered.renumberPending_eq {g : Graph ρ} (hg : g.PendingNumbered) :
    g.renumberPending = g := by
  have hpending : numberPending g.pending g.firstPending 0 = g.pending := by
    apply List.ext_getElem
    · exact length_numberPending ..
    · intro i h1 h2
      have hvertex : (numberPending g.pending g.firstPending 0)[i]
          = (g.pending[i]).update (·.renumbered (g.firstPending + i) (some i)) := by
        simp [numberPending]
      rcases hg i _ (List.getElem?_eq_getElem h2) with ⟨hid, hpid⟩
      rw [hvertex, ← hid, ← hpid]
      rfl
  rw [renumberPending, hpending]

theorem Numbered.pendingNumbered {g : Graph ρ} (hg : g.Numbered) : g.PendingNumbered := by
  intro i v hv
  have hi : i < g.pending.length := (List.getElem?_eq_some_iff.mp hv).choose
  constructor
  · have hlt : g.firstPending + i < g.vertices.length := by
      rw [vertices, List.length_append]
      exact Nat.add_lt_add_left hi _
    have hget := congrArg (fun l => l[g.firstPending + i]?) hg.nodeIds
    rw [List.getElem?_map, size, List.getElem?_range hlt, vertices, firstPending,
      List.getElem?_append_right (Nat.le_add_right ..), Nat.add_sub_cancel_left, hv] at hget
    exact Option.some.inj hget
  · have hget := congrArg (fun l => l[i]?) hg.pendingIds
    rw [List.getElem?_map, List.getElem?_map, pendingCount, List.getElem?_range hi, hv] at hget
    exact Option.some.inj hget

/-- A graph in order of age whose edges lead forward stays as it is. -/
theorem sortPending_eq {g : Graph ρ} (hg : g.Sound) (hf : g.Forward) (ha : g.Aged) :
    g.sortPending = .ok g := by
  have hnotafter : forall a b, a ∈ g.candidates -> b ∈ g.candidates ->
      ¬ComesBefore g.keys b.item.key a.item.key -> b.position ∉ a.after := by
    intro a b hca hcb hnot hafter
    rcases (position_mem_after_iff hg.keyed.nodup hcb hca).mp hafter with ⟨s, hs⟩
    exact hnot (hf _ _ s ((hg.wired.mirrored _ _ s).mp hs))
  have hbefore : g.candidates.Pairwise
      (fun a b => a.seq < b.seq ∧ ComesBefore g.keys a.item.key b.item.key) := by
    have hseq : g.candidates.Pairwise (fun a b => a.item.seq < b.item.seq) := by
      have hincreasing := ha.increasing
      rw [← map_item_candidates, List.map_map, List.pairwise_map] at hincreasing
      exact hincreasing
    have hkeys : g.candidates.Pairwise
        (fun a b => ComesBefore g.keys a.item.key b.item.key) := by
      have hpending := ComesBefore.pairwise g.pendingKeys
      rw [Graph.pendingKeys, ← map_item_candidates, List.map_map, List.pairwise_map] at hpending
      refine hpending.imp ?_
      intro a b hab
      rw [← List.map_map, map_item_candidates] at hab
      exact hab.of_sublist g.pendingKeys_sublist
    refine (hseq.and hkeys).imp_of_mem ?_
    rintro a b hca hcb ⟨hlt, hkey⟩
    rw [(mem_candidates hca).right.left, (mem_candidates hcb).right.left]
    exact ⟨hlt, hkey⟩
  have harrange := Candidate.arrange_sorted g.nodup_candidates
    (fun c hc => hnotafter c c hc hc (ComesBefore.irrefl hg.keyed.nodup))
    (hbefore.imp_of_mem fun hca hcb hab => ⟨hab.left, hnotafter _ _ hca hcb
      (ComesBefore.asymm hg.keyed.nodup hab.right)⟩)
  rw [length_candidates, map_item_candidates] at harrange
  rw [sortPending, harrange]
  exact congrArg Except.ok hg.numbered.pendingNumbered.renumberPending_eq

end Graph
end LaunchGraph
