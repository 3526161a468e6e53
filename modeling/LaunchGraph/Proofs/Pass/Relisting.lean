import LaunchGraph.Proofs.Graph.Roots
import LaunchGraph.Proofs.ReadSources

/-!
# What the removal of list generations leaves

A list generation that goes has the inputs of the one that stays in its place, from the same
nearest writers, and no list generation that is left writes the list between the two.  If list
generations write nothing but their lists, then what was nearest before a node is, once
redundant nodes are gone, nearest through the one that stays in its place, and states from
outside come from where they came from.
-/

namespace LaunchGraph

variable {ρ : Type}

theorem NearestWriter.pairs {origin : State -> NodeKey} (origin' : State -> NodeKey) {t : State}
    {pairs : List (Vertex ρ × Vertex ρ)} (hsame : forall p, p ∈ pairs -> p.2.task = p.1.task)
    {u : NodeKey} (h : NearestWriter origin t ((pairs.map (·.1)).map Vertex.entry) u) :
    exists u', NearestWriter origin' t ((pairs.map (·.2)).map Vertex.entry) u' ∧
      ((exists p, p ∈ pairs ∧ p.1.key = u ∧ p.2.key = u') ∨ (u = origin t ∧ u' = origin' t)) := by
  induction pairs using List.reverseRecOn with
  | nil => exact ⟨_, nearestWriter_nil.mpr rfl, Or.inr ⟨nearestWriter_nil.mp h, rfl⟩⟩
  | append_singleton pairs p ih =>
      have htask : p.2.task = p.1.task := hsame p (by simp)
      rw [List.map_append, List.map_append, List.map_singleton, List.map_singleton,
        nearestWriter_append_singleton] at h
      rw [List.map_append, List.map_append, List.map_singleton, List.map_singleton]
      rcases h with ⟨hwrites, rfl⟩ | ⟨hquiet, h⟩
      · refine ⟨p.2.key, nearestWriter_append_singleton.mpr (Or.inl ⟨?_, rfl⟩),
          Or.inl ⟨p, by simp, rfl, rfl⟩⟩
        exact (congrArg (fun t : Task => t.writes _) htask).trans hwrites
      · rcases ih (fun q hq => hsame q (List.mem_append_left _ hq)) h with ⟨u', hu', hcases⟩
        refine ⟨u', nearestWriter_append_singleton.mpr (Or.inr ⟨?_, hu'⟩), hcases.imp ?_ id⟩
        · exact (congrArg (fun t : Task => t.writes _) htask).trans hquiet
        · rintro ⟨q, hq, hkeys⟩
          exact ⟨q, List.mem_append_left _ hq, hkeys⟩

namespace Graph

/-!
## The whole sequence
-/

/-- Of all nodes of the sequence before a node, executed ones too, `u` is the last that writes the
state. -/
def PrecedingWriter (g : Graph ρ) (k : NodeKey) (t : State) (u : NodeKey) : Prop :=
  exists a w b v c, g.vertices = a ++ w :: (b ++ v :: c) ∧ w.key = u ∧ v.key = k ∧
    w.writes t = true ∧ forall x, x ∈ b -> x.writes t = false

/-- The preceding writer is the nearest one if that is pending.  Otherwise it is the last writer
among the executed nodes, whichever pending node it precedes. -/
theorem Built.exists_precedingWriter {g : Graph ρ} {origin : State -> NodeKey}
    (hg : g.Built origin) (t : State) : exists last, forall a v b u, g.pending = a ++ v :: b ->
      NearestWriter origin t (a.map Vertex.entry) u ->
      g.PrecedingWriter v.key t (if u ∈ g.pendingKeys then u else last) := by
  have hinitial : g.initial.writes t = true := by
    rw [Node.writes, hg.sound.numbered.initial]
    rfl
  have hlast : exists c w d, g.executed = c ++ w :: d ∧ w.writes t = true ∧
      forall x, x ∈ d -> x.writes t = false := by
    rcases exists_last (fun v : Vertex ρ => v.writes t) g.executed with hnone | hlast
    · have hquiet : g.initial.writes t = false := hnone g.initial (by simp [executed])
      rw [hinitial] at hquiet
      cases hquiet
    · exact hlast
  rcases hlast with ⟨c, w, d, hexecuted, hwrites, hafter⟩
  refine ⟨w.key, ?_⟩
  intro a v b u hsplit hnear
  have hpending : forall x, x ∈ a -> x.writes t = x.task.writes t := by
    intro x hx
    apply hg.sound.numbered.pending_writes
    rw [hsplit]
    exact List.mem_append_left _ hx
  rcases hnear with ⟨before, e, after, hmap, hkey, hwriter, hquiet⟩ | ⟨hnone, rfl⟩
  · rcases List.map_eq_append_iff.mp hmap with ⟨a', rest, rfl, _, hrest⟩
    rcases List.map_eq_cons_iff.mp hrest with ⟨z, m, rfl, rfl, rfl⟩
    have hu : u ∈ g.pendingKeys := by
      rw [← hkey, pendingKeys, hsplit]
      exact List.mem_map_of_mem (by simp)
    rw [if_pos hu]
    refine ⟨g.executed ++ a', z, m, v, b, ?_, hkey, rfl, ?_, ?_⟩
    · rw [vertices, hsplit]
      simp
    · rw [hpending z (by simp)]
      exact hwriter
    · intro x hx
      rw [hpending x (by simp [hx])]
      exact hquiet _ (List.mem_map_of_mem hx)
  · rw [if_neg hg.origin_not_pending]
    refine ⟨c, w, d ++ a, v, b, ?_, rfl, rfl, hwrites, ?_⟩
    · rw [vertices, hexecuted, hsplit]
      simp
    · intro x hx
      rcases List.mem_append.mp hx with hx | hx
      · exact hafter x hx
      · rw [hpending x hx]
        exact hnone _ (List.mem_map_of_mem hx)

/-!
## The node that stays
-/

theorem map_entry_filter (l : List (Vertex ρ)) (ks : List NodeKey) :
    (l.filter fun v => decide (v.key ∉ ks)).map Vertex.entry
      = (l.map Vertex.entry).filter fun e => decide (e.key ∉ ks) := by
  rw [List.filter_map]
  rfl

theorem Built.touches {g : Graph ρ} {origin : State -> NodeKey} (hg : g.Built origin)
    {v : Vertex ρ} (hv : v ∈ g.pending) {u : NodeKey} {t : State} (he : g.Enters u v.key t) :
    v.task.reads t = true ∨ v.task.writes t = true := by
  rcases (hg.enters_iff u v.key t).mp he with ⟨a, e, b, hsplit, hkey, hwaits⟩
  have hnodup : (g.entries.map (·.key)).Nodup := by
    rw [map_key_entries]
    exact hg.sound.keyed.nodup_pending
  have hentry : v.entry ∈ g.entries := List.mem_map_of_mem hv
  have hsame : e = v.entry :=
    List.inj_on_of_nodup_map hnodup (by rw [hsplit]; simp) hentry hkey
  rw [hsame] at hwaits
  rcases hwaits with ⟨htouch, _⟩ | ⟨hwrites, _⟩
  · exact htouch
  · exact Or.inr hwrites

theorem WriterChain.enters {g : Graph ρ} {s : State} {skip : List NodeKey} {k w : NodeKey}
    (h : WriterChain g s skip k w) : w = g.initial.key ∨ exists x, g.Enters x k s := by
  cases h with
  | root none => exact Or.inl rfl
  | stop source out => exact Or.inr ⟨w, source.enters⟩
  | pass source skipped rest => exact Or.inr ⟨_, source.enters⟩

/-- A later node makes the list of a field again, though nothing that goes into it was written
since an earlier node made it, and no node of `left` writes the list between the two. -/
structure Remakes (g : Graph ρ) (left : List (Vertex ρ)) (s : SNodeId) (a b : Vertex ρ) : Prop where
  before : ComesBefore g.pending a b
  earlier : listTarget? a = some s
  later : listTarget? b = some s
  inputs : a.task.inputs = b.task.inputs
  writes : a.task.writes (.ofSNode s .list) = true
  sources : forall t, b.task.reads t = true ->
    exists u, g.PrecedingWriter a.key t u ∧ g.PrecedingWriter b.key t u
  between : forall w, ComesBefore g.pending a w -> ComesBefore g.pending w b ->
    w.task.writes (.ofSNode s .list) = true -> w ∉ left

namespace StandsFor

variable {g : Graph ρ} {origin : State -> NodeKey} {s : SNodeId} {gone : List NodeKey}
  {a b : Vertex ρ} (h : g.StandsFor s gone a b) (hg : g.Built origin)

include h hg

theorem writes : a.task.writes (.ofSNode s .list) = true := by
  rcases h.repeats with ⟨dropped, _, hrepeats⟩
  exact (hg.sound.pending_writesAt h.before.left_mem).mp (hrepeats.made.writes hg.sound)

theorem touches : b.task.reads (.ofSNode s .list) = true ∨
    b.task.writes (.ofSNode s .list) = true := by
  rcases h.repeats with ⟨dropped, _, hrepeats⟩
  rcases hrepeats.made.enters with hinitial | ⟨x, he⟩
  · have hpending : a.key ∈ g.pendingKeys := List.mem_map_of_mem h.before.left_mem
    rw [hinitial] at hpending
    exact absurd hpending hg.sound.keyed.initial_not_pending
  · exact hg.touches h.before.right_mem he

theorem nearest (hgone : forall k, k ∈ gone -> k ∈ g.pendingKeys) (ha : a.key ∉ gone)
    {l m : List (Vertex ρ)} (hsplit : g.pending = l ++ b :: m) :
    NearestWriter origin (.ofSNode s .list)
      ((l.filter fun v => decide (v.key ∉ gone)).map Vertex.entry) a.key := by
  rcases h.repeats with ⟨dropped, hdropped, hrepeats⟩
  have hnear := hg.threaded.chain_nearest (fun k hk => hgone k (hdropped k hk)) hrepeats.made
    (entries_split hsplit) rfl (h.touches hg)
  have hleft := hnear.filter (p := fun e => decide (e.key ∉ gone))
    fun e _ he => decide_eq_true (he ▸ ha)
  rw [List.filter_filter] at hleft
  rw [map_entry_filter]
  have hfilter : (l.map Vertex.entry).filter (fun e => decide (e.key ∉ gone))
      = (l.map Vertex.entry).filter
        fun e => decide (e.key ∉ gone) && decide (e.key ∉ dropped) := by
    apply List.filter_congr
    intro e _
    by_cases he : e.key ∈ gone
    · simp [he]
    · have hnot : e.key ∉ dropped := fun hin => he (hdropped _ hin)
      simp [he, hnot]
  rw [hfilter]
  exact hleft

theorem sources {l m l' m' : List (Vertex ρ)} (hsplit : g.pending = l ++ a :: m)
    (hsplit' : g.pending = l' ++ b :: m') {t : State} (ht : b.task.reads t = true) :
    exists u, NearestWriter origin t (l.map Vertex.entry) u ∧
      NearestWriter origin t (l'.map Vertex.entry) u := by
  rcases h.repeats with ⟨dropped, _, hrepeats⟩
  rcases hrepeats.sources t (of_decide_eq_true ht) with ⟨u, ha, hb⟩
  have hreads : a.task.reads t = true := by
    rw [Task.reads, hrepeats.inputs]
    exact ht
  have hnone : forall k, k ∈ ([] : List NodeKey) -> k ∈ g.pendingKeys := fun k hk => by cases hk
  have hnear := hg.threaded.chain_nearest hnone ha (entries_split hsplit) rfl (Or.inl hreads)
  have hnear' := hg.threaded.chain_nearest hnone hb (entries_split hsplit') rfl (Or.inl ht)
  simp only [List.not_mem_nil, not_false_eq_true, decide_true, List.filter_true] at hnear hnear'
  exact ⟨u, hnear, hnear'⟩

theorem remakes (hgone : forall k, k ∈ gone -> k ∈ g.pendingKeys) (ha : a.key ∉ gone) :
    g.Remakes (g.pending.filter fun v => decide (v.key ∉ gone)) s a b := by
  rcases List.append_of_mem h.before.left_mem with ⟨l, m, hsplit⟩
  rcases List.append_of_mem h.before.right_mem with ⟨l', m', hsplit'⟩
  have hnodup : g.pending.Nodup := List.Nodup.of_map _ hg.sound.keyed.nodup_pending
  have hinputs : a.task.inputs = b.task.inputs := by
    rcases h.repeats with ⟨_, _, hrepeats⟩
    exact hrepeats.inputs
  refine ⟨h.before, h.earlier, h.later, hinputs, h.writes hg, ?_, ?_⟩
  · intro t ht
    rcases h.sources hg hsplit hsplit' ht with ⟨u, hu, hu'⟩
    rcases hg.exists_precedingWriter t with ⟨last, hlast⟩
    exact ⟨_, hlast l a m u hsplit hu, hlast l' b m' u hsplit' hu'⟩
  · intro w haw hwb hwrites hleft
    -- All nodes that are left after the survivor leave the list alone.
    have hl' : l'.Sublist g.pending := by
      rw [hsplit']
      exact List.sublist_append_left ..
    have hmem : forall x, ComesBefore g.pending x b -> x ∈ l' := by
      intro x hx
      rw [hsplit'] at hx hnodup
      exact hx.mem_of_split hnodup
    have hstays : decide (w.key ∉ gone) = true := (List.mem_filter.mp hleft).right
    have haw' := ((haw.restrict hnodup hl' (hmem a h.before) (hmem w hwb)).filter
      (p := fun v : Vertex ρ => decide (v.key ∉ gone)) (decide_eq_true ha) hstays).map Vertex.entry
    have hkeys : (((l'.filter fun v => decide (v.key ∉ gone)).map Vertex.entry).map
        (·.key)).Nodup := by
      rw [List.map_map]
      exact hg.sound.keyed.nodup_pending.sublist ((List.filter_sublist.trans hl').map _)
    have hquiet := (h.nearest hg hgone ha hsplit').quiet_after hkeys haw'
    rw [show w.entry.writes (.ofSNode s .list) = true from hwrites] at hquiet
    cases hquiet

end StandsFor

theorem Selected.heir_standsFor {g : Graph ρ} {found : List Redundancy} (h : g.Selected found)
    (hg : g.Keyed) {v : Vertex ρ} (hv : v ∈ g.pending) (hgone : v.key ∈ gone found) :
    exists s a, heir found v.key = a.key ∧ a.key ∉ gone found ∧
      g.StandsFor s (gone found) a v := by
  rcases exists_heir hgone with ⟨r, hr, hkey, hheir⟩
  have hstays := h.heir_not_gone v.key
  rcases h.settles r hr with ⟨s, a, b, rfl, hstands⟩
  have hsame : b = v := hg.eq_of_key (mem_vertices_of_pending hstands.before.right_mem)
    (mem_vertices_of_pending hv) hkey
  rw [hheir] at hstays
  rw [hsame] at hstands
  exact ⟨s, a, hheir, hstays, hstands⟩

/-!
## List generations that write nothing but lists
-/

def ListsOnly (g : Graph ρ) : Prop := forall v s, v ∈ g.pending -> listTarget? v = some s ->
  forall t, v.task.writes t = true ↔ t = .ofSNode s .list

def Inherits (g : Graph ρ) (heir : NodeKey -> NodeKey) (t : State) (u : NodeKey) : Prop :=
  heir u = u ∨ exists s b, b ∈ g.pending ∧ b.key = u ∧ listTarget? b = some s ∧
    t = .ofSNode s .list

section ListsOnly

variable {g : Graph ρ} {origin : State -> NodeKey} {found : List Redundancy}
  (h : g.Selected found) (hg : g.Built origin) (hlists : g.ListsOnly)

include h hg hlists

theorem Selected.nearest_heir {l m : List (Vertex ρ)} (hsplit : g.pending = l ++ m) {t : State}
    {u : NodeKey} (hu : NearestWriter origin t (l.map Vertex.entry) u) :
    NearestWriter origin t ((l.filter fun v => decide (v.key ∉ gone found)).map Vertex.entry)
      (heir found u) ∧ g.Inherits (heir found) t u := by
  by_cases hgone : u ∈ gone found
  · rcases hu with ⟨c, e, d, hmap, hkey, hwrites, hafter⟩ | ⟨_, rfl⟩
    · rcases List.map_eq_append_iff.mp hmap with ⟨c', rest, rfl, _, hrest⟩
      rcases List.map_eq_cons_iff.mp hrest with ⟨v, d', rfl, rfl, rfl⟩
      have hsplit' : g.pending = c' ++ v :: (d' ++ m) := by
        rw [hsplit, List.append_assoc, List.cons_append]
      have hv : v ∈ g.pending := by
        rw [hsplit']
        simp
      have hvkey : v.key = u := hkey
      have hvgone : v.key ∈ gone found := hvkey ▸ hgone
      rcases h.heir_standsFor hg.sound.keyed hv hvgone with ⟨s, a, hheir, ha, hstands⟩
      have ht : t = .ofSNode s .list := (hlists v s hv hstands.later t).mp hwrites
      refine ⟨?_, Or.inr ⟨s, v, hv, hvkey, hstands.later, ht⟩⟩
      rw [List.filter_append, List.filter_cons_of_neg (by simp [hvgone]), List.map_append,
        show heir found u = a.key from hvkey ▸ hheir]
      subst ht
      apply (hstands.nearest hg (fun _ => h.pending) ha hsplit').append_of_not_writes
      intro x hx
      rcases List.mem_map.mp hx with ⟨y, hy, rfl⟩
      exact hafter _ (List.mem_map_of_mem (List.mem_filter.mp hy).left)
    · exact absurd (h.pending hgone) hg.origin_not_pending
  · rw [heir_of_not_gone hgone, map_entry_filter]
    exact ⟨hu.filter fun e _ he => decide_eq_true (he ▸ hgone), Or.inl (heir_of_not_gone hgone)⟩

theorem Selected.heir_writes {k : NodeKey} {t : State} (hk : g.WritesAt k t) :
    g.WritesAt (heir found k) t := by
  by_cases hgone : k ∈ gone found
  · rcases exists_pending (h.pending hgone) with ⟨v, hv, rfl⟩
    rcases h.heir_standsFor hg.sound.keyed hv hgone with ⟨s, a, hheir, _, hstands⟩
    have ht : t = .ofSNode s .list :=
      (hlists v s hv hstands.later t).mp ((hg.sound.pending_writesAt hv).mp hk)
    rw [hheir, ht]
    exact (hg.sound.pending_writesAt hstands.before.left_mem).mpr (hstands.writes hg)
  · rw [heir_of_not_gone hgone]
    exact hk

theorem Handed.supplied {g1 : Graph ρ} (h1 : g.Handed found g1) : g1.Supplied := by
  have hconsistent := hg.consistent
  constructor
  · intro s k hk
    rw [h1.owners_get] at hk
    rcases Option.map_eq_some_iff.mp hk with ⟨j, hj, rfl⟩
    exact (h.heir_writes hg hlists (hconsistent.owner_writes s j hj)).congr h1.skeleton
  · intro v s hv htouch
    rw [pendingKeys_congr h1.skeleton] at hv
    have htouch' : g.ReadsAt v s ∨ g.WritesAt v s :=
      htouch.imp (fun hr => hr.congr h1.skeleton.symm) (fun hw => hw.congr h1.skeleton.symm)
    rcases hconsistent.sourced v s hv htouch' with ⟨u, hu, hw⟩
    exact ⟨heir found u, (h1.enters_iff _ v s).mpr ⟨u, hu, rfl⟩,
      (h.heir_writes hg hlists hw).congr h1.skeleton⟩

end ListsOnly

section Origins

variable {g g1 : Graph ρ} {origin : State -> NodeKey} {found : List Redundancy}
  (h : g.Selected found) (h1 : g.Handed found g1)

include h h1

theorem Handed.ownerOrInitial (hg : g.Keyed) (t : State) :
    g1.ownerOrInitial t = heir found (g.ownerOrInitial t) := by
  rw [Graph.ownerOrInitial, h1.owners_get, initial_key_congr h1.skeleton, Graph.ownerOrInitial]
  cases g.owners.get? t with
  | none => exact (heir_of_not_gone fun hin => hg.initial_not_pending (h.pending hin)).symm
  | some k => rfl

/-- A node outside of the sequence of pending nodes is its own heir, and nobody else's. -/
theorem Handed.rooted (hg : g.Keyed) (hr : g.Rooted origin) : g1.Rooted origin := by
  have houtside : forall k, heir found k ∉ g1.pendingKeys ->
      k ∉ g.pendingKeys ∧ heir found k = k := by
    intro k hk
    rw [pendingKeys_congr h1.skeleton, h.heir_pending] at hk
    exact ⟨hk, heir_of_not_gone fun hin => hk (h.pending hin)⟩
  constructor
  · intro u v s huv hu
    rcases (h1.enters_iff u v s).mp huv with ⟨x, hx, rfl⟩
    rcases houtside x hu with ⟨hout, hself⟩
    rw [hself]
    exact hr.source x v s hx hout
  · intro s hs
    rw [h1.ownerOrInitial h hg] at hs ⊢
    rcases houtside _ hs with ⟨hout, hself⟩
    rw [hself]
    exact hr.owner s hout

end Origins

theorem Relisting.origin_eq {g g' g1 g2 base : Graph ρ} {origin : State -> NodeKey}
    {found : List Redundancy} {doomed : List NodeKey}
    (h : g.Relisting g' found g1 doomed g2 base) (hg : g.Built origin) (hlists : g.ListsOnly) :
    base.ownerOrInitial = origin := by
  have hdoomed : forall k, k ∈ doomed -> k ∈ g1.pendingKeys := by
    intro k hk
    rw [pendingKeys_congr h.handed.skeleton]
    exact h.doomed_pending hk
  have hsupplied := Handed.supplied h.selected hg hlists h.handed
  have hrooted := Handed.rooted h.selected h.handed hg.sound.keyed hg.rooted
  exact h.extracted.origin h.deleted.sound
    (h.deleted.supplied hdoomed h.handed.sound h.handed.forward hsupplied)
    (h.deleted.rooted hdoomed h.handed.sound hsupplied hrooted)

end Graph
end LaunchGraph
