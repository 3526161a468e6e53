import LaunchGraph.Proofs.Graph.Roots
import LaunchGraph.Proofs.Graph.Sources

/-!
# Edges that pass over no writer

No pending node between the two ends of an edge writes the state of the edge, and none after an
owner or a latest reader writes the state that it owns or read.  A deletion may leave a graph
without edges that its sequence calls for, but the edges that there are pass over no writer that
is left.  This is enough to say where the way back along writers leads: to the last writer before
that is not passed by, however many nodes were deleted earlier.
-/

namespace LaunchGraph

variable {ρ : Type}

namespace Graph

theorem comesBefore_of_executed {g : Graph ρ} {u z : NodeKey} (hu : u ∈ g.executed.map (·.key))
    (hz : z ∈ g.pendingKeys) : ComesBefore g.keys u z := by
  rw [keys_eq_append, ComesBefore.append_iff]
  exact Or.inr (Or.inl ⟨hu, hz⟩)

theorem comesBefore_of_entries {g : Graph ρ} {x y : Entry} (h : ComesBefore g.entries x y) :
    ComesBefore g.keys x.key y.key := by
  have hkeys := h.map (·.key)
  rw [map_key_entries] at hkeys
  exact hkeys.of_sublist g.pendingKeys_sublist

theorem Keyed.entries_before {g : Graph ρ} (hg : g.Keyed) {x y : Entry} (hx : x ∈ g.entries)
    (hy : y ∈ g.entries) (h : ComesBefore g.keys x.key y.key) : ComesBefore g.entries x y := by
  have hne : x ≠ y := by
    rintro rfl
    exact h.irrefl hg.nodup
  exact (ComesBefore.total hx hy hne).resolve_right
    fun hyx => h.asymm hg.nodup (comesBefore_of_entries hyx)

theorem Keyed.nodup_entries {g : Graph ρ} (hg : g.Keyed) : (g.entries.map (·.key)).Nodup := by
  rw [map_key_entries]
  exact hg.nodup_pending

theorem exists_entry_mem {g : Graph ρ} {k : NodeKey} (hk : k ∈ g.pendingKeys) :
    exists e, e ∈ g.entries ∧ e.key = k := by
  rw [← map_key_entries] at hk
  exact List.mem_map.mp hk

theorem Keyed.pending_after {g : Graph ρ} (hg : g.Keyed) {u z : NodeKey} (hu : u ∈ g.pendingKeys)
    (h : ComesBefore g.keys u z) : z ∈ g.pendingKeys := by
  have hz := h.right_mem
  rw [keys_eq_append, List.mem_append] at hz
  exact hz.resolve_left fun hexecuted => h.asymm hg.nodup (comesBefore_of_executed hexecuted hu)

theorem WaitsFor.split {origin : State -> NodeKey} {s : State} {before : List Entry} {e : Entry}
    {u : NodeKey} (h : WaitsFor origin before e s u) :
    exists a b, before = a ++ b ∧ (forall x, x ∈ b -> x.writes s = false) ∧
      (a = [] ∨ exists a' x, a = a' ++ [x] ∧ x.key = u) := by
  have found : forall {a : List Entry} {x : Entry} {b : List Entry}, before = a ++ x :: b ->
      x.key = u -> (forall y, y ∈ b -> y.writes s = false) ->
      exists a b, before = a ++ b ∧ (forall x, x ∈ b -> x.writes s = false) ∧
        (a = [] ∨ exists a' x, a = a' ++ [x] ∧ x.key = u) := by
    intro a x b hsplit hkey hafter
    exact ⟨a ++ [x], b, hsplit.trans (List.append_cons ..), hafter, Or.inr ⟨a, x, rfl, hkey⟩⟩
  rcases h with ⟨_, ⟨a, x, b, hsplit, hkey, _, hafter⟩ | ⟨hnone, _⟩⟩
    | ⟨_, a, x, b, hsplit, hkey, _, hafter⟩
  · exact found hsplit hkey hafter
  · exact ⟨[], before, rfl, hnone, Or.inl rfl⟩
  · exact found hsplit hkey hafter

/-- Neither edges nor tables pass over a pending node that writes the state. -/
structure Direct (g : Graph ρ) : Prop where
  edge : forall u v z s, g.Enters u v s -> ComesBefore g.keys u z -> ComesBefore g.keys z v ->
    z ∈ g.pendingKeys -> ¬g.WritesAt z s
  owner : forall z s, ComesBefore g.keys (g.ownerOrInitial s) z -> z ∈ g.pendingKeys ->
    ¬g.WritesAt z s
  reader : forall k z s, k ∈ g.readers.get s -> ComesBefore g.keys k z -> ¬g.WritesAt z s

/-- All writers between the two ends of a way through doomed nodes are doomed. -/
theorem Direct.via {g : Graph ρ} (h : g.Direct) (hg : g.Sound) {doomed : List NodeKey}
    {u v z : NodeKey} {s : State} (hvia : g.Via doomed s u v) (huz : ComesBefore g.keys u z)
    (hzv : ComesBefore g.keys z v) (hz : z ∈ g.pendingKeys) (hstays : z ∉ doomed) :
    ¬g.WritesAt z s := by
  induction hvia with
  | edge enters => exact h.edge _ _ z s enters huz hzv hz
  | @step k v before through enters ih =>
      have hk : k ∈ g.keys := hg.wired.source_mem enters
      by_cases heq : z = k
      · rw [heq] at hstays
        exact absurd through hstays
      · cases ComesBefore.total (pendingKeys_subset hz) hk heq with
        | inl hzk => exact ih hzk
        | inr hkz => exact h.edge _ _ z s enters hkz hzv hz

/-!
## Graphs under construction
-/

section Built

variable {g : Graph ρ} {origin : State -> NodeKey} {s : State}

theorem Built.no_writer_between (hg : g.Built origin) {u v z : NodeKey} (he : g.Enters u v s)
    (huz : ComesBefore g.keys u z) (hzv : ComesBefore g.keys z v) (hz : z ∈ g.pendingKeys) :
    ¬g.WritesAt z s := by
  intro hwrites
  have hnodup := hg.sound.keyed.nodup
  have lift : forall {k l : NodeKey}, ComesBefore g.pendingKeys k l -> ComesBefore g.keys k l :=
    fun h => h.of_sublist g.pendingKeys_sublist
  rcases (hg.enters_iff u v s).mp he with ⟨before, e, after, hsplit, rfl, hwaits⟩
  rcases WaitsFor.split hwaits with ⟨a, b, rfl, hquiet, ha⟩
  have hkeys : g.pendingKeys
      = a.map (·.key) ++ (b.map (·.key) ++ e.key :: after.map (·.key)) := by
    rw [← map_key_entries, hsplit]
    simp
  rw [hkeys, List.mem_append, List.mem_append, List.mem_cons] at hz
  rcases hz with hza | hzb | rfl | hlater
  · rcases ha with rfl | ⟨a', x, rfl, rfl⟩
    · cases hza
    · rw [List.map_append, List.map_singleton, List.mem_append, List.mem_singleton] at hza
      cases hza with
      | inl hearlier =>
          refine huz.asymm hnodup (lift ?_)
          rw [hkeys, ComesBefore.append_iff, List.map_append, ComesBefore.append_iff]
          exact Or.inl (Or.inr (Or.inl ⟨hearlier, List.mem_singleton.mpr rfl⟩))
      | inr heq =>
          rw [heq] at huz
          exact huz.irrefl hnodup
  · rcases List.mem_map.mp hzb with ⟨x, hx, rfl⟩
    have hentry : x ∈ g.entries := by
      rw [hsplit]
      simp [hx]
    have htrue := (hg.sound.entry_writes hentry).mpr hwrites
    rw [hquiet x hx] at htrue
    cases htrue
  · exact hzv.irrefl hnodup
  · refine hzv.asymm hnodup (lift ?_)
    rw [hkeys, ComesBefore.append_iff, ComesBefore.append_iff, ComesBefore.cons_iff]
    exact Or.inr (Or.inr (Or.inr (Or.inr (Or.inl ⟨rfl, hlater⟩))))

theorem Built.direct (hg : g.Built origin) : g.Direct := by
  have hkeyed := hg.sound.keyed
  refine ⟨fun u v z s he huz hzv hz => hg.no_writer_between he huz hzv hz, ?_, ?_⟩
  · intro z s hoz hz hwrites
    rcases exists_entry_mem hz with ⟨x, hx, rfl⟩
    rw [← hg.sound.entry_writes hx] at hwrites
    have hnear := hg.owner_nearest s
    cases hnear with
    | inl hlast =>
        have hnear := hg.owner_nearest s
        rcases hlast with ⟨a, e, b, hsplit, hkey, _, _⟩
        have he : e ∈ g.entries := by
          rw [hsplit]
          simp
        rw [← hkey] at hoz hnear
        rw [hnear.quiet_after hkeyed.nodup_entries (hkeyed.entries_before he hx hoz)] at hwrites
        cases hwrites
    | inr hnone =>
        rw [hnone.left x hx] at hwrites
        cases hwrites
  · intro k z s hk hkz hwrites
    rcases exists_entry_mem (hkeyed.pending_after (hg.sound.owned.readers_pending s k hk) hkz)
      with ⟨x, hx, rfl⟩
    rw [← hg.sound.entry_writes hx] at hwrites
    rcases (hg.mem_readers s k).mp hk with ⟨a, e, b, hsplit, rfl, _, hafter⟩
    have he : e ∈ g.entries := by
      rw [hsplit]
      simp
    have hbefore := hkeyed.entries_before he hx hkz
    have hnodup : g.entries.Nodup := hkeyed.nodup_entries.of_map _
    rw [hsplit] at hbefore hnodup
    rw [hafter x (hbefore.mem_after_of_split hnodup)] at hwrites
    cases hwrites

end Built

/-!
## Nodes that come and go
-/

section Changes

variable {g g' : Graph ρ}

theorem Direct.withCounts (h : g.Direct) (launches : Table String Nat)
    (currentLists : OrderedSet SNodeId) (nextSerial : Nat) (window : FusionWindow) :
    (g.withCounts launches currentLists nextSerial window).Direct :=
  ⟨h.edge, h.owner, h.reader⟩

theorem Inserted.direct {n : Node ρ} (h : g.Inserted n g') (hg : g.Sound) (hd : g.Direct) :
    g'.Direct := by
  have hfresh := hg.keyed.freshKey_not_mem
  have hlast : forall {z : NodeKey}, ¬ComesBefore g'.keys g.freshKey z := by
    intro z hz
    rw [h.keys, ComesBefore.append_iff] at hz
    rcases hz with hin | ⟨hin, _⟩ | hin
    · exact hfresh hin.left_mem
    · exact hfresh hin
    · rcases ComesBefore.cons_iff.mp hin with ⟨_, hnil⟩ | hnil
      · cases hnil
      · cases hnil
  -- Whatever else there is stands where it stood.
  have hbefore : forall {u z : NodeKey}, z ≠ g.freshKey -> ComesBefore g'.keys u z ->
      ComesBefore g.keys u z := by
    intro u z hz huz
    rw [h.keys, ComesBefore.append_iff] at huz
    rcases huz with hin | ⟨_, hin⟩ | hin
    · exact hin
    · exact absurd (List.mem_singleton.mp hin) hz
    · exact absurd (List.mem_singleton.mp hin.right_mem) hz
  have hpending : forall {z : NodeKey}, z ≠ g.freshKey -> z ∈ g'.pendingKeys ->
      z ∈ g.pendingKeys := by
    intro z hz hin
    rw [h.pendingKeys, List.mem_append, List.mem_singleton] at hin
    exact hin.resolve_right hz
  have hwritesAt : forall {z : NodeKey} {s : State}, z ≠ g.freshKey -> g'.WritesAt z s ->
      g.WritesAt z s := by
    intro z s hz hw
    exact ((h.writesAt_iff hg.keyed).mp hw).resolve_left fun hnew => hz hnew.left
  -- The tables are kept for states that the new node does not write.
  have hquiet : forall {z : NodeKey} {s : State}, n.task.writes s = false -> g'.WritesAt z s ->
      z ≠ g.freshKey := by
    rintro z s hs hw rfl
    rcases (h.writesAt_iff hg.keyed).mp hw with ⟨_, htrue⟩ | hold
    · rw [hs] at htrue
      cases htrue
    · exact hfresh hold.mem
  refine ⟨?_, ?_, ?_⟩
  · intro u v z s he huz hzv hz hw
    have hne : z ≠ g.freshKey := by
      rintro rfl
      exact hlast hzv
    have huz' := hbefore hne huz
    rcases (h.enters_iff u v s).mp he with hold | ⟨_, ⟨_, rfl⟩ | ⟨_, hreader⟩⟩
    · have hv : v ≠ g.freshKey := by
        rintro rfl
        exact hfresh hold.target_mem
      exact hd.edge u v z s hold huz' (hbefore hv hzv) (hpending hne hz) (hwritesAt hne hw)
    · exact hd.owner z s huz' (hpending hne hz) (hwritesAt hne hw)
    · exact hd.reader u z s hreader huz' (hwritesAt hne hw)
  · intro z s hoz hz hw
    rw [h.ownerOrInitial] at hoz
    split at hoz
    · exact hlast hoz
    · next hs =>
        have hne := hquiet (Bool.eq_false_iff.mpr hs) hw
        exact hd.owner z s (hbefore hne hoz) (hpending hne hz) (hwritesAt hne hw)
  · intro k z s hk hkz hw
    rcases (h.mem_readers s k).mp hk with ⟨_, rfl⟩ | ⟨hs, hold⟩
    · exact hlast hkz
    · have hne := hquiet hs hw
      exact hd.reader k z s hold (hbefore hne hkz) (hwritesAt hne hw)

theorem Grown.direct {bank : Bank ρ} {records : List ρ} (h : Grown bank g records g')
    (hg : g.Sound) (hd : g.Direct) : g'.Direct := by
  induction h with
  | start => exact hd
  | recount _ launches currentLists nextSerial ih =>
      exact ih.withCounts launches currentLists nextSerial _
  | insert before _ _ inserted ih => exact inserted.direct (before.sound hg) ih

theorem Deleted.direct {doomed : List NodeKey} (h : g.Deleted doomed g')
    (hdoomed : forall k, k ∈ doomed -> k ∈ g.pendingKeys) (hg : g.Consistent) (hd : g.Direct) :
    g'.Direct := by
  have hbefore : forall {u z : NodeKey}, ComesBefore g'.keys u z -> ComesBefore g.keys u z := by
    intro u z huz
    rw [h.keys] at huz
    exact huz.of_sublist List.filter_sublist
  have hstays : forall {u z : NodeKey}, ComesBefore g'.keys u z -> z ∉ doomed := by
    intro u z huz
    have hz := huz.right_mem
    rw [h.keys, List.mem_filter, decide_eq_true_iff] at hz
    exact hz.right
  have hwritesAt : forall {z : NodeKey} {s : State}, z ∉ doomed -> g'.WritesAt z s ->
      g.WritesAt z s := by
    intro z s hz hw
    exact hw.of_core (h.find? z hz).symm
  refine ⟨?_, ?_, ?_⟩
  · intro u v z s he huz hzv hz hw
    rcases (h.enters_iff u v s).mp he with ⟨_, _, hvia⟩
    exact hd.via hg.sound hvia (hbefore huz) (hbefore hzv) (h.mem_pendingKeys.mp hz).left
      (hstays huz) (hwritesAt (hstays huz) hw)
  · intro z s hoz hz hw
    have hz' := (h.mem_pendingKeys.mp hz).left
    have hw' := hwritesAt (hstays hoz) hw
    cases ho : g.owners.get? s with
    | none =>
        have howner : g'.ownerOrInitial s = g.ownerOrInitial s := by
          rw [ownerOrInitial, h.owners.none s ho, h.initial_key, ownerOrInitial, ho]
        rw [howner] at hoz
        exact hd.owner z s (hbefore hoz) hz' hw'
    | some k =>
        have howner : g.ownerOrInitial s = k := by
          rw [ownerOrInitial, ho]
          rfl
        by_cases hk : k ∈ doomed
        · rcases h.owners.fallen s k ho hk with ⟨w, hw, hchain⟩
          have howner' : g'.ownerOrInitial s = w := by
            rw [ownerOrInitial, hw]
            rfl
          have hvia := hchain.via hg.sourced hdoomed (hdoomed k hk)
            (Or.inr (hg.owner_writes s k ho))
          rw [howner'] at hoz
          have hne : z ≠ k := fun heq => hstays hoz (heq ▸ hk)
          -- The way back passes over no writer that is left, and none comes after the old owner.
          cases ComesBefore.total (pendingKeys_subset hz') (pendingKeys_subset (hdoomed k hk))
            hne with
          | inl hzk => exact hd.via hg.sound hvia (hbefore hoz) hzk hz' (hstays hoz) hw'
          | inr hkz =>
              rw [← howner] at hkz
              exact hd.owner z s hkz hz' hw'
        · have howner' : g'.ownerOrInitial s = g.ownerOrInitial s := by
            rw [ownerOrInitial, h.owners.kept s k ho hk, howner]
            rfl
          rw [howner'] at hoz
          exact hd.owner z s (hbefore hoz) hz' hw'
  · intro k z s hk hkz hw
    rcases (h.mem_readers s k).mp hk with ⟨hk', _⟩
    exact hd.reader k z s hk' (hbefore hkz) (hwritesAt (hstays hkz) hw)

end Changes

/-!
## The nearest writer that is left
-/

/-- The graph holds as much of what its sequence calls for as deletions leave of it. -/
structure Threaded (g : Graph ρ) (origin : State -> NodeKey) : Prop where
  consistent : g.Consistent
  rooted : g.Rooted origin
  direct : g.Direct

theorem Built.threaded {g : Graph ρ} {origin : State -> NodeKey} (h : g.Built origin) :
    g.Threaded origin :=
  ⟨h.consistent, h.rooted, h.direct⟩

section Threaded

variable {g : Graph ρ} {origin : State -> NodeKey} (h : g.Threaded origin) {s : State}

include h

theorem Threaded.last_source {before after : List Entry} {e : Entry}
    (hsplit : g.entries = before ++ e :: after) {w : NodeKey} (henters : g.Enters w e.key s)
    (hwrites : g.WritesAt w s) (hw : w ∈ g.pendingKeys) :
    exists a x b, before = a ++ x :: b ∧ x.key = w ∧ x.writes s = true ∧
      forall y, y ∈ b -> y.writes s = false := by
  have hkeyed := h.consistent.sound.keyed
  have he : e ∈ g.entries := by
    rw [hsplit]
    simp
  rcases exists_entry_mem hw with ⟨x, hx, rfl⟩
  have hxe := hkeyed.entries_before hx he (h.consistent.forward _ _ s henters)
  have hnodup : g.entries.Nodup := hkeyed.nodup_entries.of_map _
  rw [hsplit] at hxe hnodup
  rcases List.append_of_mem (hxe.mem_of_split hnodup) with ⟨a, b, rfl⟩
  refine ⟨a, x, b, rfl, rfl, (h.consistent.sound.entry_writes hx).mpr hwrites, ?_⟩
  intro y hy
  have hxy : ComesBefore g.entries x y := by
    rw [hsplit]
    simp [ComesBefore.append_iff, ComesBefore.cons_iff, hy]
  have hye : ComesBefore g.entries y e := by
    rw [hsplit]
    simp [ComesBefore.append_iff, ComesBefore.cons_iff, hy]
  have hpending : y.key ∈ g.pendingKeys := by
    rw [← map_key_entries]
    exact List.mem_map_of_mem hxy.right_mem
  rw [← Bool.not_eq_true, h.consistent.sound.entry_writes hxy.right_mem]
  exact h.direct.edge _ _ y.key s henters (comesBefore_of_entries hxy)
    (comesBefore_of_entries hye) hpending

theorem Threaded.source_nearest {before after : List Entry} {e : Entry}
    (hsplit : g.entries = before ++ e :: after) {w : NodeKey} (henters : g.Enters w e.key s)
    (hwrites : g.WritesAt w s) : NearestWriter origin s before w := by
  by_cases hw : w ∈ g.pendingKeys
  · exact Or.inl (h.last_source hsplit henters hwrites hw)
  · refine Or.inr ⟨?_, h.rooted.source w e.key s henters hw⟩
    intro y hy
    have hye : ComesBefore g.entries y e := by
      rw [hsplit, ComesBefore.append_iff]
      exact Or.inr (Or.inl ⟨hy, List.mem_cons_self ..⟩)
    have hpending : y.key ∈ g.pendingKeys := by
      rw [← map_key_entries]
      exact List.mem_map_of_mem hye.left_mem
    have hexecuted : w ∈ g.executed.map (·.key) := by
      have hmem := h.consistent.sound.wired.source_mem henters
      rw [keys_eq_append, List.mem_append] at hmem
      exact hmem.resolve_right hw
    rw [← Bool.not_eq_true, h.consistent.sound.entry_writes hye.left_mem]
    exact h.direct.edge w e.key y.key s henters (comesBefore_of_executed hexecuted hpending)
      (comesBefore_of_entries hye) hpending

theorem Threaded.last_owner (ho : g.ownerOrInitial s ∈ g.pendingKeys) :
    exists a x b, g.entries = a ++ x :: b ∧ x.key = g.ownerOrInitial s ∧ x.writes s = true ∧
      forall y, y ∈ b -> y.writes s = false := by
  have hsound := h.consistent.sound
  rcases exists_entry ho with ⟨a, x, b, hsplit, hkey⟩
  have hx : x ∈ g.entries := by
    rw [hsplit]
    simp
  refine ⟨a, x, b, hsplit, hkey, ?_, ?_⟩
  · rw [hsound.entry_writes hx, hkey]
    exact ownerOrInitial_writes hsound (h.consistent.owner_writes s)
  · intro y hy
    have hxy : ComesBefore g.entries x y := by
      rw [hsplit]
      simp [ComesBefore.append_iff, ComesBefore.cons_iff, hy]
    have hpending : y.key ∈ g.pendingKeys := by
      rw [← map_key_entries]
      exact List.mem_map_of_mem hxy.right_mem
    have hkeys := comesBefore_of_entries hxy
    rw [hkey] at hkeys
    rw [← Bool.not_eq_true, hsound.entry_writes hxy.right_mem]
    exact h.direct.owner y.key s hkeys hpending

theorem Threaded.owner_nearest (s : State) :
    NearestWriter origin s g.entries (g.ownerOrInitial s) := by
  have hsound := h.consistent.sound
  by_cases ho : g.ownerOrInitial s ∈ g.pendingKeys
  · exact Or.inl (h.last_owner ho)
  · refine Or.inr ⟨?_, h.rooted.owner s ho⟩
    intro y hy
    have hpending : y.key ∈ g.pendingKeys := by
      rw [← map_key_entries]
      exact List.mem_map_of_mem hy
    have hexecuted : g.ownerOrInitial s ∈ g.executed.map (·.key) := by
      have hmem := hsound.owned.ownerOrInitial_mem s
      rw [keys_eq_append, List.mem_append] at hmem
      exact hmem.resolve_right ho
    rw [← Bool.not_eq_true, hsound.entry_writes hy]
    exact h.direct.owner y.key s (comesBefore_of_executed hexecuted hpending) hpending

/-- The way back along writers, past some pending nodes, leads to the nearest writer that is
none of them. -/
theorem Threaded.chain_nearest {doomed : List NodeKey}
    (hdoomed : forall k, k ∈ doomed -> k ∈ g.pendingKeys) {k z : NodeKey}
    (hchain : WriterChain g s doomed k z) {before after : List Entry} {e : Entry}
    (hsplit : g.entries = before ++ e :: after) (hkey : e.key = k)
    (htouch : e.reads s = true ∨ e.writes s = true) :
    NearestWriter origin s (before.filter fun x => decide (x.key ∉ doomed)) z := by
  induction hchain generalizing before e after with
  | root none =>
      subst hkey
      have he : e ∈ g.entries := by
        rw [hsplit]
        simp
      have hpending : e.key ∈ g.pendingKeys := by
        rw [← map_key_entries]
        exact List.mem_map_of_mem he
      rw [h.consistent.sound.entry_reads he, h.consistent.sound.entry_writes he] at htouch
      rcases h.consistent.sourced e.key s hpending htouch with ⟨u, hu, hw⟩
      exact absurd hw (none u hu)
  | @stop k w source out =>
      subst hkey
      apply (h.source_nearest hsplit source.enters source.writes).filter
      intro x _ hx
      exact decide_eq_true (hx ▸ out)
  | @pass k w z source skipped rest ih =>
      subst hkey
      rcases h.last_source hsplit source.enters source.writes (hdoomed w skipped)
        with ⟨a, x, b, rfl, hkeyx, hwrites, hafter⟩
      have hrest : NearestWriter origin s (a.filter fun x => decide (x.key ∉ doomed)) z := by
        apply ih _ hkeyx (Or.inr hwrites)
        · exact b ++ e :: after
        · rw [hsplit, List.append_assoc, List.cons_append]
      apply hrest.filter_last _ hafter
      simp [hkeyx, skipped]

end Threaded

theorem Deleted.threaded {g g' : Graph ρ} {origin : State -> NodeKey} {doomed : List NodeKey}
    (h : g.Deleted doomed g') (hdoomed : forall k, k ∈ doomed -> k ∈ g.pendingKeys)
    (hg : g.Threaded origin) : g'.Threaded origin :=
  ⟨h.consistent hdoomed hg.consistent,
    h.rooted hdoomed hg.consistent.sound hg.consistent.supplied hg.rooted,
    h.direct hdoomed hg.consistent hg.direct⟩

theorem Deleted.entries {g g' : Graph ρ} {doomed : List NodeKey} (h : g.Deleted doomed g') :
    g'.entries = g.entries.filter fun e => decide (e.key ∉ doomed) := by
  have hmap : g'.entries = (g.pending.filter fun v => decide (v.key ∉ doomed)).map Vertex.entry :=
    h.map_pending fun _ => rfl
  rw [hmap, Graph.entries, List.filter_map]
  rfl

end Graph
end LaunchGraph
