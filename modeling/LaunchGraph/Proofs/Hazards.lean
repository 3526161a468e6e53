import LaunchGraph.Proofs.Construction
import LaunchGraph.Proofs.Graph.Direct

/-!
# Hazards after a deletion

While a graph is built up, any two pending nodes that conflict on a state lie on a way of edges
on that state.  Deleting nodes keeps these ways.  But a writer that is deleted has taken the
readers before it out of the reader table, and they do not come back.  A node that is put in
later finds such a reader only on the way to a writer or a reader that is left.  The module
says exactly for which hazards there is none.
-/

namespace LaunchGraph

open Relation

variable {ρ : Type}

namespace Graph

/-!
## Ways on a state
-/

def Along (g : Graph ρ) (s : State) (u v : NodeKey) : Prop := g.Enters u v s

theorem Built.way_of_conflict {g : Graph ρ} {origin : State -> NodeKey} (hg : g.Built origin)
    {x y : Entry} (hxy : ComesBefore g.entries x y) {t : State} (hconflict : Conflict x y t) :
    TransGen (g.Along t) x.key y.key := by
  rcases hxy.exists_split with ⟨a, b, c, hsplit⟩
  have halong : forall u v, CallsFor origin g.entries u v t -> g.Along t u v := by
    intro u v huv
    exact (hg.enters_iff u v t).mpr huv
  exact TransGen.mono halong _ _ (LaunchGraph.way_of_conflict hsplit hconflict)

/-- A reader is a latest reader itself, or a writer after it comes before each latest reader or
is that reader. -/
theorem Built.reader_follows {g : Graph ρ} {origin : State -> NodeKey} (hg : g.Built origin)
    {e : Entry} (he : e ∈ g.entries) {t : State} (hreads : e.reads t = true) {k : NodeKey}
    (hk : k ∈ g.readers.get t) :
    e.key ∈ g.readers.get t ∨ exists w, ComesBefore g.entries e w ∧ w.writes t = true ∧
      (w.key = k ∨ TransGen (g.Along t) w.key k) := by
  rw [hg.mem_readers]
  rcases List.append_of_mem he with ⟨a, b, hsplit⟩
  by_cases hopen : forall x, x ∈ b -> x.writes t = false
  · exact Or.inl ⟨a, e, b, hsplit, rfl, hreads, hopen⟩
  · simp only [not_forall, Bool.not_eq_false] at hopen
    rcases hopen with ⟨w, hwb, hw⟩
    have hew : ComesBefore g.entries e w := by
      rw [hsplit, ComesBefore.append_iff]
      exact Or.inr (Or.inr (ComesBefore.cons_iff.mpr (Or.inl ⟨rfl, hwb⟩)))
    refine Or.inr ⟨w, hew, hw, ?_⟩
    rcases (hg.mem_readers t k).mp hk with ⟨c, r, d, hsplit', rfl, hr, hafter⟩
    have hmem := hew.right_mem
    rw [hsplit', List.mem_append, List.mem_cons] at hmem
    rcases hmem with hc | rfl | hd
    · refine Or.inr (hg.way_of_conflict ?_ (Or.inl ⟨hw, Or.inl hr⟩))
      rw [hsplit', ComesBefore.append_iff]
      exact Or.inr (Or.inl ⟨hc, List.mem_cons_self⟩)
    · exact Or.inl rfl
    · rw [hafter w hd] at hw
      cases hw

theorem Forward.comesBefore {g : Graph ρ} (hg : g.Keyed) (hf : g.Forward) {t : State}
    {u v : NodeKey} (h : TransGen (g.Along t) u v) : ComesBefore g.keys u v := by
  induction h with
  | single huv => exact hf _ _ t huv
  | tail _ hkv ih => exact ih.trans hg.nodup (hf _ _ t hkv)

theorem Forward.entries_before {g : Graph ρ} (hg : g.Keyed) (hf : g.Forward) {t : State}
    {x y : Entry} (hx : x ∈ g.entries) (hy : y ∈ g.entries)
    (h : TransGen (g.Along t) x.key y.key) : ComesBefore g.entries x y :=
  hg.entries_before hx hy (hf.comesBefore hg h)

theorem Via.transGen {g : Graph ρ} {doomed : List NodeKey} {t : State} {u v : NodeKey}
    (h : g.Via doomed t u v) : TransGen (g.Along t) u v := by
  induction h with
  | edge enters => exact .single enters
  | step _ _ enters ih => exact ih.tail enters

/-- A deletion neither breaks nor makes a way between nodes that are left. -/
theorem Deleted.way_iff {g g' : Graph ρ} {doomed : List NodeKey} (h : g.Deleted doomed g')
    {t : State} {u v : NodeKey} (hu : u ∉ doomed) (hv : v ∉ doomed) :
    TransGen (g'.Along t) u v ↔ TransGen (g.Along t) u v := by
  constructor
  · intro hway
    induction hway with
    | single huv => exact ((h.enters_iff _ _ t).mp huv).right.right.transGen
    | tail _ hkv ih =>
        rcases (h.enters_iff _ _ t).mp hkv with ⟨hk, _, hvia⟩
        exact (ih hk).trans hvia.transGen
  · intro hway
    -- The last node on the way that is left reaches the present end past deleted nodes.
    have hlast : exists k, k ∉ doomed ∧ ReflTransGen (g'.Along t) u k ∧ g.Via doomed t k v := by
      clear hv
      induction hway with
      | single huv => exact ⟨u, hu, .refl, .edge huv⟩
      | @tail j v _ hjv ih =>
          rcases ih with ⟨k, hk, hreach, hvia⟩
          by_cases hj : j ∈ doomed
          · exact ⟨k, hk, hreach, .step hvia hj hjv⟩
          · exact ⟨j, hj, hreach.tail ((h.enters_iff _ _ t).mpr ⟨hk, hj, hvia⟩), .edge hjv⟩
    rcases hlast with ⟨k, hk, hreach, hvia⟩
    exact .tail' hreach ((h.enters_iff _ _ t).mpr ⟨hk, hv, hvia⟩)

/-!
## Nodes that are cut off
-/

/-- When the nodes in `doomed` go, nothing is left that leads from a reader of a state to the
nodes to come: all writers of the state after it go, and so do all latest readers. -/
structure Cut (g : Graph ρ) (doomed : List NodeKey) (e : Entry) (t : State) : Prop where
  pending : e ∈ g.entries
  left : e.key ∉ doomed
  reads : e.reads t = true
  not_writes : e.writes t = false
  writers : forall w, ComesBefore g.entries e w -> w.writes t = true -> w.key ∈ doomed
  readers : forall k, k ∈ g.readers.get t -> k ∈ doomed

/-- Later nodes find all pending nodes that they conflict with, except for entries that are
`lost`.  Those have ways to nodes in `old` only. -/
structure Guarded (g : Graph ρ) (lost : Entry -> State -> Prop) (old : List NodeKey) : Prop where
  old_pending : forall k, k ∈ old -> k ∈ g.pendingKeys
  lost_old : forall e t, lost e t -> e.key ∈ old
  writer : forall e t, e ∈ g.entries -> e.writes t = true ->
    ReflTransGen (g.Along t) e.key (g.ownerOrInitial t)
  reader : forall e t, e ∈ g.entries -> e.reads t = true ->
    (exists k, k ∈ g.readers.get t ∧ ReflTransGen (g.Along t) e.key k) ∨
      ReflTransGen (g.Along t) e.key (g.ownerOrInitial t) ∨ lost e t
  way : forall x y t, ComesBefore g.entries x y -> Conflict x y t ->
    TransGen (g.Along t) x.key y.key ∨ (lost x t ∧ y.key ∉ old)
  apart : forall e t k, lost e t -> ReflTransGen (g.Along t) e.key k ->
    k ∈ old ∧ k ≠ g.ownerOrInitial t ∧ k ∉ g.readers.get t

/-!
## Right after the deletion
-/

section Deletion

variable {g g' : Graph ρ} {origin : State -> NodeKey} {doomed : List NodeKey}
  (h : g.Deleted doomed g') (hg : g.Built origin)
  (hdoomed : forall k, k ∈ doomed -> k ∈ g.pendingKeys)

include h

theorem Deleted.mem_entries {e : Entry} : e ∈ g'.entries ↔ e ∈ g.entries ∧ e.key ∉ doomed := by
  rw [h.entries, List.mem_filter, decide_eq_true_iff]

include hg

theorem Deleted.way_of_conflict {x y : Entry} (hxy : ComesBefore g'.entries x y) {t : State}
    (hconflict : Conflict x y t) : TransGen (g'.Along t) x.key y.key := by
  have hx := (h.mem_entries.mp hxy.left_mem).right
  have hy := (h.mem_entries.mp hxy.right_mem).right
  rw [h.entries] at hxy
  rw [h.way_iff hx hy]
  exact hg.way_of_conflict (hxy.of_sublist List.filter_sublist) hconflict

include hdoomed

theorem Deleted.writer_reaches {e : Entry} {t : State} (he : e ∈ g'.entries)
    (hwrites : e.writes t = true) :
    ReflTransGen (g'.Along t) e.key (g'.ownerOrInitial t) := by
  cases (h.threaded hdoomed hg.threaded).owner_nearest t with
  | inl hlast =>
      rcases hlast with ⟨a, w, b, hsplit, hkey, hw, hafter⟩
      have hmem := he
      rw [hsplit, List.mem_append, List.mem_cons] at hmem
      rcases hmem with ha | rfl | hb
      · have hbefore : ComesBefore g'.entries e w := by
          rw [hsplit, ComesBefore.append_iff]
          exact Or.inr (Or.inl ⟨ha, List.mem_cons_self⟩)
        rw [← hkey]
        exact (h.way_of_conflict hg hbefore (Or.inl ⟨hwrites, Or.inr hw⟩)).to_reflTransGen
      · rw [hkey]
      · rw [hafter e hb] at hwrites
        cases hwrites
  | inr hnone =>
      rw [hnone.left e he] at hwrites
      cases hwrites

theorem Deleted.reader_reaches {e : Entry} {t : State} (he : e ∈ g'.entries)
    (hreads : e.reads t = true) :
    (exists k, k ∈ g'.readers.get t ∧ ReflTransGen (g'.Along t) e.key k) ∨
      ReflTransGen (g'.Along t) e.key (g'.ownerOrInitial t) ∨ g.Cut doomed e t := by
  rcases h.mem_entries.mp he with ⟨hmem, hleft⟩
  by_cases hwriter : exists w, ComesBefore g'.entries e w ∧ w.writes t = true
  · rcases hwriter with ⟨w, hew, hw⟩
    have hway := h.way_of_conflict hg hew (Or.inr ⟨hreads, hw⟩)
    refine Or.inr (Or.inl (hway.to_reflTransGen.trans ?_))
    exact h.writer_reaches hg hdoomed hew.right_mem hw
  cases hself : e.writes t with
  | true => exact Or.inr (Or.inl (h.writer_reaches hg hdoomed he hself))
  | false =>
      have hwriters : forall w, ComesBefore g.entries e w -> w.writes t = true ->
          w.key ∈ doomed := by
        intro w hew hw
        by_contra hout
        apply hwriter
        refine ⟨w, ?_, hw⟩
        rw [h.entries]
        exact hew.filter (decide_eq_true hleft) (decide_eq_true hout)
      by_cases hreader : exists k, k ∈ g.readers.get t ∧ k ∉ doomed
      · rcases hreader with ⟨k, hk, hout⟩
        cases hg.reader_follows hmem hreads hk with
        | inl hopen => exact Or.inl ⟨e.key, (h.mem_readers t _).mpr ⟨hopen, hleft⟩, .refl⟩
        | inr hbetween =>
            rcases hbetween with ⟨w, hew, hw, heq | hway⟩
            · exact absurd (heq ▸ hwriters w hew hw) hout
            · refine Or.inl ⟨k, (h.mem_readers t k).mpr ⟨hk, hout⟩, ?_⟩
              have hfirst := hg.way_of_conflict hew (Or.inr ⟨hreads, hw⟩)
              exact ((h.way_iff hleft hout).mpr (hfirst.trans hway)).to_reflTransGen
      · refine Or.inr (Or.inr ⟨hmem, hleft, hreads, hself, hwriters, ?_⟩)
        intro k hk
        by_contra hout
        exact hreader ⟨k, hk, hout⟩

theorem Deleted.cut_apart {e : Entry} {t : State} {k : NodeKey} (hcut : g.Cut doomed e t)
    (hreach : ReflTransGen (g'.Along t) e.key k) :
    k ∈ g'.pendingKeys ∧ k ≠ g'.ownerOrInitial t ∧ k ∉ g'.readers.get t := by
  have he := h.mem_entries.mpr ⟨hcut.pending, hcut.left⟩
  have hpending : k ∈ g'.pendingKeys := by
    cases hreach with
    | refl =>
        rw [← map_key_entries]
        exact List.mem_map_of_mem he
    | tail _ hlast => exact h.sound.wired.target_pending _ _ _ hlast
  refine ⟨hpending, ?_, ?_⟩
  · intro howner
    have hnear := (h.threaded hdoomed hg.threaded).owner_nearest t
    rw [← howner] at hnear
    rcases hg.last_of_pending hnear (h.mem_pendingKeys.mp hpending).left
      with ⟨a, w, b, hsplit, rfl, hw, _⟩
    have hwmem : w ∈ g'.entries := by
      rw [hsplit]
      exact List.mem_append_right _ List.mem_cons_self
    rcases h.mem_entries.mp hwmem with ⟨hwold, hwleft⟩
    rcases reflTransGen_iff_eq_or_transGen.mp hreach with heq | hway
    · have hsame := (hg.sound.entry_writes hwold).mp hw
      rw [heq, ← hg.sound.entry_writes hcut.pending, hcut.not_writes] at hsame
      cases hsame
    · have hold := (h.way_iff hcut.left hwleft).mp hway
      have hbefore := hg.forward.entries_before hg.sound.keyed hcut.pending hwold hold
      exact hwleft (hcut.writers w hbefore hw)
  · intro hreader
    rcases (h.mem_readers t k).mp hreader with ⟨hold, hout⟩
    exact hout (hcut.readers k hold)

theorem Deleted.guarded : g'.Guarded (g.Cut doomed) g'.pendingKeys := by
  refine ⟨fun k hk => hk, ?_, ?_, ?_, ?_, ?_⟩
  · intro e t hcut
    exact (h.cut_apart hg hdoomed hcut .refl).left
  · intro e t he hwrites
    exact h.writer_reaches hg hdoomed he hwrites
  · intro e t he hreads
    exact h.reader_reaches hg hdoomed he hreads
  · intro x y t hxy hconflict
    exact Or.inl (h.way_of_conflict hg hxy hconflict)
  · intro e t k hcut hreach
    exact h.cut_apart hg hdoomed hcut hreach

end Deletion

/-!
## Nodes to come
-/

section Insertion

variable {g g' : Graph ρ} {lost : Entry -> State -> Prop} {old : List NodeKey}

theorem Guarded.withCounts (h : g.Guarded lost old) (launches : Table String Nat)
    (currentLists : OrderedSet SNodeId) (nextSerial : Nat) (window : FusionWindow) :
    (g.withCounts launches currentLists nextSerial window).Guarded lost old :=
  ⟨h.old_pending, h.lost_old, h.writer, h.reader, h.way, h.apart⟩

variable {n : Node ρ} (hi : g.Inserted n g')

include hi

theorem Inserted.along {t : State} {u v : NodeKey} (h : g.Along t u v) : g'.Along t u v :=
  (hi.enters_iff u v t).mpr (Or.inl h)

theorem Inserted.reaches {t : State} {u v : NodeKey} (h : ReflTransGen (g.Along t) u v) :
    ReflTransGen (g'.Along t) u v := by
  induction h with
  | refl => exact .refl
  | tail _ hkv ih => exact ih.tail (hi.along hkv)

theorem Inserted.way_to_fresh {t : State} {u v : NodeKey} (h : ReflTransGen (g.Along t) u v)
    (hawaits : g.Awaits n.task t v) : TransGen (g'.Along t) u g.freshKey :=
  .tail' (hi.reaches h) ((hi.enters_iff _ _ t).mpr (Or.inr ⟨rfl, hawaits⟩))

theorem Guarded.writer_meets (h : g.Guarded lost old) {e : Entry} {t : State}
    (he : e ∈ g.entries) (hwrites : e.writes t = true)
    (htouch : n.task.reads t = true ∨ n.task.writes t = true) :
    TransGen (g'.Along t) e.key g.freshKey :=
  hi.way_to_fresh (h.writer e t he hwrites) (Or.inl ⟨htouch, rfl⟩)

theorem Guarded.reader_meets (h : g.Guarded lost old) {e : Entry} {t : State}
    (he : e ∈ g.entries) (hreads : e.reads t = true) (hn : n.task.writes t = true) :
    TransGen (g'.Along t) e.key g.freshKey ∨ lost e t := by
  rcases h.reader e t he hreads with ⟨k, hk, hreach⟩ | hreach | hlost
  · exact Or.inl (hi.way_to_fresh hreach (Or.inr ⟨hn, hk⟩))
  · exact Or.inl (hi.way_to_fresh hreach (Or.inl ⟨Or.inr hn, rfl⟩))
  · exact Or.inr hlost

theorem Inserted.mem_entries {e : Entry} :
    e ∈ g'.entries ↔ e ∈ g.entries ∨ e = ⟨g.freshKey, n.task⟩ := by
  rw [hi.entries, List.mem_append, List.mem_singleton]

theorem Guarded.inserted_writer (h : g.Guarded lost old) {e : Entry} {t : State}
    (he : e ∈ g'.entries) (hwrites : e.writes t = true) :
    ReflTransGen (g'.Along t) e.key (g'.ownerOrInitial t) := by
  rw [hi.ownerOrInitial]
  cases hi.mem_entries.mp he with
  | inl hold =>
      split
      · next hn => exact (h.writer_meets hi hold hwrites (Or.inr hn)).to_reflTransGen
      · exact hi.reaches (h.writer e t hold hwrites)
  | inr hnew =>
      subst hnew
      have hn : n.task.writes t = true := hwrites
      rw [if_pos hn]

theorem Guarded.inserted_reader (h : g.Guarded lost old) {e : Entry} {t : State}
    (he : e ∈ g'.entries) (hreads : e.reads t = true) :
    (exists k, k ∈ g'.readers.get t ∧ ReflTransGen (g'.Along t) e.key k) ∨
      ReflTransGen (g'.Along t) e.key (g'.ownerOrInitial t) ∨ lost e t := by
  rw [hi.ownerOrInitial]
  cases hi.mem_entries.mp he with
  | inl hold =>
      cases hn : n.task.writes t with
      | true =>
          rw [if_pos rfl]
          cases h.reader_meets hi hold hreads hn with
          | inl hway => exact Or.inr (Or.inl hway.to_reflTransGen)
          | inr hlost => exact Or.inr (Or.inr hlost)
      | false =>
          rw [if_neg Bool.false_ne_true]
          rcases h.reader e t hold hreads with ⟨k, hk, hreach⟩ | hreach | hlost
          · exact Or.inl ⟨k, (hi.mem_readers t k).mpr (Or.inr ⟨hn, hk⟩), hi.reaches hreach⟩
          · exact Or.inr (Or.inl (hi.reaches hreach))
          · exact Or.inr (Or.inr hlost)
  | inr hnew =>
      subst hnew
      have hn : n.task.reads t = true := hreads
      exact Or.inl ⟨g.freshKey, (hi.mem_readers t _).mpr (Or.inl ⟨hn, rfl⟩), .refl⟩

theorem Guarded.inserted_way (h : g.Guarded lost old) (hfresh : g.freshKey ∉ old) {x y : Entry}
    {t : State} (hxy : ComesBefore g'.entries x y) (hconflict : Conflict x y t) :
    TransGen (g'.Along t) x.key y.key ∨ (lost x t ∧ y.key ∉ old) := by
  rw [hi.entries, ComesBefore.append_iff] at hxy
  rcases hxy with hold | ⟨hx, hy⟩ | hnew
  · cases h.way x y t hold hconflict with
    | inl hway => exact Or.inl (TransGen.mono (fun _ _ => hi.along) _ _ hway)
    | inr hlost => exact Or.inr hlost
  · rw [List.mem_singleton] at hy
    subst hy
    cases hconflict with
    | inl hwrites => exact Or.inl (h.writer_meets hi hx hwrites.left hwrites.right)
    | inr hreads =>
        cases h.reader_meets hi hx hreads.left hreads.right with
        | inl hway => exact Or.inl hway
        | inr hlost => exact Or.inr ⟨hlost, hfresh⟩
  · rw [ComesBefore.cons_iff] at hnew
    rcases hnew with ⟨_, hmem⟩ | hnil
    · cases hmem
    · cases hnil

theorem Guarded.inserted_apart (h : g.Guarded lost old) (hfresh : g.freshKey ∉ old) {e : Entry}
    {t : State} {k : NodeKey} (hlost : lost e t) (hreach : ReflTransGen (g'.Along t) e.key k) :
    k ∈ old ∧ k ≠ g'.ownerOrInitial t ∧ k ∉ g'.readers.get t := by
  -- No edge into the new node comes from where lost entries have ways to.
  have hold : ReflTransGen (g.Along t) e.key k := by
    induction hreach with
    | refl => exact .refl
    | tail _ hjk ih =>
        cases (hi.enters_iff _ _ t).mp hjk with
        | inl henters => exact ih.tail henters
        | inr hnew =>
            rcases h.apart e t _ hlost ih with ⟨_, howner, hreader⟩
            cases hnew.right with
            | inl hawaits => exact absurd hawaits.right howner
            | inr hawaits => exact absurd hawaits.right hreader
  rcases h.apart e t k hlost hold with ⟨hk, howner, hreader⟩
  have hne : k ≠ g.freshKey := by
    rintro rfl
    exact hfresh hk
  refine ⟨hk, ?_, ?_⟩
  · rw [hi.ownerOrInitial]
    split
    · exact hne
    · exact howner
  · intro hmem
    cases (hi.mem_readers t k).mp hmem with
    | inl hnew => exact hne hnew.right
    | inr hstays => exact hreader hstays.right

theorem Guarded.inserted (h : g.Guarded lost old) (hg : g.Sound) : g'.Guarded lost old := by
  have hfresh : g.freshKey ∉ old :=
    fun hin => hg.keyed.freshKey_not_mem (pendingKeys_subset (h.old_pending _ hin))
  refine ⟨?_, h.lost_old, ?_, ?_, ?_, ?_⟩
  · intro k hk
    rw [hi.pendingKeys]
    exact List.mem_append_left _ (h.old_pending k hk)
  · intro e t he hwrites
    exact h.inserted_writer hi he hwrites
  · intro e t he hreads
    exact h.inserted_reader hi he hreads
  · intro x y t hxy hconflict
    exact h.inserted_way hi hfresh hxy hconflict
  · intro e t k hlost hreach
    exact h.inserted_apart hi hfresh hlost hreach

omit hi in
theorem Guarded.grown {bank : Bank ρ} {records : List ρ} (h : g.Guarded lost old)
    (hg : g.Sound) (hgrown : Grown bank g records g') : g'.Guarded lost old := by
  induction hgrown with
  | start => exact h
  | recount _ launches currentLists nextSerial ih =>
      exact ih.withCounts launches currentLists nextSerial _
  | insert before _ _ inserted ih => exact ih.inserted inserted (before.sound hg)

omit hi in
theorem Guarded.way_iff (h : g.Guarded lost old) {x y : Entry} {t : State}
    (hxy : ComesBefore g.entries x y) (hconflict : Conflict x y t) :
    TransGen (g.Along t) x.key y.key ↔ ¬(y.key ∉ old ∧ lost x t) := by
  constructor
  · rintro hway ⟨hnew, hlost⟩
    exact hnew (h.apart x t _ hlost hway.to_reflTransGen).left
  · intro hnot
    cases h.way x y t hxy hconflict with
    | inl hway => exact hway
    | inr hcut => exact absurd ⟨hcut.right, hcut.left⟩ hnot

end Insertion

/-!
## The nodes at some positions
-/

def keysAt (g : Graph ρ) (positions : OrderedSet Nat) : List NodeKey :=
  (g.pending.filter fun v => decide (v.nodeId ∈ positions)).map (·.key)

theorem KeysAt.mem_iff {g : Graph ρ} {positions : OrderedSet Nat} {doomed : List NodeKey}
    (h : g.KeysAt positions doomed) (k : NodeKey) : k ∈ g.keysAt positions ↔ k ∈ doomed := by
  rw [h k, keysAt, List.mem_map]
  simp only [List.mem_filter, decide_eq_true_eq, and_assoc]

theorem Cut.congr {g : Graph ρ} {doomed doomed' : List NodeKey} {e : Entry} {t : State}
    (h : g.Cut doomed e t) (hsame : forall k, k ∈ doomed' ↔ k ∈ doomed) :
    g.Cut doomed' e t := by
  refine ⟨h.pending, ?_, h.reads, h.not_writes, ?_, ?_⟩
  · rw [hsame]
    exact h.left
  · intro w hew hw
    rw [hsame]
    exact h.writers w hew hw
  · intro k hk
    rw [hsame]
    exact h.readers k hk

end Graph

namespace Session

/-!
## Sessions that delete and go on
-/

/-- When nodes are deleted from a graph under construction and tasks are launched into what is
left, two pending nodes that conflict on a state lie on a way of edges on the state, except
where the later node is new and the deletion cut the earlier one off. -/
theorem deletion_keeps_hazards {bank : Bank ρ} {s : Session ρ}
    (h : Reachable bank (fun _ a => Action.Constructs a) s) {positions : OrderedSet Nat}
    (hd : s.Allowed (.deleteNodes positions)) (batches : List (Bool × List ρ)) :
    exists s1 s2, s.perform bank (.deleteNodes positions) = .ok s1 ∧
      batches.foldlM (fun s b => s.perform bank (.insertTasks b.1 b.2)) s1 = .ok s2 ∧
      forall x y t, ComesBefore s2.graph.entries x y -> Conflict x y t ->
        (TransGen (s2.graph.Along t) x.key y.key ↔
          ¬(y.key ∉ s1.graph.pendingKeys ∧ s.graph.Cut (s.graph.keysAt positions) x t)) := by
  have hs := h.constructed
  rcases Graph.deleteNodes_ok hs.sound hs.forward hd
    with ⟨doomed, g1, hdelete, hkeysAt, hdeleted⟩
  have hguarded := hdeleted.guarded hs fun k hk => hkeysAt.pending hk
  let motive : Session ρ -> Prop := fun s' =>
    s'.graph.Sound ∧ s'.graph.Guarded (s.graph.Cut doomed) g1.pendingKeys
  have loop : exists s2, batches.foldlM (fun s b => s.perform bank (.insertTasks b.1 b.2))
      { s with graph := g1 } = .ok s2 ∧ motive s2 := by
    apply foldlM_ok_of_keeps motive _ ⟨hdeleted.sound, hguarded⟩
    intro b _ s' hs'
    rcases Graph.insertTasks_ok bank hs'.left b.1 b.2 with ⟨g', kept, hrun, hgrown, _⟩
    refine ⟨{ s' with graph := g' }, ?_, hgrown.sound hs'.left, hs'.right.grown hs'.left hgrown⟩
    rw [perform, hrun]
    rfl
  rcases loop with ⟨s2, hinserts, _, hguarded2⟩
  refine ⟨{ s with graph := g1 }, s2, ?_, hinserts, ?_⟩
  · rw [perform, hdelete]
    rfl
  · intro x y t hxy hconflict
    rw [hguarded2.way_iff hxy hconflict]
    have hcut : s.graph.Cut doomed x t ↔ s.graph.Cut (s.graph.keysAt positions) x t :=
      ⟨fun hc => hc.congr hkeysAt.mem_iff, fun hc => hc.congr fun k => (hkeysAt.mem_iff k).symm⟩
    rw [hcut]

end Session

namespace Sample

def shared : Session (Program Task) :=
  match Session.new.perform bank (.insertTasks false [copy, fill, copy]) with
  | .ok s => s
  | .error _ => .new

def spared : Session (Program Task) :=
  match shared.perform bank (.deleteNodes (.ofList [2])) with
  | .ok s => s
  | .error _ => .new

def refilled : Session (Program Task) :=
  match spared.perform bank (.insertTasks false [fill]) with
  | .ok s => s
  | .error _ => .new

def consumed : Session (Program Task) :=
  match Session.new.perform bank (.insertTasks false [copy, fill]) with
  | .ok s => s
  | .error _ => .new

def released : Session (Program Task) :=
  match consumed.perform bank (.deleteNodes (.ofList [2])) with
  | .ok s => s
  | .error _ => .new

def overtaken : Session (Program Task) :=
  match released.perform bank (.insertTasks false [fill]) with
  | .ok s => s
  | .error _ => .new

def reader : Entry := ⟨⟨1⟩, (bank.describe copy).task⟩

theorem second_deletable {s : Session (Program Task)} (h : 2 ∈ s.graph.pending.map (·.nodeId)) :
    s.Allowed (.deleteNodes (.ofList [2])) := by
  intro p hp
  rw [OrderedSet.mem_ofList, List.mem_singleton] at hp
  subst hp
  exact List.mem_map.mp h

end Sample

namespace Session

theorem deletion_keeps_hazards_refilled :
    exists s1 s2, Sample.shared.perform Sample.bank (.deleteNodes (.ofList [2])) = .ok s1 ∧
      s1.perform Sample.bank (.insertTasks false [Sample.fill]) = .ok s2 ∧
      TransGen (s2.graph.Along (Sample.cell 0)) ⟨1⟩ ⟨4⟩ := by
  have hshared : Reachable Sample.bank (fun _ a => Action.Constructs a) Sample.shared :=
    .step (a := .insertTasks false [Sample.copy, Sample.fill, Sample.copy]) .start trivial rfl
  rcases deletion_keeps_hazards hshared (Sample.second_deletable (by decide +kernel))
    [(false, [Sample.fill])] with ⟨s1, s2, hdelete, hinserts, hways⟩
  have hspared : Sample.shared.perform Sample.bank (.deleteNodes (.ofList [2]))
      = .ok Sample.spared := rfl
  have hrefilled : [(false, [Sample.fill])].foldlM
      (fun s b => s.perform Sample.bank (.insertTasks b.1 b.2)) Sample.spared
      = .ok Sample.refilled := rfl
  rw [hspared] at hdelete
  cases hdelete
  rw [hrefilled] at hinserts
  cases hinserts
  refine ⟨Sample.spared, Sample.refilled, rfl, rfl, ?_⟩
  have hbefore : ComesBefore Sample.refilled.graph.entries Sample.reader
      ⟨⟨4⟩, (Sample.bank.describe Sample.fill).task⟩ :=
    .of_getElem? (i := 0) (j := 2) (by decide) rfl rfl
  apply (hways _ _ _ hbefore (Or.inr ⟨by decide, by decide⟩)).mpr
  rintro ⟨_, hcut⟩
  -- The second reader is left, and the new writer waits for it.
  have hreader : (⟨3⟩ : NodeKey) ∈ Sample.shared.graph.keysAt (.ofList [2]) :=
    hcut.readers ⟨3⟩ (by decide +kernel)
  revert hreader
  decide +kernel

/-- The writer that is deleted has taken the reader before it out of the reader table.  The
writer that comes instead does not wait for the reader. -/
theorem deletion_loses_hazard :
    Reachable Sample.bank (fun _ a => Action.Constructs a) Sample.consumed ∧
      Sample.consumed.Allowed (.deleteNodes (.ofList [2])) ∧
      Sample.consumed.perform Sample.bank (.deleteNodes (.ofList [2])) = .ok Sample.released ∧
      Sample.released.perform Sample.bank (.insertTasks false [Sample.fill]) = .ok Sample.overtaken ∧
      exists x y, ComesBefore Sample.overtaken.graph.entries x y ∧ Conflict x y (Sample.cell 0) ∧
        ¬TransGen Sample.overtaken.graph.Connects x.key y.key := by
  have hconsumed : Reachable Sample.bank (fun _ a => Action.Constructs a) Sample.consumed :=
    .step (a := .insertTasks false [Sample.copy, Sample.fill]) .start trivial rfl
  have hdeletable : Sample.consumed.Allowed (.deleteNodes (.ofList [2])) :=
    Sample.second_deletable (by decide +kernel)
  refine ⟨hconsumed, hdeletable, rfl, rfl, Sample.reader,
    ⟨⟨3⟩, (Sample.bank.describe Sample.fill).task⟩, ?_, Or.inr ⟨by decide, by decide⟩, ?_⟩
  · exact .of_getElem? (i := 0) (j := 1) (by decide) rfl rfl
  · intro hpath
    have hovertaken : Reachable Sample.bank Deletable Sample.overtaken :=
      .step (a := .insertTasks false [Sample.fill])
        (.step (a := .deleteNodes (.ofList [2]))
          (.step (a := .insertTasks false [Sample.copy, Sample.fill]) .start trivial rfl)
          hdeletable rfl) trivial rfl
    have hsound := (hovertaken.consistent fun _ _ h => h).sound
    rcases TransGen.head'_iff.mp hpath with ⟨k, ⟨t, hedge⟩, _⟩
    have hleaves := (hsound.wired.mirrored _ _ t).mpr hedge
    have hnone : (Sample.overtaken.graph.outputsOf Sample.reader.key).neighbors = [] := by
      decide +kernel
    have hneighbor := Links.mem_neighbors.mpr ⟨t, hleaves⟩
    rw [hnone] at hneighbor
    cases hneighbor

end Session

end LaunchGraph
