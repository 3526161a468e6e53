import LaunchGraph.Links
import LaunchGraph.Task
import LaunchGraph.Proofs.Precedence
import Mathlib.Data.List.Induction
import Mathlib.Logic.Relation

/-!
# Edges that a sequence calls for

Which edges a graph should have follows from its sequence alone.  A node waits
for the nearest writer before it of every state that it reads or writes, and, of
every state that it writes, for the readers since that writer.  A state that no
pending node before has written comes from its origin outside of the sequence.

The module states this rule for a sequence of entries, says what one more entry
adds to it, and shows that it puts any two entries with a hazard between them on
one path.
-/

namespace LaunchGraph

/-- What a node is to the nodes after it: its key and its task. -/
structure Entry where
  key : NodeKey
  task : Task

namespace Entry

def reads (e : Entry) (s : State) : Bool := e.task.reads s

def writes (e : Entry) (s : State) : Bool := e.task.writes s

end Entry

/-- The last entry that writes a state has key `u`; if there is none, `u` is the
origin of the state. -/
def NearestWriter (origin : State -> NodeKey) (s : State) (before : List Entry)
    (u : NodeKey) : Prop :=
  (exists a e b, before = a ++ e :: b ∧ e.key = u ∧ e.writes s = true ∧
    forall x, x ∈ b -> x.writes s = false) ∨
  ((forall x, x ∈ before -> x.writes s = false) ∧ u = origin s)

/-- An entry with key `u` reads a state, and no entry after it writes the state. -/
def OpenReader (s : State) (before : List Entry) (u : NodeKey) : Prop :=
  exists a e b, before = a ++ e :: b ∧ e.key = u ∧ e.reads s = true ∧
    forall x, x ∈ b -> x.writes s = false

def WaitsFor (origin : State -> NodeKey) (before : List Entry) (e : Entry) (s : State)
    (u : NodeKey) : Prop :=
  ((e.reads s = true ∨ e.writes s = true) ∧ NearestWriter origin s before u) ∨
  (e.writes s = true ∧ OpenReader s before u)

/-- A sequence calls for an edge from `u` to `v` on a state. -/
def CallsFor (origin : State -> NodeKey) (entries : List Entry) (u v : NodeKey) (s : State) :
    Prop :=
  exists before e after, entries = before ++ e :: after ∧ e.key = v ∧
    WaitsFor origin before e s u

/-!
## One more entry
-/

theorem append_singleton_eq_split {α : Type} {l a b : List α} {x e : α}
    (h : l ++ [x] = a ++ e :: b) :
    (a = l ∧ e = x ∧ b = []) ∨ exists c, b = c ++ [x] ∧ l = a ++ e :: c := by
  rcases List.eq_nil_or_concat b with rfl | ⟨c, y, rfl⟩
  · rcases List.append_inj' h rfl with ⟨hl, hx⟩
    cases hx
    exact Or.inl ⟨hl.symm, rfl, rfl⟩
  · have hsplit : l ++ [x] = (a ++ e :: c) ++ [y] := by
      rw [h]
      simp
    rcases List.append_inj' hsplit rfl with ⟨hl, hx⟩
    cases hx
    exact Or.inr ⟨c, by simp, hl⟩

theorem nearestWriter_nil {origin : State -> NodeKey} {s : State} {u : NodeKey} :
    NearestWriter origin s [] u ↔ u = origin s := by
  simp [NearestWriter]

theorem openReader_nil {s : State} {u : NodeKey} : ¬OpenReader s [] u := by
  rintro ⟨a, e, b, h, _⟩
  simp at h

theorem nearestWriter_append_singleton {origin : State -> NodeKey} {s : State}
    {l : List Entry} {x : Entry} {u : NodeKey} :
    NearestWriter origin s (l ++ [x]) u ↔
      (x.writes s = true ∧ u = x.key) ∨
      (x.writes s = false ∧ NearestWriter origin s l u) := by
  constructor
  · rintro (⟨a, e, b, hsplit, hkey, hwrites, hafter⟩ | ⟨hnone, hu⟩)
    · rcases append_singleton_eq_split hsplit with ⟨_, rfl, _⟩ | ⟨c, rfl, hl⟩
      · exact Or.inl ⟨hwrites, hkey.symm⟩
      · refine Or.inr ⟨hafter x (by simp), Or.inl ⟨a, e, c, hl, hkey, hwrites, ?_⟩⟩
        intro y hy
        exact hafter y (List.mem_append_left _ hy)
    · refine Or.inr ⟨hnone x (by simp), Or.inr ⟨?_, hu⟩⟩
      intro y hy
      exact hnone y (List.mem_append_left _ hy)
  · rintro (⟨hwrites, rfl⟩ | ⟨hx, ⟨a, e, b, rfl, hkey, hwrites, hafter⟩ | ⟨hnone, hu⟩⟩)
    · exact Or.inl ⟨l, x, [], rfl, rfl, hwrites, fun y hy => by cases hy⟩
    · refine Or.inl ⟨a, e, b ++ [x], by simp, hkey, hwrites, ?_⟩
      intro y hy
      rcases List.mem_append.mp hy with hy | hy
      · exact hafter y hy
      · rw [List.mem_singleton.mp hy]
        exact hx
    · refine Or.inr ⟨?_, hu⟩
      intro y hy
      rcases List.mem_append.mp hy with hy | hy
      · exact hnone y hy
      · rw [List.mem_singleton.mp hy]
        exact hx

theorem openReader_append_singleton {s : State} {l : List Entry} {x : Entry} {u : NodeKey} :
    OpenReader s (l ++ [x]) u ↔
      (x.reads s = true ∧ u = x.key) ∨ (x.writes s = false ∧ OpenReader s l u) := by
  constructor
  · rintro ⟨a, e, b, hsplit, hkey, hreads, hafter⟩
    rcases append_singleton_eq_split hsplit with ⟨_, rfl, _⟩ | ⟨c, rfl, hl⟩
    · exact Or.inl ⟨hreads, hkey.symm⟩
    · refine Or.inr ⟨hafter x (by simp), a, e, c, hl, hkey, hreads, ?_⟩
      intro y hy
      exact hafter y (List.mem_append_left _ hy)
  · rintro (⟨hreads, rfl⟩ | ⟨hx, a, e, b, rfl, hkey, hreads, hafter⟩)
    · exact ⟨l, x, [], rfl, rfl, hreads, fun y hy => by cases hy⟩
    · refine ⟨a, e, b ++ [x], by simp, hkey, hreads, ?_⟩
      intro y hy
      rcases List.mem_append.mp hy with hy | hy
      · exact hafter y hy
      · rw [List.mem_singleton.mp hy]
        exact hx

theorem callsFor_append_singleton {origin : State -> NodeKey} {l : List Entry} {x : Entry}
    {u v : NodeKey} {s : State} :
    CallsFor origin (l ++ [x]) u v s ↔
      CallsFor origin l u v s ∨ (v = x.key ∧ WaitsFor origin l x s u) := by
  constructor
  · rintro ⟨before, e, after, hsplit, hkey, hwaits⟩
    rcases append_singleton_eq_split hsplit with ⟨rfl, rfl, _⟩ | ⟨c, _, hl⟩
    · exact Or.inr ⟨hkey.symm, hwaits⟩
    · exact Or.inl ⟨before, e, c, hl, hkey, hwaits⟩
  · rintro (⟨before, e, after, rfl, hkey, hwaits⟩ | ⟨rfl, hwaits⟩)
    · exact ⟨before, e, after ++ [x], by simp, hkey, hwaits⟩
    · exact ⟨l, x, [], rfl, rfl, hwaits⟩

theorem NearestWriter.unique {origin : State -> NodeKey} {s : State} {l : List Entry}
    {u v : NodeKey} (hu : NearestWriter origin s l u) (hv : NearestWriter origin s l v) :
    u = v := by
  induction l using List.reverseRecOn with
  | nil => rw [nearestWriter_nil.mp hu, nearestWriter_nil.mp hv]
  | append_singleton l x ih =>
      rw [nearestWriter_append_singleton] at hu hv
      rcases hu with ⟨hx, rfl⟩ | ⟨hx, hu⟩
      · rcases hv with ⟨_, rfl⟩ | ⟨hx', _⟩
        · rfl
        · rw [hx] at hx'
          cases hx'
      · rcases hv with ⟨hx', _⟩ | ⟨_, hv⟩
        · rw [hx] at hx'
          cases hx'
        · exact ih hu hv

theorem exists_nearestWriter (origin : State -> NodeKey) (s : State) (l : List Entry) :
    exists u, NearestWriter origin s l u := by
  induction l using List.reverseRecOn with
  | nil => exact ⟨origin s, nearestWriter_nil.mpr rfl⟩
  | append_singleton l x ih =>
      cases hx : x.writes s with
      | true => exact ⟨x.key, nearestWriter_append_singleton.mpr (Or.inl ⟨hx, rfl⟩)⟩
      | false =>
          rcases ih with ⟨u, hu⟩
          exact ⟨u, nearestWriter_append_singleton.mpr (Or.inr ⟨hx, hu⟩)⟩

theorem NearestWriter.append_of_not_writes {origin : State -> NodeKey} {s : State}
    {l m : List Entry} {u : NodeKey} (h : NearestWriter origin s l u)
    (hm : forall x, x ∈ m -> x.writes s = false) : NearestWriter origin s (l ++ m) u := by
  induction m using List.reverseRecOn with
  | nil => simpa using h
  | append_singleton m x ih =>
      rw [← List.append_assoc, nearestWriter_append_singleton]
      refine Or.inr ⟨hm x (by simp), ih ?_⟩
      intro y hy
      exact hm y (List.mem_append_left _ hy)

theorem NearestWriter.key_mem {origin : State -> NodeKey} {s : State} {l : List Entry}
    {u : NodeKey} (h : NearestWriter origin s l u) :
    u = origin s ∨ u ∈ l.map (·.key) := by
  rcases h with ⟨a, e, b, rfl, rfl, _, _⟩ | ⟨_, hu⟩
  · exact Or.inr (by simp)
  · exact Or.inl hu

theorem OpenReader.key_mem {s : State} {l : List Entry} {u : NodeKey}
    (h : OpenReader s l u) : u ∈ l.map (·.key) := by
  rcases h with ⟨a, e, b, rfl, rfl, _, _⟩
  simp

/-!
## Last writers
-/

def lastWriter (otherwise : NodeKey) (log : List Entry) (s : State) : NodeKey :=
  ((log.reverse.find? (·.writes s)).map (·.key)).getD otherwise

theorem lastWriter_append_singleton (otherwise : NodeKey) (l : List Entry) (x : Entry)
    (s : State) : lastWriter otherwise (l ++ [x]) s
      = if x.writes s = true then x.key else lastWriter otherwise l s := by
  rw [lastWriter, List.reverse_append, List.reverse_singleton, List.singleton_append,
    List.find?_cons]
  cases x.writes s with
  | true => rfl
  | false => rfl

theorem exists_writes_of_lastWriter_ne {otherwise : NodeKey} {l : List Entry} {s : State}
    (h : lastWriter otherwise l s ≠ otherwise) : exists e, e ∈ l ∧ e.writes s = true := by
  rw [lastWriter] at h
  cases hfind : l.reverse.find? (·.writes s) with
  | none =>
      rw [hfind] at h
      exact absurd rfl h
  | some e =>
      have hwrites := List.find?_some (p := fun x : Entry => x.writes s) hfind
      exact ⟨e, List.mem_reverse.mp (List.mem_of_find?_eq_some hfind), hwrites⟩

theorem NearestWriter.eq_lastWriter {otherwise : NodeKey} {l m : List Entry} {s : State}
    {u : NodeKey} (h : NearestWriter (lastWriter otherwise l) s m u) :
    lastWriter otherwise (l ++ m) s = u := by
  induction m using List.reverseRecOn with
  | nil => rw [List.append_nil, nearestWriter_nil.mp h]
  | append_singleton m x ih =>
      rw [← List.append_assoc, lastWriter_append_singleton]
      rcases nearestWriter_append_singleton.mp h with ⟨hx, rfl⟩ | ⟨hx, hm⟩
      · rw [if_pos hx]
      · rw [if_neg (by simp [hx]), ih hm]

/-!
## Hazards lie on paths
-/

def Conflict (a b : Entry) (s : State) : Prop :=
  (a.writes s = true ∧ (b.reads s = true ∨ b.writes s = true)) ∨
    (a.reads s = true ∧ b.writes s = true)

theorem conflict_congr {a b a' b' : Entry} (ha : a'.task = a.task) (hb : b'.task = b.task)
    (s : State) : Conflict a' b' s ↔ Conflict a b s := by
  simp only [Conflict, Entry.reads, Entry.writes, ha, hb]

theorem mem_hazards_iff_conflict {a b : Entry} {s : State} :
    s ∈ a.task.hazards b.task ↔ Conflict a b s := by
  rw [Task.mem_hazards, Conflict]
  simp only [Entry.reads, Entry.writes, Task.reads, Task.writes, decide_eq_true_eq]
  constructor
  · rintro (⟨ha, hb⟩ | ⟨ha, hb⟩ | ⟨ha, hb⟩)
    · exact Or.inl ⟨ha, Or.inl hb⟩
    · exact Or.inl ⟨ha, Or.inr hb⟩
    · exact Or.inr ⟨ha, hb⟩
  · rintro (⟨ha, hb | hb⟩ | ⟨ha, hb⟩)
    · exact Or.inl ⟨ha, hb⟩
    · exact Or.inr (Or.inl ⟨ha, hb⟩)
    · exact Or.inr (Or.inr ⟨ha, hb⟩)

theorem exists_last {α : Type} (p : α -> Bool) (l : List α) :
    (forall x, x ∈ l -> p x = false) ∨
      exists a x b, l = a ++ x :: b ∧ p x = true ∧ forall y, y ∈ b -> p y = false := by
  induction l using List.reverseRecOn with
  | nil => exact Or.inl (fun x hx => by cases hx)
  | append_singleton l z ih =>
      cases hz : p z with
      | true => exact Or.inr ⟨l, z, [], rfl, hz, fun y hy => by cases hy⟩
      | false =>
          rcases ih with hnone | ⟨a, x, b, rfl, hx, hafter⟩
          · refine Or.inl ?_
            intro y hy
            rcases List.mem_append.mp hy with hy | hy
            · exact hnone y hy
            · rw [List.mem_singleton.mp hy]
              exact hz
          · refine Or.inr ⟨a, x, b ++ [z], by simp, hx, ?_⟩
            intro y hy
            rcases List.mem_append.mp hy with hy | hy
            · exact hafter y hy
            · rw [List.mem_singleton.mp hy]
              exact hz

/-- A conflict on a state calls for an edge if no entry in between writes the state. -/
theorem callsFor_of_conflict {origin : State -> NodeKey} {s : State} {entries : List Entry}
    {a : List Entry} {x : Entry} {b : List Entry} {y : Entry} {c : List Entry}
    (hsplit : entries = a ++ x :: (b ++ y :: c)) (hconflict : Conflict x y s)
    (hnone : forall z, z ∈ b -> z.writes s = false) : CallsFor origin entries x.key y.key s := by
  refine ⟨a ++ x :: b, y, c, by simp [hsplit], rfl, ?_⟩
  rcases hconflict with ⟨hx, htouch⟩ | ⟨hx, hy⟩
  · exact Or.inl ⟨htouch, Or.inl ⟨a, x, b, rfl, rfl, hx, hnone⟩⟩
  · exact Or.inr ⟨hy, a, x, b, rfl, rfl, hx, hnone⟩

theorem CallsFor.conflict {origin : State -> NodeKey} {s : State} {entries : List Entry}
    {x y : Entry} (h : CallsFor origin entries x.key y.key s)
    (hnodup : (entries.map (·.key)).Nodup) (hx : x ∈ entries) (hy : y ∈ entries)
    (horigin : x.key ≠ origin s) :
    exists a b c, entries = a ++ x :: (b ++ y :: c) ∧ Conflict x y s ∧
      forall z, z ∈ b -> z.writes s = false := by
  rcases h with ⟨before, e, c, rfl, hkey, hwaits⟩
  have he := List.inj_on_of_nodup_map hnodup (by simp) hy hkey
  subst he
  have hsame : forall w, w ∈ before -> w.key = x.key -> w = x := by
    intro w hw hwx
    exact List.inj_on_of_nodup_map hnodup (List.mem_append_left _ hw) hx hwx
  rcases hwaits with ⟨htouch, ⟨a, w, b, rfl, hwx, hwrites, hnone⟩ | ⟨_, heq⟩⟩ |
    ⟨hwrites, a, w, b, rfl, hwx, hreads, hnone⟩
  · have hw := hsame w (by simp) hwx
    subst hw
    exact ⟨a, b, c, by simp, Or.inl ⟨hwrites, htouch⟩, hnone⟩
  · exact absurd heq horigin
  · have hw := hsame w (by simp) hwx
    subst hw
    exact ⟨a, b, c, by simp, Or.inr ⟨hreads, hwrites⟩, hnone⟩

/-- Two entries that conflict on a state lie on a path of edges on that state that the sequence
calls for.  The induction is on the number of entries between them: the last writer in
between, if there is one, splits the way into two shorter ones. -/
theorem way_of_conflict {origin : State -> NodeKey} {s : State} {entries : List Entry}
    {a : List Entry} {x : Entry} {b : List Entry} {y : Entry} {c : List Entry}
    (hsplit : entries = a ++ x :: (b ++ y :: c)) (hconflict : Conflict x y s) :
    Relation.TransGen (fun u v => CallsFor origin entries u v s) x.key y.key := by
  induction hn : b.length using Nat.strongRecOn generalizing b y c with
  | ind n ih =>
      rcases exists_last (fun e : Entry => e.writes s) b with hnone | ⟨b1, w, b2, rfl, hw, hafter⟩
      · exact Relation.TransGen.single (callsFor_of_conflict hsplit hconflict hnone)
      · have htouch : y.reads s = true ∨ y.writes s = true := by
          rcases hconflict with ⟨_, htouch⟩ | ⟨_, hyw⟩
          · exact htouch
          · exact Or.inr hyw
        have hxw : Conflict x w s := by
          rcases hconflict with ⟨hx, _⟩ | ⟨hx, _⟩
          · exact Or.inl ⟨hx, Or.inr hw⟩
          · exact Or.inr ⟨hx, hw⟩
        have hsplitw : entries = a ++ x :: (b1 ++ w :: (b2 ++ y :: c)) := by
          rw [hsplit]
          simp
        have hshort : b1.length < n := by
          rw [← hn]
          simp only [List.length_append, List.length_cons]
          omega
        have hfirst := ih b1.length hshort hsplitw hxw rfl
        have hlast : entries = (a ++ x :: b1) ++ w :: (b2 ++ y :: c) := by
          rw [hsplit]
          simp
        exact Relation.TransGen.tail hfirst
          (callsFor_of_conflict hlast (Or.inl ⟨hw, htouch⟩) hafter)

theorem path_of_conflict {origin : State -> NodeKey} {s : State} {entries : List Entry}
    {a : List Entry} {x : Entry} {b : List Entry} {y : Entry} {c : List Entry}
    (hsplit : entries = a ++ x :: (b ++ y :: c)) (hconflict : Conflict x y s) :
    Relation.TransGen (fun u v => exists t, CallsFor origin entries u v t) x.key y.key := by
  have hedges : forall u v, CallsFor origin entries u v s -> exists t, CallsFor origin entries u v t :=
    fun _ _ huv => ⟨s, huv⟩
  exact Relation.TransGen.mono hedges _ _ (way_of_conflict hsplit hconflict)

end LaunchGraph
