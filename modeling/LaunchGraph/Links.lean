import LaunchGraph.State
import LaunchGraph.Table

/-!
# Links

The neighbors of a node, state by state.  States are kept in the order in which
their first neighbor came in, and so are the neighbors of one state.  A state
without neighbors is not kept, and no neighbor is kept twice for one state.
-/

namespace LaunchGraph

/-- A handle to a node.  Stamps are handed out once each, so the handle of a
node that is gone never names another node. -/
structure NodeKey where
  stamp : Nat
deriving DecidableEq, Inhabited

def NodeKey.text (k : NodeKey) : String := "NodeKey(" ++ toString k.stamp ++ ")"

/-- Neighbors by state. -/
structure Links where
  byState : Table State (List NodeKey)
  wellFormed : forall s ks, byState.get? s = some ks -> ks ≠ [] ∧ ks.Nodup

namespace Links

def empty : Links := ⟨∅, by simp⟩

instance : EmptyCollection Links := ⟨empty⟩

instance : Inhabited Links := ⟨∅⟩

def entries (l : Links) : List (State × List NodeKey) := l.byState.entries

def get (l : Links) (s : State) : List NodeKey := (l.byState.get? s).getD []

def contains (l : Links) (s : State) (k : NodeKey) : Bool := k ∈ l.get s

def pairs (l : Links) : List (State × NodeKey) :=
  l.entries.flatMap fun e => e.2.map (e.1, ·)

def neighbors (l : Links) : List NodeKey := l.entries.flatMap (·.2)

def stateCount (l : Links) : Nat := l.entries.length

def pairCount (l : Links) : Nat := l.pairs.length

def isEmpty (l : Links) : Bool := l.entries.isEmpty

theorem nodup_get (l : Links) (s : State) : (l.get s).Nodup := by
  rw [get]
  cases h : l.byState.get? s with
  | none => exact List.nodup_nil
  | some ks => exact (l.wellFormed s ks h).2

@[simp] theorem get_empty (s : State) : (∅ : Links).get s = [] := rfl

/-! ## Adding and removing pairs -/

/-- Adds a pair at the end, unless it is there. -/
def insert (l : Links) (s : State) (k : NodeKey) : Links :=
  if h : k ∈ l.get s then l
  else
    ⟨l.byState.set s (l.get s ++ [k]), fun t ks ht => by
      rw [Table.get?_set] at ht
      split at ht
      · cases ht
        refine ⟨by simp, List.nodup_append.2 ⟨l.nodup_get s, by simp, ?_⟩⟩
        intro a ha b hb e
        rw [List.mem_singleton] at hb
        exact h (hb ▸ e ▸ ha)
      · exact l.wellFormed t ks ht⟩

theorem get_insert {l : Links} {s t : State} {k : NodeKey} :
    (l.insert s k).get t =
      if t = s ∧ k ∉ l.get s then l.get t ++ [k] else l.get t := by
  rw [insert]
  split
  · next h => simp [h]
  · next h =>
      rw [get, Table.get?_set]
      by_cases ht : t = s
      · subst ht
        simp [h]
      · simp [ht, get]

/-- Changes the neighbors of every state, dropping the states left without any. -/
def mapNeighbors (l : Links) (f : State -> List NodeKey -> List NodeKey)
    (hf : forall s ks, ks.Nodup -> (f s ks).Nodup) : Links :=
  ⟨l.byState.filterMap fun s ks => if f s ks = [] then none else some (f s ks), fun s ks h => by
    rw [Table.get?_filterMap, Option.bind_eq_some_iff] at h
    obtain ⟨old, hold, h⟩ := h
    split at h
    · cases h
    · next hne =>
        cases h
        exact ⟨hne, hf s old (l.wellFormed s old hold).2⟩⟩

theorem get_mapNeighbors {l : Links} {f : State -> List NodeKey -> List NodeKey}
    {hf : forall s ks, ks.Nodup -> (f s ks).Nodup} {s : State} (h : f s [] = []) :
    (l.mapNeighbors f hf).get s = f s (l.get s) := by
  rw [get, get, mapNeighbors, Table.get?_filterMap]
  cases hs : l.byState.get? s with
  | none => simp [h]
  | some ks =>
      rw [Option.bind_some, Option.getD_some]
      split
      · next he => rw [he]; rfl
      · rfl

def filter (l : Links) (p : State -> NodeKey -> Bool) : Links :=
  l.mapNeighbors (fun s ks => ks.filter (p s)) fun s _ h => h.filter (p s)

@[simp] theorem get_filter {l : Links} {p : State -> NodeKey -> Bool} {s : State} :
    (l.filter p).get s = (l.get s).filter (p s) :=
  get_mapNeighbors rfl

def erase (l : Links) (s : State) (k : NodeKey) : Links :=
  l.filter fun t j => !(t == s && j == k)

def eraseNode (l : Links) (k : NodeKey) : Links := l.filter fun _ j => j != k

def eraseState (l : Links) (s : State) : Links := l.filter fun t _ => t != s

/-- Puts `b` in the place of `a` in a list, or just leaves `a` out if `b` is in
the list already. -/
def substitute (a b : NodeKey) (ks : List NodeKey) : List NodeKey :=
  if b ∈ ks then (if a = b then ks else ks.filter (· != a))
  else ks.map fun k => if k = a then b else k

theorem nodup_substitute {a b : NodeKey} {ks : List NodeKey} (h : ks.Nodup) :
    (substitute a b ks).Nodup := by
  rw [substitute]
  split
  · split
    · exact h
    · exact h.filter _
  · next hb =>
      refine List.pairwise_map.2 (List.Pairwise.imp_of_mem ?_ h)
      intro x y hx hy hxy
      split
      · next hxa =>
          split
          · next hya => exact absurd (hxa.trans hya.symm) hxy
          · exact fun e => hb (e ▸ hy)
      · split
        · exact fun e => hb (e ▸ hx)
        · exact hxy

/-- Replaces the neighbor `a` by `b` everywhere, without making duplicates. -/
def replace (l : Links) (a b : NodeKey) : Links :=
  l.mapNeighbors (fun _ ks => substitute a b ks) fun _ _ => nodup_substitute

@[simp] theorem get_replace {l : Links} {a b : NodeKey} {s : State} :
    (l.replace a b).get s = substitute a b (l.get s) :=
  get_mapNeighbors rfl

end Links

end LaunchGraph
