import LaunchGraph.Graph.Basic
import LaunchGraph.Proofs.Links
import LaunchGraph.Proofs.Loops
import Mathlib.Data.List.Nodup

/-!
# Edges

An edge is kept twice: at its source, from which it leaves, and at its target,
which it enters.  The module views a graph as these two relations over keys,
together with a frame, which is all the rest of the graph.  Operations on edges
are described by what they do to the relations; none of them touches the frame.
-/

namespace LaunchGraph

namespace Vertex

variable {ρ : Type}

def bare (v : Vertex ρ) : Vertex ρ := v.update (·.disconnected)

@[simp] theorem key_bare (v : Vertex ρ) : v.bare.key = v.key := rfl

@[simp] theorem handle_bare (v : Vertex ρ) : v.bare.handle = v.handle := rfl

@[simp] theorem task_bare (v : Vertex ρ) : v.bare.task = v.task := rfl

@[simp] theorem record_bare (v : Vertex ρ) : v.bare.record = v.record := rfl

@[simp] theorem nodeId_bare (v : Vertex ρ) : v.bare.nodeId = v.nodeId := rfl

@[simp] theorem pendingId_bare (v : Vertex ρ) : v.bare.pendingId = v.pendingId := rfl

@[simp] theorem seq_bare (v : Vertex ρ) : v.bare.seq = v.seq := rfl

@[simp] theorem isInitial_bare (v : Vertex ρ) : v.bare.isInitial = v.isInitial := rfl

@[simp] theorem writes_bare (v : Vertex ρ) (s : State) : v.bare.writes s = v.writes s := rfl

@[simp] theorem reads_bare (v : Vertex ρ) (s : State) : v.bare.reads s = v.reads s := rfl

theorem key_eq_of_bare_eq {v w : Vertex ρ} (h : w.bare = v.bare) : w.key = v.key := by
  have hkey := congrArg (fun v : Vertex ρ => v.key) h
  exact hkey

theorem nodeId_eq_of_bare_eq {v w : Vertex ρ} (h : w.bare = v.bare) : w.nodeId = v.nodeId := by
  have hid := congrArg (fun v : Vertex ρ => v.nodeId) h
  exact hid

end Vertex

namespace Graph

variable {ρ : Type}

/-!
## Keys
-/

def keys (g : Graph ρ) : List NodeKey := g.vertices.map (·.key)

theorem mem_keys {g : Graph ρ} {k : NodeKey} :
    k ∈ g.keys ↔ exists v, v ∈ g.vertices ∧ v.key = k :=
  List.mem_map

theorem key_mem_keys {g : Graph ρ} {v : Vertex ρ} (h : v ∈ g.vertices) : v.key ∈ g.keys :=
  List.mem_map_of_mem h

theorem mem_of_find? {g : Graph ρ} {k : NodeKey} {v : Vertex ρ} (h : g.find? k = some v) :
    v ∈ g.vertices :=
  List.mem_of_find?_eq_some h

theorem key_of_find? {g : Graph ρ} {k : NodeKey} {v : Vertex ρ} (h : g.find? k = some v) :
    v.key = k := by
  have hkey := List.find?_some h
  exact beq_iff_eq.mp hkey

theorem contains_iff {g : Graph ρ} {k : NodeKey} : g.contains k = true ↔ k ∈ g.keys := by
  rw [contains, find?, List.find?_isSome, mem_keys]
  simp

theorem exists_find? {g : Graph ρ} {k : NodeKey} (h : k ∈ g.keys) :
    exists v, g.find? k = some v :=
  Option.isSome_iff_exists.mp (contains_iff.mpr h)

theorem mem_keys_of_find? {g : Graph ρ} {k : NodeKey} {v : Vertex ρ}
    (h : g.find? k = some v) : k ∈ g.keys :=
  mem_keys.mpr ⟨v, mem_of_find? h, key_of_find? h⟩

theorem find?_of_mem {g : Graph ρ} {v : Vertex ρ} (hkeys : g.keys.Nodup)
    (hv : v ∈ g.vertices) : g.find? v.key = some v := by
  rcases exists_find? (key_mem_keys hv) with ⟨w, hw⟩
  have hwv : w = v :=
    List.inj_on_of_nodup_map hkeys (mem_of_find? hw) hv (key_of_find? hw)
  rw [hw, hwv]

theorem find_eq_ok_iff {g : Graph ρ} {k : NodeKey} {v : Vertex ρ} :
    g.find k = .ok v ↔ g.find? k = some v := by
  rw [find]
  cases g.find? k with
  | none => simp
  | some w => simp

theorem find_ok {g : Graph ρ} {k : NodeKey} {v : Vertex ρ} (h : g.find? k = some v) :
    g.find k = .ok v :=
  find_eq_ok_iff.mpr h

theorem find_error {g : Graph ρ} {k : NodeKey} {e : Fault} (h : g.find k = .error e) :
    e = .staleKey k := by
  rw [find] at h
  cases hfind : g.find? k with
  | some w =>
      rw [hfind] at h
      cases h
  | none =>
      rw [hfind] at h
      cases h
      rfl

theorem require_ok {g : Graph ρ} {k : NodeKey} (h : k ∈ g.keys) : g.require k = .ok () := by
  rw [require, if_pos (contains_iff.mpr h)]

theorem modify_ok {g : Graph ρ} {k : NodeKey} {f : Node ρ -> Node ρ} (h : k ∈ g.keys) :
    g.modify k f = .ok (g.update k f) := by
  rw [modify, require_ok h]
  rfl

/-!
## The frame
-/

def frame (g : Graph ρ) : Graph ρ := g.mapVertices Vertex.bare

/-- The graph without its edges and without what follows from them for nodes to
come: owners and readers. -/
def skeleton (g : Graph ρ) : Graph ρ := { g.frame with owners := ∅, readers := ∅ }

theorem skeleton_congr {g g' : Graph ρ} (h : g'.frame = g.frame) : g'.skeleton = g.skeleton := by
  rw [skeleton, h, skeleton]

theorem owners_congr {g g' : Graph ρ} (h : g'.frame = g.frame) : g'.owners = g.owners := by
  have howners := congrArg Graph.owners h
  exact howners

theorem readers_congr {g g' : Graph ρ} (h : g'.frame = g.frame) : g'.readers = g.readers := by
  have hreaders := congrArg Graph.readers h
  exact hreaders

theorem bareVertices_congr {g g' : Graph ρ} (h : g'.skeleton = g.skeleton) :
    g'.vertices.map Vertex.bare = g.vertices.map Vertex.bare := by
  have hv := congrArg Graph.vertices h
  exact (g'.vertices_mapVertices Vertex.bare).symm.trans
    (hv.trans (g.vertices_mapVertices Vertex.bare))

theorem barePending_congr {g g' : Graph ρ} (h : g'.skeleton = g.skeleton) :
    g'.pending.map Vertex.bare = g.pending.map Vertex.bare :=
  congrArg Graph.pending h

theorem bareExecuted_congr {g g' : Graph ρ} (h : g'.skeleton = g.skeleton) :
    g'.executed.map Vertex.bare = g.executed.map Vertex.bare :=
  congrArg Graph.executed h

theorem map_congr_of_bare {β : Type} {f : Vertex ρ -> β} (hf : forall v, f v.bare = f v)
    {l l' : List (Vertex ρ)} (h : l'.map Vertex.bare = l.map Vertex.bare) :
    l'.map f = l.map f := by
  have hcomp : f ∘ Vertex.bare = f := funext hf
  have hmap := congrArg (List.map f) h
  rw [List.map_map, List.map_map, hcomp] at hmap
  exact hmap

theorem keys_congr {g g' : Graph ρ} (h : g'.skeleton = g.skeleton) : g'.keys = g.keys :=
  map_congr_of_bare (fun _ => rfl) (bareVertices_congr h)

theorem pendingKeys_congr {g g' : Graph ρ} (h : g'.skeleton = g.skeleton) :
    g'.pendingKeys = g.pendingKeys :=
  map_congr_of_bare (fun _ => rfl) (barePending_congr h)

theorem find?_skeleton (g : Graph ρ) (k : NodeKey) :
    g.skeleton.find? k = (g.find? k).map Vertex.bare := by
  have hvertices : g.skeleton.vertices = g.vertices.map Vertex.bare :=
    g.vertices_mapVertices Vertex.bare
  rw [find?, hvertices, List.find?_map]
  rfl

theorem find?_bare_congr {g g' : Graph ρ} (h : g'.skeleton = g.skeleton) (k : NodeKey) :
    (g'.find? k).map Vertex.bare = (g.find? k).map Vertex.bare := by
  rw [← find?_skeleton, h, find?_skeleton]

theorem frame_update {g : Graph ρ} {k : NodeKey} {f : Node ρ -> Node ρ}
    (hf : forall n, (f n).disconnected = n.disconnected) : (g.update k f).frame = g.frame := by
  have hbare : forall v : Vertex ρ, (if v.key = k then v.update f else v).bare = v.bare := by
    intro v
    split
    · show Vertex.mk (f v.toNode).disconnected v.key = _
      rw [hf]
      rfl
    · rfl
  have hlist : forall l : List (Vertex ρ),
      (l.map fun v => if v.key = k then v.update f else v).map Vertex.bare
        = l.map Vertex.bare := by
    intro l
    rw [List.map_map]
    exact List.map_congr_left (fun v _ => hbare v)
  show Graph.mk _ _ _ _ _ _ _ _ _ _ _ = Graph.mk _ _ _ _ _ _ _ _ _ _ _
  congr 1
  · exact hbare g.initial
  · exact hlist g.history
  · exact hlist g.pending

/-!
## Edges as relations
-/

def inputsOf (g : Graph ρ) (k : NodeKey) : Links := ((g.find? k).map (·.inputs)).getD ∅

def outputsOf (g : Graph ρ) (k : NodeKey) : Links := ((g.find? k).map (·.outputs)).getD ∅

/-- An edge from `u` to `v` on `s`, as its target knows it. -/
def Enters (g : Graph ρ) (u v : NodeKey) (s : State) : Prop := u ∈ (g.inputsOf v).get s

/-- An edge from `u` to `v` on `s`, as its source knows it. -/
def Leaves (g : Graph ρ) (u v : NodeKey) (s : State) : Prop := v ∈ (g.outputsOf u).get s

theorem inputsOf_of_find? {g : Graph ρ} {k : NodeKey} {v : Vertex ρ}
    (h : g.find? k = some v) : g.inputsOf k = v.inputs := by
  rw [inputsOf, h]
  rfl

theorem outputsOf_of_find? {g : Graph ρ} {k : NodeKey} {v : Vertex ρ}
    (h : g.find? k = some v) : g.outputsOf k = v.outputs := by
  rw [outputsOf, h]
  rfl

theorem Enters.target_mem {g : Graph ρ} {u v : NodeKey} {s : State} (h : g.Enters u v s) :
    v ∈ g.keys := by
  cases hv : g.find? v with
  | none =>
      rw [Enters, inputsOf, hv] at h
      cases h
  | some w => exact mem_keys_of_find? hv

theorem Leaves.source_mem {g : Graph ρ} {u v : NodeKey} {s : State} (h : g.Leaves u v s) :
    u ∈ g.keys := by
  cases hu : g.find? u with
  | none =>
      rw [Leaves, outputsOf, hu] at h
      cases h
  | some w => exact mem_keys_of_find? hu

theorem find?_update_self {g : Graph ρ} {k : NodeKey} {f : Node ρ -> Node ρ} {v : Vertex ρ}
    (h : g.find? k = some v) : (g.update k f).find? k = some (v.update f) := by
  rw [find?_update, h, Option.map_some, if_pos (key_of_find? h)]

theorem find?_update_of_ne {g : Graph ρ} {k j : NodeKey} {f : Node ρ -> Node ρ} (h : j ≠ k) :
    (g.update k f).find? j = g.find? j := by
  rw [find?_update]
  cases hj : g.find? j with
  | none => rfl
  | some v =>
      have hkey : v.key ≠ k := by
        rw [key_of_find? hj]
        exact h
      rw [Option.map_some, if_neg hkey]

theorem inputsOf_update {g : Graph ρ} {k : NodeKey} {f : Node ρ -> Node ρ} {v : Vertex ρ}
    (h : g.find? k = some v) (j : NodeKey) :
    (g.update k f).inputsOf j = if j = k then (f v.toNode).inputs else g.inputsOf j := by
  by_cases hj : j = k
  · subst hj
    rw [if_pos rfl, inputsOf, find?_update_self h]
    rfl
  · rw [if_neg hj, inputsOf, find?_update_of_ne hj, inputsOf]

theorem outputsOf_update {g : Graph ρ} {k : NodeKey} {f : Node ρ -> Node ρ} {v : Vertex ρ}
    (h : g.find? k = some v) (j : NodeKey) :
    (g.update k f).outputsOf j = if j = k then (f v.toNode).outputs else g.outputsOf j := by
  by_cases hj : j = k
  · subst hj
    rw [if_pos rfl, outputsOf, find?_update_self h]
    rfl
  · rw [if_neg hj, outputsOf, find?_update_of_ne hj, outputsOf]

/-- A graph that differs from another one in its edges only, which are given. -/
structure Rewired (g g' : Graph ρ) (leaves enters : NodeKey -> NodeKey -> State -> Prop) :
    Prop where
  frame : g'.frame = g.frame
  leaves_iff : forall u v s, g'.Leaves u v s ↔ leaves u v s
  enters_iff : forall u v s, g'.Enters u v s ↔ enters u v s

theorem Rewired.keys {g g' : Graph ρ} {leaves enters : NodeKey -> NodeKey -> State -> Prop}
    (h : g.Rewired g' leaves enters) : g'.keys = g.keys :=
  keys_congr (skeleton_congr h.frame)

/-!
## Single edges
-/

theorem dropOutput_rewired {g : Graph ρ} {a : NodeKey} (ha : a ∈ g.keys) (b : NodeKey)
    (s : State) :
    exists g', g.dropOutput a b s = .ok g' ∧
      g.Rewired g' (fun u v t => g.Leaves u v t ∧ ¬(u = a ∧ v = b ∧ t = s)) g.Enters := by
  rcases exists_find? ha with ⟨w, hw⟩
  refine ⟨_, modify_ok ha, frame_update fun _ => rfl, ?_, ?_⟩
  · intro u v t
    rw [Leaves, outputsOf_update hw, Leaves]
    by_cases hu : u = a
    · subst hu
      rw [if_pos rfl, Links.mem_get_erase, outputsOf_of_find? hw]
      simp [and_comm]
    · simp [hu]
  · intro u v t
    rw [Enters, inputsOf_update hw, Enters]
    by_cases hv : v = a
    · subst hv
      rw [if_pos rfl, inputsOf_of_find? hw]
    · rw [if_neg hv]

theorem dropInput_rewired {g : Graph ρ} {b : NodeKey} (hb : b ∈ g.keys) (a : NodeKey)
    (s : State) :
    exists g', g.dropInput a b s = .ok g' ∧
      g.Rewired g' g.Leaves (fun u v t => g.Enters u v t ∧ ¬(u = a ∧ v = b ∧ t = s)) := by
  rcases exists_find? hb with ⟨w, hw⟩
  refine ⟨_, modify_ok hb, frame_update fun _ => rfl, ?_, ?_⟩
  · intro u v t
    rw [Leaves, outputsOf_update hw, Leaves]
    by_cases hu : u = b
    · subst hu
      rw [if_pos rfl, outputsOf_of_find? hw]
    · rw [if_neg hu]
  · intro u v t
    rw [Enters, inputsOf_update hw, Enters]
    by_cases hv : v = b
    · subst hv
      rw [if_pos rfl, Links.mem_get_erase, inputsOf_of_find? hw]
      simp [and_comm]
    · simp [hv]

theorem insertEdge_rewired {g : Graph ρ} {a b : NodeKey} (ha : a ∈ g.keys) (hb : b ∈ g.keys)
    (s : State) :
    exists g', g.insertEdge a b s = .ok g' ∧
      g.Rewired g' (fun u v t => g.Leaves u v t ∨ (a ≠ b ∧ u = a ∧ v = b ∧ t = s))
        (fun u v t => g.Enters u v t ∨ (a ≠ b ∧ u = a ∧ v = b ∧ t = s)) := by
  by_cases hab : a = b
  · refine ⟨g, by rw [insertEdge, if_pos hab], rfl, ?_, ?_⟩
    · simp [hab]
    · simp [hab]
  · rcases exists_find? ha with ⟨v, hv⟩
    rcases exists_find? hb with ⟨w, hw⟩
    have hw' : forall f, (g.update a f).find? b = some w := by
      intro f
      rw [find?_update_of_ne (Ne.symm hab), hw]
    refine ⟨g.connect a b s, ?_, ?_, ?_, ?_⟩
    · rw [insertEdge, if_neg hab, require_ok ha, ok_bind, require_ok hb, ok_bind]
      rfl
    · rw [connect]
      refine (frame_update ?_).trans (frame_update ?_)
      · intro n
        rfl
      · intro n
        rfl
    · intro x y t
      rw [Leaves, connect, outputsOf_update (hw' _), outputsOf_update hv, Leaves]
      by_cases hx : x = a
      · subst hx
        rw [if_neg hab, if_pos rfl, Links.mem_get_insert, outputsOf_of_find? hv]
        simp [hab, and_comm]
      · by_cases hxb : x = b
        · subst hxb
          rw [if_pos rfl, outputsOf_of_find? hw]
          simp [hx]
        · simp [hx, hxb]
    · intro x y t
      rw [Enters, connect, inputsOf_update (hw' _), inputsOf_update hv, Enters]
      by_cases hy : y = b
      · subst hy
        rw [if_pos rfl, Links.mem_get_insert, inputsOf_of_find? hw]
        simp [hab, and_comm]
      · by_cases hya : y = a
        · subst hya
          rw [if_neg hab, if_pos rfl, inputsOf_of_find? hv]
          simp [hab]
        · simp [hy, hya]

/-!
## Several edges at once
-/

theorem insertEdgesInto_rewired {g : Graph ρ} {sources : List NodeKey} {b : NodeKey}
    (hsources : forall a, a ∈ sources -> a ∈ g.keys) (hb : b ∈ g.keys) (s : State) :
    exists g', g.insertEdgesInto sources b s = .ok g' ∧
      g.Rewired g' (fun u v t => g.Leaves u v t ∨ (u ∈ sources ∧ u ≠ b ∧ v = b ∧ t = s))
        (fun u v t => g.Enters u v t ∨ (u ∈ sources ∧ u ≠ b ∧ v = b ∧ t = s)) := by
  refine foldlM_ok_of_step
    (fun done g' =>
      g.Rewired g' (fun u v t => g.Leaves u v t ∨ (u ∈ done ∧ u ≠ b ∧ v = b ∧ t = s))
        (fun u v t => g.Enters u v t ∨ (u ∈ done ∧ u ≠ b ∧ v = b ∧ t = s))) ?_ ?_
  · intro done a rest g1 hsplit h1
    have ha : a ∈ g1.keys := by
      rw [h1.keys]
      exact hsources a (by simp [hsplit])
    have hb1 : b ∈ g1.keys := by
      rw [h1.keys]
      exact hb
    rcases insertEdge_rewired ha hb1 s with ⟨g2, hg2, h2⟩
    refine ⟨g2, hg2, h2.frame.trans h1.frame, ?_, ?_⟩
    · intro u v t
      rw [h2.leaves_iff, h1.leaves_iff, List.mem_append, List.mem_singleton]
      grind
    · intro u v t
      rw [h2.enters_iff, h1.enters_iff, List.mem_append, List.mem_singleton]
      grind
  · refine ⟨rfl, ?_, ?_⟩
    · intro u v t
      simp
    · intro u v t
      simp

end Graph
end LaunchGraph
