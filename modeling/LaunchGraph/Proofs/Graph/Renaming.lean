import Mathlib.Logic.Relator
import LaunchGraph.Proofs.Graph.Rebuild

/-!
# Graphs under other keys

Keys only say which node is meant.  Two graphs that differ in their keys alone, and in the
ages of their nodes, stay so when the same node is put into both, and everything is kept in
the same order in both.
-/

namespace LaunchGraph

open Relator

/-!
## Keys to come
-/

/-- Old keys stay, and the keys from one stamp on become the keys from another stamp on. -/
def Shifted (old : List NodeKey) (a b : Nat) (k j : NodeKey) : Prop :=
  (k = j ∧ k ∈ old) ∨ exists i, k = ⟨a + i⟩ ∧ j = ⟨b + i⟩

theorem Shifted.biUnique {old : List NodeKey} {a b : Nat}
    (ha : forall k, k ∈ old -> k.stamp < a) (hb : forall k, k ∈ old -> k.stamp < b) :
    BiUnique (Shifted old a b) := by
  have hold : forall i, (⟨a + i⟩ : NodeKey) ∉ old := by
    intro i hmem
    exact absurd (ha _ hmem) (Nat.not_lt.mpr (Nat.le_add_right a i))
  have hold' : forall i, (⟨b + i⟩ : NodeKey) ∉ old := by
    intro i hmem
    exact absurd (hb _ hmem) (Nat.not_lt.mpr (Nat.le_add_right b i))
  constructor
  · rintro k j l (⟨rfl, hk⟩ | ⟨i, rfl, rfl⟩) (⟨rfl, hj⟩ | ⟨i', rfl, hl⟩)
    · rfl
    · exact absurd (hl ▸ hk) (hold' i')
    · exact absurd hj (hold' i)
    · rw [Nat.add_left_cancel (NodeKey.mk.inj hl)]
  · rintro k j l (⟨rfl, hk⟩ | ⟨i, rfl, rfl⟩) (⟨rfl, hj⟩ | ⟨i', hl, rfl⟩)
    · rfl
    · exact absurd (hl ▸ hk) (hold i')
    · exact absurd hj (hold i)
    · rw [Nat.add_left_cancel (NodeKey.mk.inj hl)]

/-!
## Links
-/

def Links.Matches (R : NodeKey -> NodeKey -> Prop) (l m : Links) : Prop :=
  List.Forall₂ (fun e f => e.1 = f.1 ∧ List.Forall₂ R e.2 f.2) l.entries m.entries

section Entries

variable {R : NodeKey -> NodeKey -> Prop} {l m : List (State × List NodeKey)}

theorem lookup_matches (h : List.Forall₂ (fun e f => e.1 = f.1 ∧ List.Forall₂ R e.2 f.2) l m)
    (s : State) :
    List.Forall₂ R ((Table.lookup s l).getD []) ((Table.lookup s m).getD []) := by
  induction h with
  | nil => exact .nil
  | @cons e f _ _ hef _ ih =>
      rw [Table.lookup, Table.lookup, ← hef.left]
      split
      · exact hef.right
      · exact ih

theorem setIn_matches (h : List.Forall₂ (fun e f => e.1 = f.1 ∧ List.Forall₂ R e.2 f.2) l m)
    (s : State) {ks js : List NodeKey} (hks : List.Forall₂ R ks js) :
    List.Forall₂ (fun e f => e.1 = f.1 ∧ List.Forall₂ R e.2 f.2)
      (Table.setIn s ks l) (Table.setIn s js m) := by
  induction h with
  | nil => exact .cons ⟨rfl, hks⟩ .nil
  | @cons e f _ _ hef hrest ih =>
      rw [Table.setIn, Table.setIn, ← hef.left]
      split
      · exact .cons ⟨rfl, hks⟩ hrest
      · exact .cons hef ih

end Entries

namespace Links.Matches

variable {R : NodeKey -> NodeKey -> Prop} {l m : Links}

theorem get (h : l.Matches R m) (s : State) : List.Forall₂ R (l.get s) (m.get s) :=
  lookup_matches h s

theorem empty : (∅ : Links).Matches R ∅ := .nil

theorem insert (h : l.Matches R m) (hR : BiUnique R) {k j : NodeKey} (hkj : R k j) (s : State) :
    (l.insert s k).Matches R (m.insert s j) := by
  have hmem : k ∈ l.get s ↔ j ∈ m.get s := List.rel_mem hR hkj (h.get s)
  rw [Links.insert, Links.insert]
  by_cases hk : k ∈ l.get s
  · rw [dif_pos hk, dif_pos (hmem.mp hk)]
    exact h
  · rw [dif_neg hk, dif_neg (fun hj => hk (hmem.mpr hj))]
    apply setIn_matches h
    exact List.rel_append (h.get s) (.cons hkj .nil)

theorem eraseState (h : l.Matches R m) (s : State) :
    (l.eraseState s).Matches R (m.eraseState s) := by
  apply List.rel_filterMap _ h
  rintro ⟨t, ks⟩ ⟨t', js⟩ ⟨htt, hks⟩
  cases htt
  dsimp only
  have hkept : List.Forall₂ R (ks.filter fun _ => t != s) (js.filter fun _ => t != s) := by
    cases t != s with
    | false => simp
    | true => simpa using hks
  by_cases hnil : ks.filter (fun _ => t != s) = []
  · have hnil' := List.forall₂_nil_left_iff.mp (hnil ▸ hkept)
    rw [if_pos hnil, if_pos hnil']
    exact .none
  · have hnil' : js.filter (fun _ => t != s) ≠ [] := by
      intro heq
      exact hnil (List.forall₂_nil_right_iff.mp (heq ▸ hkept))
    rw [if_neg hnil, if_neg hnil']
    exact .some ⟨rfl, hkept⟩

theorem symm (h : l.Matches R m) : m.Matches (flip R) l := by
  apply List.Forall₂.flip
  apply List.Forall₂.imp _ h
  intro e f hef
  exact ⟨hef.left.symm, hef.right.flip⟩

theorem trans {S : NodeKey -> NodeKey -> Prop} {n : Links} (h : l.Matches R m)
    (h' : m.Matches S n) : l.Matches (Relation.Comp R S) n := by
  apply forall₂_trans _ h h'
  intro d e f hde hef
  constructor
  · exact hde.left.trans hef.left
  · exact forall₂_trans (fun _ j _ hj hj' => ⟨j, hj, hj'⟩) hde.right hef.right

end Links.Matches

/-!
## Vertices
-/

structure Vertex.Matches {ρ : Type} (R : NodeKey -> NodeKey -> Prop) (v w : Vertex ρ) : Prop where
  key : R v.key w.key
  record : v.record = w.record
  handle : v.handle = w.handle
  launchId : v.launchId = w.launchId
  nodeId : v.nodeId = w.nodeId
  pendingId : v.pendingId = w.pendingId
  isInitial : v.isInitial = w.isInitial
  inputs : v.inputs.Matches R w.inputs
  outputs : v.outputs.Matches R w.outputs

namespace Vertex.Matches

variable {ρ : Type} {R S : NodeKey -> NodeKey -> Prop} {v w x : Vertex ρ}

theorem symm (h : v.Matches R w) : w.Matches (flip R) v :=
  ⟨h.key, h.record.symm, h.handle.symm, h.launchId.symm, h.nodeId.symm, h.pendingId.symm,
    h.isInitial.symm, h.inputs.symm, h.outputs.symm⟩

theorem trans (h : v.Matches R w) (h' : w.Matches S x) : v.Matches (Relation.Comp R S) x :=
  ⟨⟨_, h.key, h'.key⟩, h.record.trans h'.record, h.handle.trans h'.handle,
    h.launchId.trans h'.launchId, h.nodeId.trans h'.nodeId, h.pendingId.trans h'.pendingId,
    h.isInitial.trans h'.isInitial, h.inputs.trans h'.inputs, h.outputs.trans h'.outputs⟩

theorem insertInput (h : v.Matches R w) (hR : BiUnique R) {k j : NodeKey} (hkj : R k j)
    (s : State) :
    (v.update fun n => { n with inputs := n.inputs.insert s k }).Matches R
      (w.update fun n => { n with inputs := n.inputs.insert s j }) :=
  { h with inputs := h.inputs.insert hR hkj s }

theorem insertOutput (h : v.Matches R w) (hR : BiUnique R) {k j : NodeKey} (hkj : R k j)
    (s : State) :
    (v.update fun n => { n with outputs := n.outputs.insert s k }).Matches R
      (w.update fun n => { n with outputs := n.outputs.insert s j }) :=
  { h with outputs := h.outputs.insert hR hkj s }

end Vertex.Matches

namespace Graph

variable {ρ : Type}

/-!
## Graphs
-/

/-- The same nodes in the same order with the same edges, and the same owners and readers,
where `R` says which key is which. -/
structure Matches (R : NodeKey -> NodeKey -> Prop) (g h : Graph ρ) : Prop where
  initial : g.initial.Matches R h.initial
  history : List.Forall₂ (Vertex.Matches R) g.history h.history
  pending : List.Forall₂ (Vertex.Matches R) g.pending h.pending
  readers : g.readers.Matches R h.readers
  owners : forall s, R (g.ownerOrInitial s) (h.ownerOrInitial s)

/-- The two graphs differ in nothing but the keys and the ages of their nodes. -/
def SameUpToKeys (g h : Graph ρ) : Prop := exists R, BiUnique R ∧ g.Matches R h

namespace Matches

variable {R S : NodeKey -> NodeKey -> Prop} {g h i : Graph ρ}

theorem symm (hm : g.Matches R h) : h.Matches (flip R) g := by
  have hback : forall {l m : List (Vertex ρ)}, List.Forall₂ (Vertex.Matches R) l m ->
      List.Forall₂ (Vertex.Matches (flip R)) m l := by
    intro l m hlm
    apply List.Forall₂.flip
    exact hlm.imp fun _ _ hvw => hvw.symm
  exact ⟨hm.initial.symm, hback hm.history, hback hm.pending, hm.readers.symm, hm.owners⟩

theorem trans (hm : g.Matches R h) (hm' : h.Matches S i) :
    g.Matches (Relation.Comp R S) i :=
  ⟨hm.initial.trans hm'.initial,
    forall₂_trans (fun _ _ _ hv hw => hv.trans hw) hm.history hm'.history,
    forall₂_trans (fun _ _ _ hv hw => hv.trans hw) hm.pending hm'.pending,
    hm.readers.trans hm'.readers, fun s => ⟨_, hm.owners s, hm'.owners s⟩⟩

theorem vertices (hm : g.Matches R h) :
    List.Forall₂ (Vertex.Matches R) g.vertices h.vertices :=
  List.rel_append (.cons hm.initial hm.history) hm.pending

theorem size (hm : g.Matches R h) : g.size = h.size := hm.vertices.length_eq

end Matches

theorem SameUpToKeys.symm {g h : Graph ρ} (hs : g.SameUpToKeys h) : h.SameUpToKeys g := by
  rcases hs with ⟨R, hR, hm⟩
  exact ⟨flip R, ⟨fun _ _ _ h h' => hR.right h h', fun _ _ _ h h' => hR.left h h'⟩, hm.symm⟩

theorem SameUpToKeys.trans {g h i : Graph ρ} (hs : g.SameUpToKeys h)
    (hs' : h.SameUpToKeys i) : g.SameUpToKeys i := by
  rcases hs with ⟨R, hR, hm⟩
  rcases hs' with ⟨S, hS, hm'⟩
  refine ⟨Relation.Comp R S, ⟨?_, ?_⟩, hm.trans hm'⟩
  · rintro a b c ⟨x, hax, hxc⟩ ⟨y, hby, hyc⟩
    rw [hS.left hyc hxc] at hby
    exact hR.left hax hby
  · rintro a b c ⟨x, hax, hxb⟩ ⟨y, hay, hyc⟩
    rw [hR.right hay hax] at hyc
    exact hS.right hxb hyc

/-!
## The same node put into both
-/

theorem ownerOrInitial_update (g : Graph ρ) (k : NodeKey) (f : Node ρ -> Node ρ) (s : State) :
    (g.update k f).ownerOrInitial s = g.ownerOrInitial s := by
  have hinitial : (g.update k f).initial.key = g.initial.key := by
    show (if g.initial.key = k then g.initial.update f else g.initial).key = _
    split
    · rfl
    · rfl
  rw [ownerOrInitial, hinitial]
  rfl

theorem ownerOrInitial_set (g : Graph ρ) (s t : State) (k : NodeKey) :
    ({ g with owners := g.owners.set s k } : Graph ρ).ownerOrInitial t =
      if t = s then k else g.ownerOrInitial t := by
  rw [ownerOrInitial, Table.get?_set]
  split
  · rfl
  · rfl

structure Parallel (R : NodeKey -> NodeKey -> Prop) (g h : Graph ρ) : Prop extends
    g.Matches R h where
  fresh : forall i, R ⟨g.nextStamp + i⟩ ⟨h.nextStamp + i⟩

namespace Parallel

variable {R : NodeKey -> NodeKey -> Prop} {g h : Graph ρ} {k j : NodeKey} (hR : BiUnique R)

include hR

theorem update (hp : g.Parallel R h) (hkj : R k j) {f f' : Node ρ -> Node ρ}
    (hf : forall v w : Vertex ρ, v.Matches R w -> (v.update f).Matches R (w.update f')) :
    (g.update k f).Parallel R (h.update j f') := by
  have hvertex : forall v w : Vertex ρ, v.Matches R w ->
      (if v.key = k then v.update f else v).Matches R (if w.key = j then w.update f' else w) := by
    intro v w hvw
    have hkey : v.key = k ↔ w.key = j := rel_eq hR hvw.key hkj
    by_cases hv : v.key = k
    · rw [if_pos hv, if_pos (hkey.mp hv)]
      exact hf v w hvw
    · rw [if_neg hv, if_neg (fun hw => hv (hkey.mpr hw))]
      exact hvw
  have hvertices : forall {l m : List (Vertex ρ)}, List.Forall₂ (Vertex.Matches R) l m ->
      List.Forall₂ (Vertex.Matches R) (l.map fun v => if v.key = k then v.update f else v)
        (m.map fun w => if w.key = j then w.update f' else w) :=
    fun hlm => List.rel_map hvertex hlm
  refine ⟨⟨hvertex _ _ hp.initial, hvertices hp.history, hvertices hp.pending, hp.readers, ?_⟩,
    hp.fresh⟩
  intro s
  rw [ownerOrInitial_update, ownerOrInitial_update]
  exact hp.owners s

theorem connect (hp : g.Parallel R h) {source target source' target' : NodeKey}
    (hsource : R source source') (htarget : R target target') (s : State) :
    (g.connect source target s).Parallel R (h.connect source' target' s) := by
  apply update hR _ htarget
  · intro v w hvw
    exact hvw.insertInput hR hsource s
  · apply update hR hp hsource
    intro v w hvw
    exact hvw.insertOutput hR htarget s

omit hR in
theorem require (hp : g.Parallel R h) (hR : BiUnique R) (hkj : R k j) :
    Tracks (fun _ _ => True) (g.require k) (h.require j) := by
  intro _ hrun
  have hk : k ∈ g.keys := by
    by_contra hk
    rw [Graph.require, if_neg (fun hc => hk (contains_iff.mp hc))] at hrun
    cases hrun
  have hkeys : List.Forall₂ R g.keys h.keys := List.rel_map (fun _ _ hvw => hvw.key) hp.vertices
  have hj : j ∈ h.keys := (List.rel_mem hR hkj hkeys).mp hk
  exact ⟨(), require_ok hj, trivial⟩

theorem insertEdge (hp : g.Parallel R h) {source target source' target' : NodeKey}
    (hsource : R source source') (htarget : R target target') (s : State) :
    Tracks (Parallel R) (g.insertEdge source target s) (h.insertEdge source' target' s) := by
  have hself : source = target ↔ source' = target' := rel_eq hR hsource htarget
  rw [Graph.insertEdge, Graph.insertEdge]
  by_cases heq : source = target
  · rw [if_pos heq, if_pos (hself.mp heq)]
    exact .ok hp
  · rw [if_neg heq, if_neg (fun h => heq (hself.mpr h))]
    apply Tracks.bind (hp.require hR hsource)
    intro _ _ _
    apply Tracks.bind (hp.require hR htarget)
    intro _ _ _
    exact .ok (hp.connect hR hsource htarget s)

theorem insertEdgesInto (hp : g.Parallel R h) {sources sources' : List NodeKey}
    {target target' : NodeKey} (hsources : List.Forall₂ R sources sources')
    (htarget : R target target') (s : State) :
    Tracks (Parallel R) (g.insertEdgesInto sources target s)
      (h.insertEdgesInto sources' target' s) := by
  apply Tracks.foldlM hsources _ hp
  intro g h source source' hp hsource
  exact hp.insertEdge hR hsource htarget s

theorem connectRead (hp : g.Parallel R h) (hkj : R k j) (s : State) :
    Tracks (Parallel R) (g.connectRead k s) (h.connectRead j s) :=
  hp.insertEdge hR (hp.owners s) hkj s

theorem connectWrite (hp : g.Parallel R h) (hkj : R k j) (s : State) :
    Tracks (Parallel R) (g.connectWrite k s) (h.connectWrite j s) := by
  apply Tracks.bind (hp.insertEdge hR (hp.owners s) hkj s)
  intro g1 h1 hp1
  apply Tracks.bind
  · have herased : ({ g1 with readers := g1.readers.eraseState s } : Graph ρ).Parallel R
        { h1 with readers := h1.readers.eraseState s } :=
      { hp1 with readers := hp1.readers.eraseState s }
    exact herased.insertEdgesInto hR (hp1.readers.get s) hkj s
  · intro g2 h2 hp2
    apply Tracks.ok
    refine { hp2 with owners := ?_ }
    intro t
    rw [ownerOrInitial_set, ownerOrInitial_set]
    split
    · exact hkj
    · exact hp2.owners t

theorem addReader (hp : g.Parallel R h) (hkj : R k j) (s : State) :
    (g.addReader k s).Parallel R (h.addReader j s) :=
  { hp with readers := hp.readers.insert hR hkj s }

omit hR in
theorem withArrival (hp : g.Parallel R h) (n : Node ρ) :
    (g.withArrival n).Parallel R (h.withArrival n) := by
  have harrival : (g.arrivalVertex n).Matches R (h.arrivalVertex n) := by
    refine ⟨hp.fresh 0, rfl, rfl, rfl, hp.size, ?_, rfl, .empty, .empty⟩
    exact congrArg some hp.pending.length_eq
  refine ⟨⟨hp.initial, hp.history, ?_, hp.readers, hp.owners⟩, ?_⟩
  · exact List.rel_append hp.pending (.cons harrival .nil)
  · intro i
    show R ⟨g.nextStamp + 1 + i⟩ ⟨h.nextStamp + 1 + i⟩
    rw [Nat.add_right_comm, Nat.add_right_comm h.nextStamp, Nat.add_assoc, Nat.add_assoc]
    exact hp.fresh (i + 1)

theorem insertNode (hp : g.Parallel R h) (n : Node ρ) :
    Tracks (fun r r' => r.1.Parallel R r'.1) (g.insertNode n) (h.insertNode n) := by
  have hfresh : R g.freshKey h.freshKey := hp.fresh 0
  have hsame : forall states : List State, List.Forall₂ Eq states states :=
    fun states => List.forall₂_refl states
  rw [insertNode_eq, insertNode_eq]
  apply Tracks.bind
  · apply Tracks.foldlM (hsame _) _ (hp.withArrival n)
    rintro g h s _ hp rfl
    exact hp.connectRead hR hfresh s
  · intro g1 h1 hp1
    apply Tracks.bind
    · apply Tracks.foldlM (hsame _) _ hp1
      rintro g h s _ hp rfl
      exact hp.connectWrite hR hfresh s
    · intro g2 h2 hp2
      apply Tracks.ok
      apply List.rel_foldl _ hp2 (hsame _)
      rintro g h hp s _ rfl
      exact hp.addReader hR hfresh s

theorem insertNodes (hp : g.Parallel R h) (nodes : List (Node ρ)) :
    Tracks (Parallel R) (g.insertNodes nodes) (h.insertNodes nodes) := by
  have hsame : List.Forall₂ Eq nodes nodes := List.forall₂_refl nodes
  apply Tracks.foldlM hsame _ hp
  rintro g h n _ hp rfl
  apply Tracks.bind (hp.insertNode hR n)
  intro r r' hr
  exact .ok hr

end Parallel

/-!
## What an insertion looks at
-/

theorem insertNode_congr (g : Graph ρ) {n n' : Node ρ} (h : n.ticket = n'.ticket) :
    g.insertNode n = g.insertNode n' := by
  cases n
  cases n'
  cases h
  rfl

theorem insertNodes_congr (g : Graph ρ) {nodes nodes' : List (Node ρ)}
    (h : nodes.map (·.ticket) = nodes'.map (·.ticket)) :
    g.insertNodes nodes = g.insertNodes nodes' := by
  induction nodes generalizing nodes' g with
  | nil =>
      have hnil : nodes' = [] := List.map_eq_nil_iff.mp h.symm
      rw [hnil]
  | cons n rest ih =>
      cases nodes' with
      | nil => cases h
      | cons n' rest' =>
          rcases List.cons.inj h with ⟨hn, hrest⟩
          rw [insertNodes, insertNodes, List.foldlM_cons, List.foldlM_cons,
            insertNode_congr g hn]
          congr 1
          funext g1
          exact ih g1 hrest

theorem insertNodes_append (g : Graph ρ) (nodes : List (Node ρ)) (n : Node ρ) :
    g.insertNodes (nodes ++ [n]) =
      g.insertNodes nodes >>= fun g => g.insertNode n >>= fun r => .ok r.1 := by
  rw [insertNodes, List.foldlM_append]
  congr 1
  funext g1
  rw [List.foldlM_cons]
  cases g1.insertNode n with
  | error e => rfl
  | ok r => rfl

end Graph

end LaunchGraph
