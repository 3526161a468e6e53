import LaunchGraph.Graph.Draw
import LaunchGraph.Proofs.DotReader
import LaunchGraph.Proofs.LaunchNumbers

/-!
# What drawings show

The drawing of a graph has one statement for each node and one for each edge, and it is read back
from its text.  Identifiers tell the nodes apart as long as no launch is called like the initial
node, whose name is not set apart from names of tasks.
-/

namespace LaunchGraph

variable {ρ : Type}

theorem Links.nodup_pairs (l : Links) : l.pairs.Nodup := by
  rw [pairs, List.nodup_flatMap]
  constructor
  · intro e he
    exact (nodup_of_mem_entries he).right.map fun _ _ h => (Prod.mk.inj h).right
  · have hstates : l.entries.Pairwise fun e e' => e.1 ≠ e'.1 :=
      List.pairwise_map.mp l.byState.keys_nodup
    refine hstates.imp fun hne => ?_
    rw [Function.onFun, List.disjoint_left]
    intro p hp hp'
    rcases List.mem_map.mp hp with ⟨k, _, rfl⟩
    rcases List.mem_map.mp hp' with ⟨k', _, heq⟩
    exact hne (Prod.mk.inj heq).left.symm

theorem Node.label_isTitle (n : Node ρ) : Dot.IsTitle n.label := by
  refine ⟨"node: " ++ n.task.name ++ ":" ++ toString n.launchId, ?_⟩
  have hopen : "[node: " = "[" ++ "node: " := rfl
  rw [label, hopen]
  simp only [String.append_assoc]

namespace Graph

/-!
## Edges
-/

structure StoredEdge where
  source : NodeKey
  state : State
  target : NodeKey

def storedEdges (g : Graph ρ) : List StoredEdge :=
  g.vertices.flatMap fun v => v.outputs.pairs.map fun p => ⟨v.key, p.1, p.2⟩

theorem mem_storedEdges {g : Graph ρ} (hg : g.Keyed) {u v : NodeKey} {s : State} :
    ⟨u, s, v⟩ ∈ g.storedEdges ↔ g.Leaves u v s := by
  rw [storedEdges, List.mem_flatMap]
  constructor
  · rintro ⟨w, hw, hedge⟩
    rcases List.mem_map.mp hedge with ⟨⟨t, k⟩, hpair, heq⟩
    cases heq
    rw [Leaves, outputsOf_of_find? (find?_of_mem hg.nodup hw)]
    exact Links.mem_pairs.mp hpair
  · intro hleaves
    have hfind := find?_vertexOf hleaves.source_mem
    rw [Leaves, outputsOf_of_find? hfind] at hleaves
    refine ⟨g.vertexOf u, mem_of_find? hfind, ?_⟩
    exact List.mem_map.mpr ⟨(s, v), Links.mem_pairs.mpr hleaves, by rw [key_of_find? hfind]⟩

theorem nodup_storedEdges {g : Graph ρ} (hg : g.Keyed) : g.storedEdges.Nodup := by
  rw [storedEdges, List.nodup_flatMap]
  constructor
  · intro v _
    refine v.outputs.nodup_pairs.map ?_
    rintro ⟨s, k⟩ ⟨t, j⟩ h
    cases h
    rfl
  · have hkeys : g.vertices.Pairwise fun v w => v.key ≠ w.key := List.pairwise_map.mp hg.nodup
    refine hkeys.imp fun hne => ?_
    rw [Function.onFun, List.disjoint_left]
    intro e he he'
    rcases List.mem_map.mp he with ⟨p, _, rfl⟩
    rcases List.mem_map.mp he' with ⟨q, _, heq⟩
    exact hne (congrArg StoredEdge.source heq).symm

def statementOf (g : Graph ρ) (slot : NodeKey -> Nat) (threshold : Nat) (e : StoredEdge) :
    Dot.EdgeStatement where
  source := dotId slot (g.vertexOf e.source)
  target := dotId slot (g.vertexOf e.target)
  state := e.state
  fromCell := hasCells threshold (g.vertexOf e.source)
    && (g.vertexOf e.source).task.writes e.state
  isFlow := (g.vertexOf e.target).reads e.state

theorem edges_drawing {g : Graph ρ} (hg : g.Sound) (slot : NodeKey -> Nat)
    (rankdir : Option String) (threshold : Nat) : (g.drawing slot rankdir threshold).edges
      = g.storedEdges.map (g.statementOf slot threshold) := by
  rw [drawing, storedEdges, List.map_flatMap]
  refine List.flatMap_congr fun v hv => ?_
  rw [edgeStatements, List.map_map, ← List.filterMap_eq_map]
  refine List.filterMap_congr ?_
  rintro ⟨s, target⟩ hpair
  have hleaves := hg.linked.leaves_of_mem hv hpair
  have htarget := find?_vertexOf ((hg.wired.mirrored _ _ _).mp hleaves).target_mem
  simp only [edgeStatement?, htarget, Option.map_some, Function.comp_apply, statementOf,
    hg.keyed.vertexOf_key hv]

/-!
## Statements
-/

section Shown

variable (g : Graph ρ) (name : NodeKey -> String) (cells : NodeKey -> List State)

structure NodeShown (n : Dot.NodeStatement) (v : Vertex ρ) : Prop where
  id : n.id = name v.key
  cells : n.cells = cells v.key
  title : n.title = v.label
  initial : n.isInitial = v.isInitial
  owner : n.isOwner = true ↔ exists s, g.owners.get? s = some v.key

/-- What an edge statement says about an edge: where it leads from and to, which state it is for,
whether it leaves from a cell of its source or has a label, and whether the target reads the
state. -/
structure EdgeShown (e : Dot.EdgeStatement) (edge : StoredEdge) : Prop where
  source : e.source = name edge.source
  target : e.target = name edge.target
  state : e.state = edge.state
  cell : e.fromCell = true ↔ edge.state ∈ cells edge.source
  flow : e.isFlow = true ↔ g.ReadsAt edge.target edge.state

/-- The statements of a drawing are about the nodes and the edges of a graph, each of them once. -/
structure ShownBy (d : Dot.Drawing) : Prop where
  nodes : List.Forall₂ (NodeShown g name cells) d.nodes g.vertices
  edges : exists stored : List StoredEdge, stored.Nodup ∧
    (forall u s v, ⟨u, s, v⟩ ∈ stored ↔ g.Leaves u v s) ∧
    List.Forall₂ (EdgeShown g name cells) d.edges stored
  ends : forall e, e ∈ d.edges ->
    e.source ∈ d.nodes.map (·.id) ∧ e.target ∈ d.nodes.map (·.id)

end Shown

def cellsOf (g : Graph ρ) (threshold : Nat) (k : NodeKey) : List State :=
  if hasCells threshold (g.vertexOf k) then (g.vertexOf k).task.outputs.toList else []

theorem nodeStatement_shown {g : Graph ρ} (hg : g.Keyed) (slot : NodeKey -> Nat) (threshold : Nat)
    {v : Vertex ρ} (hv : v ∈ g.vertices) : NodeShown g (fun k => dotId slot (g.vertexOf k))
      (g.cellsOf threshold) (g.nodeStatement slot threshold v) v := by
  have hself := hg.vertexOf_key hv
  refine ⟨?_, ?_, rfl, rfl, ?_⟩
  · rw [hself]
    rfl
  · rw [cellsOf, hself]
    rfl
  · rw [nodeStatement, decide_eq_true_iff]
    exact Table.mem_values_iff

theorem statementOf_shown {g : Graph ρ} (slot : NodeKey -> Nat) (threshold : Nat) {e : StoredEdge}
    (htarget : e.target ∈ g.keys) : EdgeShown g (fun k => dotId slot (g.vertexOf k))
      (g.cellsOf threshold) (g.statementOf slot threshold e) e := by
  refine ⟨rfl, rfl, rfl, ?_, vertexOf_reads htarget⟩
  rw [statementOf, Bool.and_eq_true, Task.writes, decide_eq_true_iff, cellsOf]
  split
  · next hcells => exact and_iff_right hcells
  · next hcells => exact iff_of_false (fun h => hcells h.left) List.not_mem_nil

theorem drawing_shows {g : Graph ρ} (hg : g.Sound) (slot : NodeKey -> Nat)
    (rankdir : Option String) (threshold : Nat) :
    g.ShownBy (fun k => dotId slot (g.vertexOf k)) (g.cellsOf threshold)
      (g.drawing slot rankdir threshold) := by
  have htarget : forall e, e ∈ g.storedEdges -> e.source ∈ g.keys ∧ e.target ∈ g.keys := by
    rintro ⟨u, s, v⟩ he
    have hleaves := (mem_storedEdges hg.keyed).mp he
    exact ⟨hleaves.source_mem, ((hg.wired.mirrored u v s).mp hleaves).target_mem⟩
  have hids : forall k, k ∈ g.keys ->
      dotId slot (g.vertexOf k) ∈ (g.drawing slot rankdir threshold).nodes.map (·.id) := by
    intro k hk
    exact List.mem_map_of_mem (List.mem_map_of_mem (vertexOf_mem hk))
  refine ⟨?_, ⟨g.storedEdges, nodup_storedEdges hg.keyed, ?_, ?_⟩, ?_⟩
  · rw [drawing, List.forall₂_map_left_iff, List.forall₂_same]
    exact fun v hv => nodeStatement_shown hg.keyed slot threshold hv
  · exact fun u s v => mem_storedEdges hg.keyed
  · rw [edges_drawing hg, List.forall₂_map_left_iff, List.forall₂_same]
    exact fun e he => statementOf_shown slot threshold (htarget e he).right
  · intro e he
    rw [edges_drawing hg] at he
    rcases List.mem_map.mp he with ⟨edge, hedge, rfl⟩
    exact ⟨hids _ (htarget edge hedge).left, hids _ (htarget edge hedge).right⟩

theorem drawing_legible {g : Graph ρ} (hg : g.Sound) {rankdir : Option String}
    (hrankdir : forall r, rankdir = some r -> Dot.IsWord r) (slot : NodeKey -> Nat)
    (threshold : Nat) : (g.drawing slot rankdir threshold).Legible := by
  have hid : forall v : Vertex ρ, Dot.IsWord (dotId slot v) := fun v => Dot.isWord_identifier ..
  refine ⟨hrankdir, ?_, ?_, ?_, ?_⟩
  · intro n hn
    rcases List.mem_map.mp hn with ⟨v, _, rfl⟩
    exact hid v
  · intro n hn
    rcases List.mem_map.mp hn with ⟨v, _, rfl⟩
    exact v.label_isTitle
  · intro e he
    rw [edges_drawing hg] at he
    rcases List.mem_map.mp he with ⟨edge, _, rfl⟩
    exact hid _
  · intro e he
    rw [edges_drawing hg] at he
    rcases List.mem_map.mp he with ⟨edge, _, rfl⟩
    exact hid _

/-!
## Identifiers
-/

/-- The positions of the nodes can stand for their slots. -/
theorem nodup_map_positionOf {g : Graph ρ} (hg : g.Sound) : (g.keys.map g.positionOf).Nodup := by
  have hpositions : g.keys.map g.positionOf = g.vertices.map (·.nodeId) := by
    rw [keys, List.map_map]
    refine List.map_congr_left fun v hv => ?_
    rw [Function.comp_apply, positionOf, find?_of_mem hg.keyed.nodup hv]
    rfl
  rw [hpositions, hg.numbered.nodeIds]
  exact List.nodup_range

/-- No launch is called like the initial node. -/
def SparesInitial (g : Graph ρ) : Prop :=
  forall v, v ∈ g.history ++ g.pending -> v.call ≠ ("initial_state", 0)

instance (g : Graph ρ) : Decidable g.SparesInitial :=
  inferInstanceAs (Decidable (forall v, v ∈ g.history ++ g.pending -> v.call ≠ ("initial_state", 0)))

theorem dotId_of_call {v : Vertex ρ} (h : v.call = ("initial_state", 0)) (slot : NodeKey -> Nat) :
    dotId slot v = "n_initial_state_0" := by
  rcases Prod.mk.inj h with ⟨hname, hid⟩
  rw [dotId, hname, hid]
  rfl

theorem Enrolls.call_initial {bank : Bank ρ} {outside : List (Node ρ)} {g : Graph ρ}
    (h : g.Enrolls bank outside) : g.initial.call = ("initial_state", 0) :=
  congrArg (fun t : Option ρ × TaskHandle × Nat => (t.2.1.task.name, t.2.2)) h.initial

theorem nodup_dotIds_iff {bank : Bank ρ} {outside : List (Node ρ)} {g : Graph ρ} (hg : g.Sound)
    (h : g.Enrolls bank outside) {slot : NodeKey -> Nat} (hslot : (g.keys.map slot).Nodup) :
    (g.vertices.map (dotId slot)).Nodup ↔ g.SparesInitial := by
  have hvertices : g.vertices = g.initial :: (g.history ++ g.pending) := rfl
  constructor
  · intro hnodup v hv hcall
    rw [hvertices, List.map_cons, List.nodup_cons] at hnodup
    refine hnodup.left ?_
    rw [dotId_of_call h.call_initial, ← dotId_of_call hcall slot]
    exact List.mem_map_of_mem hv
  · intro hspares
    have hlater : (g.history ++ g.pending).map (fun v : Vertex ρ => v.call) =
        g.laterNodes.map (·.call) := by
      rw [laterNodes, List.map_map]
      rfl
    have hcalls : (g.vertices.map fun v : Vertex ρ => v.call).Nodup := by
      rw [hvertices, List.map_cons, List.nodup_cons, h.call_initial, hlater]
      refine ⟨?_, ?_⟩
      · intro hmem
        rw [← hlater] at hmem
        rcases List.mem_map.mp hmem with ⟨v, hv, hcall⟩
        exact hspares v hv hcall
      · have hnodup := h.enrolled.nodup
        rw [List.map_append] at hnodup
        exact (List.nodup_append.mp hnodup).left
    refine List.Nodup.map_on ?_ (List.Nodup.of_map _ hg.keyed.nodup)
    intro v hv w hw hsame
    by_cases hstored : slot v.key = slot w.key
    · have hkey := List.inj_on_of_nodup_map hslot (List.mem_map_of_mem hv) (List.mem_map_of_mem hw)
        hstored
      exact List.inj_on_of_nodup_map hg.keyed.nodup hv hw hkey
    · rcases Dot.identifier_inj hsame hstored with ⟨hname, hid⟩
      exact List.inj_on_of_nodup_map hcalls hv hw (congrArg₂ Prod.mk hname hid)

end Graph

/-!
## Sessions
-/

namespace Session

/-- Whatever names tasks have, and whatever distinct slots the nodes have, the drawing is read back
from its text, and its statements are about the nodes and the edges of the graph, each of them once.
The identifiers are distinct exactly if no launch is called like the initial node. -/
theorem Stocked.dot_faithful {bank : Bank ρ} {s : Session ρ} {stock : List (Node ρ)}
    (h : Stocked bank s stock) (hbank : bank.KeepsNames) {rankdir : Option String}
    (hrankdir : forall r, rankdir = some r -> Dot.IsWord r) (threshold : Nat)
    {slot : NodeKey -> Nat} (hslot : (s.graph.keys.map slot).Nodup) :
    exists d name cells, s.graph.dot rankdir threshold slot = d.text ∧
      Dot.read? d.text = some d ∧ d.rankdir = rankdir ∧ s.graph.ShownBy name cells d ∧
      ((d.nodes.map (·.id)).Nodup ↔ s.graph.SparesInitial) := by
  have hsound := h.consistent.sound
  refine ⟨s.graph.drawing slot rankdir threshold, _, _, rfl,
    Dot.read?_text (Graph.drawing_legible hsound hrankdir slot threshold), rfl,
    Graph.drawing_shows hsound slot rankdir threshold, ?_⟩
  have hids : (s.graph.drawing slot rankdir threshold).nodes.map (·.id)
      = s.graph.vertices.map (Graph.dotId slot) := by
    rw [Graph.drawing, List.map_map]
    rfl
  rw [hids]
  exact Graph.nodup_dotIds_iff hsound (h.enrolls hbank) hslot

end Session

theorem Program.bank_keepsNames (base : Bank ρ) : (Program.bank base).KeepsNames := by
  refine ⟨?_, ?_⟩
  · intro record model demoted hdemote
    cases hdemote
  · intro record dead left hleft
    cases hleft
    rfl

theorem Bank.ofTasks_keepsNames : Bank.ofTasks.KeepsNames := by
  refine ⟨?_, ?_⟩
  · intro record model demoted hdemote
    cases hdemote
  · intro record dead left hleft
    cases hleft

namespace Sample

def outrun : Session (Program Task) :=
  match held.perform bank (.insertTasks false [fill, copy]) with
  | .ok s => s
  | .error _ => .new

def putLast : Session (Program Task) :=
  match outrun.perform bank (.insertNode (Graph.new.newNode bank fill).2) with
  | .ok s => s
  | .error _ => .new

theorem putLast_stocked : Session.Stocked bank putLast [] := by
  have hheld : Session.Stocked bank held ([] ++ [(Graph.new.newNode bank fill).2]) :=
    .act (a := .newNode fill) .start trivial (fun _ h => nomatch h) rfl rfl
  have houtrun : Session.Stocked bank outrun ([] ++ [(Graph.new.newNode bank fill).2] ++ []) :=
    .act (a := .insertTasks false [fill, copy]) hheld trivial (fun _ h => nomatch h) rfl rfl
  show Session.Stocked bank putLast ([] ++ [])
  exact .put (n := (Graph.new.newNode bank fill).2) houtrun rfl

def imitation : Task :=
  { name := "initial_state", taskType := .serial, outputs := .ofList [cell 0] }

def imitated : Session Task :=
  match Session.new.perform Bank.ofTasks (.insertTasks false [imitation]) with
  | .ok s => s
  | .error _ => .new

end Sample

namespace Session

theorem Stocked.dot_faithful_putLast :
    Sample.bank.KeepsNames ∧ Dot.IsWord "TB" ∧
      exists d name cells, Sample.putLast.graph.dot (some "TB") 1 = d.text ∧
        Dot.read? d.text = some d ∧ d.rankdir = some "TB" ∧
        Sample.putLast.graph.ShownBy name cells d ∧ (d.nodes.map (·.id)).Nodup := by
  have hbank : Sample.bank.KeepsNames := Program.bank_keepsNames Bank.ofTasks
  have hword : Dot.IsWord "TB" := rfl
  have hrankdir : forall r, some "TB" = some r -> Dot.IsWord r := by
    intro r hr
    cases hr
    exact hword
  have hspares : Sample.putLast.graph.SparesInitial := by decide
  have hslot := Graph.nodup_map_positionOf Sample.putLast_stocked.consistent.sound
  rcases Stocked.dot_faithful Sample.putLast_stocked hbank hrankdir 1 hslot
    with ⟨d, name, cells, htext, hread, hdirection, hshown, hids⟩
  exact ⟨hbank, hword, d, name, cells, htext, hread, hdirection, hshown, hids.mpr hspares⟩

/-- The launch and the initial node share an identifier. -/
theorem Stocked.dot_ids_clash :
    Stocked Bank.ofTasks Sample.imitated [] ∧ Bank.ofTasks.KeepsNames ∧
      exists d, Dot.read? (Sample.imitated.graph.dot none 0) = some d ∧
        ¬(d.nodes.map (·.id)).Nodup := by
  have hstocked : Stocked Bank.ofTasks Sample.imitated ([] ++ []) :=
    .act (a := .insertTasks false [Sample.imitation]) .start trivial (fun _ h => nomatch h) rfl rfl
  have hrankdir : forall r, none = some r -> Dot.IsWord r := by
    intro r hr
    cases hr
  have hlegible := Graph.drawing_legible hstocked.consistent.sound hrankdir
    Sample.imitated.graph.positionOf 0
  refine ⟨hstocked, Bank.ofTasks_keepsNames, _, Dot.read?_text hlegible, ?_⟩
  decide

end Session

end LaunchGraph
