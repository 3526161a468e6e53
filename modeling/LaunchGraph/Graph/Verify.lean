import LaunchGraph.Cycle
import LaunchGraph.Graph.Basic

/-!
# Consistency

A graph is consistent if positions are stored right, edges are known at both
ends, lead forward and into pending nodes only, and owners and readers fit the
edges.  Each check reports the first violation that it meets.
-/

namespace LaunchGraph

namespace Graph

variable {ρ : Type}

def nameOf (g : Graph ρ) (k : NodeKey) : String :=
  match g.find? k with
  | some v => v.label
  | none => k.text

/-! ## Positions -/

def pendingPosition (g : Graph ρ) (position : Nat) : Option Nat :=
  if g.firstPending ≤ position then some (position - g.firstPending) else none

def checkPosition (g : Graph ρ) (v : Vertex ρ) (position : Nat) : Except Violation Unit :=
  if v.nodeId ≠ position then
    throw (.nodeId v.label position v.nodeId)
  else if v.pendingId ≠ g.pendingPosition position then
    throw (.pendingId v.label (g.pendingPosition position) v.pendingId)
  else
    pure ()

def checkPositions (g : Graph ρ) : Except Violation Unit :=
  g.vertices.zipIdx.forM fun (v, i) => g.checkPosition v i

/-! ## Ends of edges -/

def checkOutput (g : Graph ρ) (v : Vertex ρ) (s : State) (target : NodeKey) :
    Except Violation Unit :=
  match g.find? target with
  | none => throw (.danglingEdge v.label (g.nameOf target) s)
  | some w =>
      if w.inputs.contains s v.key then pure ()
      else throw (.missingReciprocal v.label w.label s)

def checkInput (g : Graph ρ) (v : Vertex ρ) (s : State) (source : NodeKey) :
    Except Violation Unit :=
  match g.find? source with
  | none => throw (.danglingEdge (g.nameOf source) v.label s)
  | some u =>
      if u.outputs.contains s v.key then pure ()
      else throw (.missingReciprocal u.label v.label s)

def checkEnds (g : Graph ρ) : Except Violation Unit :=
  g.vertices.forM fun v => do
    v.outputs.pairs.forM fun (s, target) => g.checkOutput v s target
    v.inputs.pairs.forM fun (s, source) => g.checkInput v s source

/-! ## Direction of edges -/

def targets (g : Graph ρ) (k : NodeKey) : List NodeKey :=
  match g.find? k with
  | some v => v.outputs.neighbors
  | none => []

def checkAcyclic (g : Graph ρ) : Except Violation Unit :=
  match Cycle.find? g.targets (g.vertices.map (·.key)) with
  | some k => throw (.cycle (g.nameOf k))
  | none => pure ()

def checkExecutedInputs (g : Graph ρ) (v : Vertex ρ) : Except Violation Unit :=
  match v.inputs.pairs with
  | (s, source) :: _ =>
      if v.isExecuted then throw (.executedEdge v.label (g.nameOf source) s) else pure ()
  | [] => pure ()

/-- Checks that an edge leads forward, and not from an executed node to another. -/
def checkDirection (g : Graph ρ) (v : Vertex ρ) (s : State) (target : NodeKey) :
    Except Violation Unit :=
  match g.find? target with
  | none => pure ()
  | some w =>
      if v.isExecuted && w.isExecuted then throw (.executedEdge v.label w.label s)
      else if w.nodeId ≤ v.nodeId then throw (.edgeOrder v.label w.label s)
      else pure ()

def checkDirections (g : Graph ρ) : Except Violation Unit :=
  g.vertices.forM fun v => do
    g.checkExecutedInputs v
    v.outputs.pairs.forM fun (s, target) => g.checkDirection v s target

/-! ## Owners and readers -/

def checkOwner (g : Graph ρ) (s : State) : Except Violation Unit :=
  match g.owners.get? s with
  | none => pure ()
  | some owner =>
      if (g.find? owner).any (·.writes s) then pure ()
      else throw (.ownerNotWriter owner.text s)

def checkOwners (g : Graph ρ) : Except Violation Unit :=
  (OrderedSet.ofList g.owners.keys).toList.forM g.checkOwner

/-- Checks that a latest reader is the latest owner, or has an edge from it. -/
def checkReader (g : Graph ρ) (s : State) (reader : NodeKey) : Except Violation Unit :=
  let owner := g.ownerOrInitial s
  if reader = owner then pure ()
  else if g.contains reader && (g.find? owner).any (·.outputs.contains s reader) then pure ()
  else throw (.readerWithoutFlow reader.text (g.nameOf owner) s)

def checkReaders (g : Graph ρ) : Except Violation Unit :=
  g.readers.pairs.forM fun (s, reader) => g.checkReader s reader

/-! ## Tasks -/

/-- Compares the recorded states of a pending node with those that its record
uses, where the bank can tell. -/
def checkTask (bank : Bank ρ) (v : Vertex ρ) : Except Violation Unit :=
  match v.record.bind bank.analyze with
  | none => pure ()
  | some actual =>
      if v.task.inputs ≠ actual.inputs then
        throw (.taskMismatch v.label .input v.task.inputs.toList actual.inputs.toList)
      else if v.task.outputs ≠ actual.outputs then
        throw (.taskMismatch v.label .output v.task.outputs.toList actual.outputs.toList)
      else
        pure ()

/-! ## All checks -/

/-- Checks a graph, and with `tasks` also the recorded states of its pending nodes. -/
def verify (bank : Bank ρ) (g : Graph ρ) (tasks : Bool) : Except Violation Unit := do
  if !g.initial.isInitial then throw .missingInitialNode
  g.checkPositions
  g.checkEnds
  g.checkAcyclic
  g.checkDirections
  g.checkOwners
  g.checkReaders
  if tasks then g.pending.forM (checkTask bank)

end Graph

end LaunchGraph
