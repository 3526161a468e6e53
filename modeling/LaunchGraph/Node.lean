import LaunchGraph.Links
import LaunchGraph.Task

/-!
# Nodes

A node is one launch of a task.  A node by itself is unconnected data; placed
in a graph it becomes a vertex, which has a key by which other vertices refer
to it.
-/

namespace LaunchGraph

/-- Which task type a node launches: one that a bank shares among many launches
under a tag, or one that belongs to a single launch. -/
inductive Identity where
  | shared (tag : String)
  | own (serial : Nat)
deriving DecidableEq, Inhabited

/-- The task of a node.  Two nodes launch the same task type exactly if their
handles are equal. -/
structure TaskHandle where
  task : Task
  identity : Identity
deriving DecidableEq, Inhabited

/-- One launch of a task. -/
structure Node (ρ : Type) where
  /-- The launch record; absent once it was handed over for execution. -/
  record : Option ρ
  handle : TaskHandle
  /-- The count of earlier launches under the same task name. -/
  launchId : Nat
  /-- Position in the sequence of all nodes. -/
  nodeId : Nat := 0
  /-- Position among the pending nodes; absent once executed. -/
  pendingId : Option Nat := some 0
  /-- Age: among nodes ready to run, the one with the lowest goes first. -/
  seq : Nat := 0
  isInitial : Bool := false
  inputs : Links := ∅
  outputs : Links := ∅

/-- A node placed in a graph under a key. -/
structure Vertex (ρ : Type) extends Node ρ where
  key : NodeKey

namespace Node

variable {ρ : Type}

def task (n : Node ρ) : Task := n.handle.task

def label (n : Node ρ) : String :=
  "[node: " ++ n.task.name ++ ":" ++ toString n.launchId ++ "]"

def isPending (n : Node ρ) : Bool := n.pendingId.isSome

def isExecuted (n : Node ρ) : Bool := n.pendingId.isNone

/-- Whether the node reads a state.  An edge into it on a state it reads carries
data; any other edge into it only orders. -/
def reads (n : Node ρ) (s : State) : Bool := n.task.reads s

/-- Whether the node writes a state.  The initial node wrote the first contents
of every state. -/
def writes (n : Node ρ) (s : State) : Bool := n.isInitial || n.task.writes s

def disconnected (n : Node ρ) : Node ρ := { n with inputs := ∅, outputs := ∅ }

/-- The node with another position, and another position among the pending. -/
def renumbered (n : Node ρ) (nodeId : Nat) (pendingId : Option Nat) : Node ρ :=
  { n with nodeId, pendingId }

def relaunched (n : Node ρ) (record : ρ) (handle : TaskHandle) : Node ρ :=
  { n with record := some record, handle }

end Node

namespace Vertex

variable {ρ : Type}

def update (v : Vertex ρ) (f : Node ρ -> Node ρ) : Vertex ρ := { v with toNode := f v.toNode }

@[simp] theorem key_update (v : Vertex ρ) (f : Node ρ -> Node ρ) : (v.update f).key = v.key := rfl

@[simp] theorem toNode_update (v : Vertex ρ) (f : Node ρ -> Node ρ) :
    (v.update f).toNode = f v.toNode := rfl

end Vertex

end LaunchGraph
