import LaunchGraph.State

/-!
# Violations

The ways in which a graph may fail to be consistent, and how each is reported.
Nodes appear by their written form, or by their key once they are gone.
-/

namespace LaunchGraph

inductive Access where
  | input
  | output
deriving DecidableEq, Inhabited

def Access.name : Access -> String
  | .input => "input"
  | .output => "output"

/-- A broken invariant of a graph. -/
inductive Violation where
  /-- The sequence does not begin with the initial node. -/
  | missingInitialNode
  /-- A node's stored position is not its position. -/
  | nodeId (node : String) (position found : Nat)
  /-- A node's stored pending position is not its pending position. -/
  | pendingId (node : String) (expected found : Option Nat)
  /-- An edge among executed nodes, or into one. -/
  | executedEdge (node other : String) (state : State)
  /-- An edge that leads backwards in the sequence. -/
  | edgeOrder (source target : String) (state : State)
  /-- An edge recorded at one of its ends only. -/
  | missingReciprocal (source target : String) (state : State)
  /-- An edge with an end that is gone. -/
  | danglingEdge (source target : String) (state : State)
  /-- A latest owner that is gone or does not write its state. -/
  | ownerNotWriter (owner : String) (state : State)
  /-- A reader that no edge connects with the latest owner. -/
  | readerWithoutFlow (reader owner : String) (state : State)
  /-- A node on a cycle. -/
  | cycle (node : String)
  /-- A node whose recorded states are not those its record uses. -/
  | taskMismatch (node : String) (access : Access) (recorded actual : List State)
deriving DecidableEq

namespace Violation

def positionText : Option Nat -> String
  | none => "None"
  | some n => "Some(" ++ toString n ++ ")"

def edgeText (source target : String) (state : State) : String :=
  "Edge " ++ source ++ " -> " ++ target ++ " on " ++ state.name

def message : Violation -> String
  | missingInitialNode => "Node sequence does not start with the initial node"
  | nodeId node position found =>
      "Node " ++ node ++ " sits at position " ++ toString position ++ " but has node_id "
        ++ toString found
  | pendingId node expected found =>
      "Node " ++ node ++ " has pending_node_id " ++ positionText found ++ ", expected "
        ++ positionText expected
  | executedEdge node other state =>
      "Executed node " ++ node ++ " has an edge on " ++ state.name ++ " with executed node "
        ++ other
  | edgeOrder source target state =>
      edgeText source target state ++ " goes backwards in the node sequence"
  | missingReciprocal source target state =>
      edgeText source target state ++ " is missing its reciprocal entry"
  | danglingEdge source target state =>
      edgeText source target state ++ " points at a node outside the graph"
  | ownerNotWriter owner state =>
      "Latest owner " ++ owner ++ " of " ++ state.name ++ " does not write it"
  | readerWithoutFlow reader owner state =>
      "Reader " ++ reader ++ " of " ++ state.name ++ " has no flow edge from latest owner "
        ++ owner
  | cycle node => "Cycle detected through node " ++ node
  | taskMismatch node access recorded actual =>
      "Node " ++ node ++ " records " ++ access.name ++ " states "
        ++ State.longFormList recorded ++ " but its IR uses " ++ State.longFormList actual

end Violation

end LaunchGraph
