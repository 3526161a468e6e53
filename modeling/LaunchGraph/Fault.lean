import LaunchGraph.Links
import LaunchGraph.Violation

/-!
# Faults

An operation on a graph stops with a fault when its caller, or an edge put in
by its caller, breaks a rule that the operation relies on.
-/

namespace LaunchGraph

/-- The passes that change pending nodes. -/
inductive Pass where
  | listgen
  | deadStores
  | demotion
  | fusion
deriving DecidableEq, Inhabited

def Pass.name : Pass -> String
  | .listgen => "listgen"
  | .deadStores => "dead store elimination"
  | .demotion => "activation demotion"
  | .fusion => "fusion"

/-- Why an operation stopped. -/
inductive Fault where
  /-- A key names a node that is gone. -/
  | staleKey (key : NodeKey)
  /-- A position lies outside the sequence it is meant for. -/
  | outOfRange
  /-- Only pending nodes can be deleted. -/
  | deleteExecuted (node : String)
  /-- The pending nodes cannot be put in an order. -/
  | pendingCycle
  /-- Reachability is computed for forward edges only. -/
  | backwardEdge (source target : Nat)
  /-- Going back from writer to writer of a state never ends. -/
  | endlessWriters (state : State)
  /-- A check after a pass failed.  The listing shows the graph as the pass left
  it. -/
  | broken (pass : Pass) (violation : Violation) (listing : List String)
deriving DecidableEq

def Fault.message : Fault -> String
  | staleKey key => "stale node key " ++ key.text
  | outOfRange => "position out of range"
  | deleteExecuted node => "cannot delete executed node " ++ node
  | pendingCycle => "cycle among pending nodes"
  | backwardEdge source target =>
      "edge " ++ toString source ++ " -> " ++ toString target ++ " goes backwards"
  | endlessWriters state => "writers of " ++ state.name ++ " precede one another"
  | broken pass violation _ =>
      "State flow graph broken after " ++ pass.name ++ ":\n" ++ violation.message

/-- The result of an operation that may stop with a fault. -/
abbrev Outcome (α : Type) := Except Fault α

end LaunchGraph
