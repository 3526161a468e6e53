import LaunchGraph.Graph.Basic

/-!
# Listings

A listing shows each node of a graph with the edges into and out of it, one line
each.
-/

namespace LaunchGraph

namespace Graph

variable {ρ : Type}

def inputLine (g : Graph ρ) (s : State) (source : NodeKey) : Outcome String := do
  return "    <- " ++ (← g.find source).label ++ " on " ++ s.name

/-- The line for an edge out of a node, which tells whether data flows along it. -/
def outputLine (g : Graph ρ) (s : State) (target : NodeKey) : Outcome String := do
  let w ← g.find target
  let sort := if w.reads s then "flow" else "dependency"
  return "    -> " ++ w.label ++ " on " ++ s.name ++ " (" ++ sort ++ ")"

def vertexLines (g : Graph ρ) (v : Vertex ρ) : Outcome (List String) := do
  let inputs ← v.inputs.pairs.mapM fun (s, source) => g.inputLine s source
  let outputs ← v.outputs.pairs.mapM fun (s, target) => g.outputLine s target
  return v.label :: (inputs ++ outputs)

def listing (g : Graph ρ) : Outcome (List String) := do
  let lines ← g.vertices.mapM g.vertexLines
  return "=== State Flow Graph ===" :: (lines.flatten ++ ["======================="])

end Graph

end LaunchGraph
