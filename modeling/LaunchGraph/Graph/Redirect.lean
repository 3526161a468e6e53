import LaunchGraph.Graph.Basic

/-!
# Redirecting edges

One node can take over the edges of another: every edge that names the first
then names the second.
-/

namespace LaunchGraph

namespace Graph

variable {ρ : Type}

def redirectOutputs (g : Graph ρ) (a b : NodeKey) : Outcome (Graph ρ) := do
  let v ← g.find a
  let g ← g.modify a fun n => { n with outputs := ∅ }
  v.outputs.pairs.foldlM (fun g (s, target) => do
    (← g.dropInput a target s).insertEdge b target s) g

def redirectInputs (g : Graph ρ) (a b : NodeKey) : Outcome (Graph ρ) := do
  let v ← g.find a
  let g ← g.modify a fun n => { n with inputs := ∅ }
  v.inputs.pairs.foldlM (fun g (s, source) => do
    (← g.dropOutput source a s).insertEdge source b s) g

def redirectOwners (g : Graph ρ) (a b : NodeKey) : Graph ρ :=
  { g with owners := g.owners.map fun _ owner => if owner = a then b else owner }

/-- Makes every edge, and every owner and reader entry, that names `a` name `b`
instead.  With `outputsOnly`, edges into `a` and its reader entries stay. -/
def redirect (g : Graph ρ) (a b : NodeKey) (outputsOnly : Bool) : Outcome (Graph ρ) :=
  if a = b then .ok g
  else do
    let g ← g.redirectOutputs a b
    let g ← if outputsOnly then pure g else do
      let g ← g.redirectInputs a b
      pure { g with readers := g.readers.replace a b }
    return g.redirectOwners a b

end Graph

end LaunchGraph
