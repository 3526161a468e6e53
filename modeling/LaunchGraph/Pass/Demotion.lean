import LaunchGraph.Graph.Rebuild

/-!
# Activation demotion

A parallel task that writes a mask right after an earlier launch of the same task
type activates only what is active already.  Its activations can be removed.
-/

namespace LaunchGraph

namespace Graph

variable {ρ : Type}

/-- The launch that already made a node's activations of a mask: the only writer
of the mask among the sources of the node's edges, if it launches the same task
type. -/
def dominator? (g : Graph ρ) (v : Vertex ρ) (mask : State) : Outcome (Option (Vertex ρ)) := do
  let sources ← (v.inputs.get mask).mapM g.find
  match sources.filter (·.writes mask) with
  | [w] => return if !w.isInitial && w.handle == v.handle then some w else none
  | _ => return none

/-- The record of a node without its activations of a mask, if an earlier launch
made them and the bank can remove them. -/
def demotionOf? (bank : Bank ρ) (g : Graph ρ) (v : Vertex ρ) (record : ρ) (mask : State) :
    Outcome (Option (ρ × Description)) := do
  let some w ← g.dominator? v mask | return none
  let some demoted := w.record.bind (bank.demote record) | return none
  let d := bank.describe demoted
  return if d.task.writes mask then none else some (demoted, d)

/-- The first answer to a question about some states. -/
def firstAnswer {α : Type} (ask : State -> Outcome (Option α)) : List State -> Outcome (Option α)
  | [] => return none
  | s :: rest => do
      match ← ask s with
      | some a => return some a
      | none => firstAnswer ask rest

def writtenMasks (t : Task) : List State := t.outputs.toList.filter (·.kind == .mask)

/-- The demoted record of a node, if there is one. -/
def findDemotion? (bank : Bank ρ) (g : Graph ρ) (v : Vertex ρ) :
    Outcome (Option (ρ × Description)) :=
  match v.record with
  | none => return none
  | some record =>
      if v.task.taskType.isParallel then
        firstAnswer (g.demotionOf? bank v record) (writtenMasks v.task)
      else
        return none

/-- Demotes the node under a key if possible.  The answer tells whether it was. -/
def demoteNode (bank : Bank ρ) (g : Graph ρ) (k : NodeKey) : Outcome (Graph ρ × Bool) := do
  match ← g.findDemotion? bank (← g.find k) with
  | none => return (g, false)
  | some (record, d) =>
      let (g, handle) := g.adopt d
      return (← g.modify k (·.relaunched record handle), true)

/-- Demotes every pending node for which it is possible, first to last.  Tells
whether there were any. -/
def demoteActivations (bank : Bank ρ) (g : Graph ρ) : Outcome (Graph ρ × Bool) := do
  let (g, changed) ← g.pendingKeys.foldlM (fun (g, changed) k => do
    let (g, demoted) ← g.demoteNode bank k
    return (g, changed || demoted)) (g, false)
  if changed then return (← g.rebuild false, true) else return (g, false)

end Graph

end LaunchGraph
