import LaunchGraph.Graph.Delete
import LaunchGraph.Graph.Rebuild
import LaunchGraph.Graph.Redirect
import LaunchGraph.Graph.Window

/-!
# Fusion

Fusion replaces several pending nodes by one that launches all of them in one
loop.  Groups grow greedily from their first member, within a window.  A node
joins a group if no hazard between them needs more than the order of loop bodies,
and if no node outside of the group lies on a way between them.
-/

namespace LaunchGraph

/-- A group of nodes to be fused: its first member, the members that joined it,
and a record that launches them all, with its description. -/
structure FusionGroup (ρ : Type) where
  leader : Vertex ρ
  followers : List (Vertex ρ)
  record : ρ
  description : Description

namespace FusionGroup

variable {ρ : Type}

def members (group : FusionGroup ρ) : List (Vertex ρ) := group.leader :: group.followers

def seq (group : FusionGroup ρ) : Nat :=
  group.followers.foldl (fun least v => min least v.seq) group.leader.seq

end FusionGroup

/-- What has been decided in a window so far: the nodes absorbed into groups, and
reachability with every group merged. -/
structure FusionProgress where
  absorbed : IndexSet
  reachability : Reachability

/-- A group while it grows: the positions of its members in the window. -/
structure GrowingGroup (ρ : Type) where
  group : FusionGroup ρ
  first : Nat
  positions : IndexSet
  progress : FusionProgress

namespace GrowingGroup

variable {ρ : Type}

/-- Whether a node can be moved next to the group: the group does not have to run
after it, and nothing outside of the group has to run between them. -/
def isAdjacent (gg : GrowingGroup ρ) (j : Nat) : Bool :=
  let r := gg.progress.reachability
  !r.reaches j gg.first &&
    (!r.reaches gg.first j ||
      ((r.between gg.first j \ gg.positions) \ .single j).isEmpty)

/-- Whether the tasks of the group and of a node may share a loop. -/
def isCompatible (gg : GrowingGroup ρ) (v : Vertex ρ) : Bool :=
  gg.group.description.task.fusible v.task && gg.group.description.task.hazardFree v.task

/-- The record of the group with a node added, if the bank makes one under the
same fusion key. -/
def fused? (bank : Bank ρ) (gg : GrowingGroup ρ) (v : Vertex ρ) :
    Option (ρ × Description) := do
  let record ← bank.fuse gg.group.record (← v.record)
  let d := bank.describe record
  if d.task.fusion = gg.group.description.task.fusion then some (record, d) else none

def absorb (gg : GrowingGroup ρ) (v : Vertex ρ) (j : Nat) (record : ρ) (d : Description) :
    GrowingGroup ρ where
  group := { gg.group with
    followers := gg.group.followers ++ [v]
    record
    description := d }
  first := gg.first
  positions := gg.positions.insert j
  progress :=
    { absorbed := gg.progress.absorbed.insert j
      reachability := gg.progress.reachability.merge gg.first j }

def offer (bank : Bank ρ) (gg : GrowingGroup ρ) (v : Vertex ρ) (j : Nat) : GrowingGroup ρ :=
  if j ∈ gg.progress.absorbed then gg
  else if gg.isCompatible v && gg.isAdjacent j then
    match gg.fused? bank v with
    | some (record, d) => gg.absorb v j record d
    | none => gg
  else gg

end GrowingGroup

namespace FusionProgress

variable {ρ : Type}

/-- The group that begins with a node, before anything joined it. -/
def start? (p : FusionProgress) (leader : Vertex ρ) (i : Nat) : Option (GrowingGroup ρ) :=
  if i ∈ p.absorbed || leader.task.fusion.isNone then none
  else
    leader.record.map fun record =>
      { group := { leader, followers := [], record, description := ⟨leader.task, none⟩ }
        first := i
        positions := .single i
        progress := p }

/-- Grows a group from every node of a window that may begin one, and keeps those
that something joined. -/
def gather (bank : Bank ρ) (p : FusionProgress) :
    (window : List (Vertex ρ × Nat)) -> List (FusionGroup ρ)
  | [] => []
  | (leader, i) :: later =>
      match p.start? leader i with
      | none => p.gather bank later
      | some start =>
          let grown := later.foldl (fun gg (v, j) => gg.offer bank v j) start
          let rest := grown.progress.gather bank later
          if grown.group.followers.isEmpty then rest else grown.group :: rest

end FusionProgress

namespace Graph

variable {ρ : Type}

/-- Puts the fused node of a group at the end of the sequence, without edges.  It
is as old as its oldest member. -/
def appendFused (g : Graph ρ) (group : FusionGroup ρ) : Graph ρ × NodeKey :=
  let (g, n) := g.newNodeOf group.record group.description
  g.append { n with seq := group.seq }

/-- Hands everything that names a member of a group over to the fused node.  Tells
the position of the member. -/
def replaceMember (fused : NodeKey) (g : Graph ρ) (positions : OrderedSet Nat)
    (member : NodeKey) : Outcome (Graph ρ × OrderedSet Nat) := do
  let v ← g.find member
  let g ← g.redirect member fused false
  return (g, positions.insert v.nodeId)

/-- Puts a fused node in the place of every member of a group.  The members stay
in the sequence, disconnected; their positions join those collected before. -/
def materialize (g : Graph ρ) (positions : OrderedSet Nat) (group : FusionGroup ρ) :
    Outcome (Graph ρ × OrderedSet Nat) :=
  let (g, fused) := g.appendFused group
  group.members.foldlM (fun (g, positions) v => g.replaceMember fused positions v.key)
    (g, positions)

def fusionGroups (bank : Bank ρ) (g : Graph ρ) (first last : Nat) :
    Outcome (List (FusionGroup ρ)) := do
  let window ← g.pendingRange first last
  let reachability ← g.reachability first last
  return FusionProgress.gather bank ⟨∅, reachability⟩ window.zipIdx

/-- Fuses pending nodes from `first` up to before `last`.  The answer has the
positions of the nodes that were fused: the caller is to delete them and to
rebuild the graph in order. -/
def fuseRange (bank : Bank ρ) (g : Graph ρ) (first last : Nat) :
    Outcome (Graph ρ × OrderedSet Nat) := do
  let groups ← g.fusionGroups bank first last
  groups.foldlM (fun (g, positions) group => g.materialize positions group) (g, ∅)

/-- Fuses window after window, from pending position `first` up to before `count`. -/
def fuseWindows (bank : Bank ρ) (g : Graph ρ) (positions : OrderedSet Nat)
    (count first : Nat) : Outcome (Graph ρ × OrderedSet Nat) :=
  if first < count then do
    let last := min (first + g.window.size) count
    let (g', found) ← g.fuseRange bank first last
    g'.fuseWindows bank (positions ∪ found) count last
  else
    return (g, positions)
termination_by count - first
decreasing_by
  have := g.window.two_le
  omega

/-- Fuses what can be fused.  Tells whether anything was. -/
def fuse (bank : Bank ρ) (g : Graph ρ) : Outcome (Graph ρ × Bool) := do
  let (g', positions) ← g.fuseWindows bank ∅ g.pendingCount 0
  if positions.isEmpty then return (g', false)
  else return (← (← g'.deleteNodes positions).rebuild true, true)

end Graph

end LaunchGraph
