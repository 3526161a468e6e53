import LaunchGraph.Graph.Basic

/-!
# Launching into a graph

Launches enter a graph at the end of its sequence.  A new node depends on the
latest writer of every state it reads, and on the latest writer and all latest
readers of every state it writes.

Index lists are tracked across launches: a task that writes the mask, the
allocator or the list of a field makes the lists of that field and of all fields
below it stale, and a list generation makes its list current.
-/

namespace LaunchGraph

/-! ## Fields below a field -/

namespace Bank

variable {ρ : Type}

/-- The fields reached from `work` by steps to children without passing through
`seen`, together with `seen`. -/
def descend (bank : Bank ρ) (work : List SNodeId) (seen : OrderedSet SNodeId) :
    OrderedSet SNodeId :=
  match _stopped : work.dropWhile (· ∈ seen) with
  | [] => seen
  | s :: rest => bank.descend (bank.children s ++ rest) (seen.insert s)
termination_by UInt32.size - seen.size
decreasing_by
  have fresh : s ∉ seen := by
    have := List.head?_dropWhile_not (fun t => decide (t ∈ seen)) work
    rw [_stopped] at this
    simpa using this
  have grows := OrderedSet.size_insert_of_not_mem fresh
  have bounded := OrderedSet.size_le_of_rank_lt (s := seen.insert s) fun t _ => t.toNat_lt
  omega

def descendants (bank : Bank ρ) (s : SNodeId) : OrderedSet SNodeId := bank.descend [s] ∅

end Bank

namespace Graph

variable {ρ : Type}

def markListStale (bank : Bank ρ) (g : Graph ρ) (s : SNodeId) : Graph ρ :=
  { g with currentLists := g.currentLists \ bank.descendants s }

def markListCurrent (g : Graph ρ) (s : SNodeId) : Graph ρ :=
  { g with currentLists := g.currentLists.insert s }

/-! ## New nodes -/

/-- Counts one more launch under a task name, and tells how many there were. -/
def takeLaunchId (g : Graph ρ) (name : String) : Graph ρ × Nat :=
  let count := (g.launches.get? name).getD 0
  ({ g with launches := g.launches.set name (count + 1) }, count)

/-- The handle for a described task.  A task that is not shared becomes a task
type of its own. -/
def adopt (g : Graph ρ) (d : Description) : Graph ρ × TaskHandle :=
  match d.sharedAs with
  | some tag => (g, ⟨d.task, .shared tag⟩)
  | none => ({ g with nextSerial := g.nextSerial + 1 }, ⟨d.task, .own g.nextSerial⟩)

def newNodeOf (g : Graph ρ) (record : ρ) (d : Description) : Graph ρ × Node ρ :=
  let (g, handle) := g.adopt d
  let (g, launchId) := g.takeLaunchId d.task.name
  (g, { record := some record, handle, launchId })

def newNode (bank : Bank ρ) (g : Graph ρ) (record : ρ) : Graph ρ × Node ρ :=
  g.newNodeOf record (bank.describe record)

/-- Puts a node at the end of the sequence under a new key. -/
def append (g : Graph ρ) (n : Node ρ) : Graph ρ × NodeKey :=
  let key : NodeKey := ⟨g.nextStamp⟩
  let v : Vertex ρ := ⟨n.renumbered g.size (some g.pendingCount), key⟩
  ({ g with pending := g.pending ++ [v], nextStamp := g.nextStamp + 1 }, key)

def connectRead (g : Graph ρ) (key : NodeKey) (s : State) : Outcome (Graph ρ) :=
  g.insertEdge (g.ownerOrInitial s) key s

/-- Connects a writer of a state with the previous writer and with all readers
since, and makes it the owner. -/
def connectWrite (g : Graph ρ) (key : NodeKey) (s : State) : Outcome (Graph ρ) := do
  let g ← g.insertEdge (g.ownerOrInitial s) key s
  let g ← { g with readers := g.readers.eraseState s }.insertEdgesInto (g.readers.get s) key s
  return { g with owners := g.owners.set s key }

def addReader (g : Graph ρ) (key : NodeKey) (s : State) : Graph ρ :=
  { g with readers := g.readers.insert s key }

/-- Puts a node at the end of the sequence and connects it.  The node becomes a
latest reader last, so that it never waits for itself. -/
def insertNode (g : Graph ρ) (n : Node ρ) : Outcome (Graph ρ × NodeKey) := do
  let (g, key) := { g with nextSeq := g.nextSeq + 1 }.append
    { n.disconnected with isInitial := false, seq := g.nextSeq }
  let g ← n.task.inputs.toList.foldlM (fun g s => g.connectRead key s) g
  let g ← n.task.outputs.toList.foldlM (fun g s => g.connectWrite key s) g
  return (n.task.inputs.toList.foldl (fun g s => g.addReader key s) g, key)

def insertNodes (g : Graph ρ) (nodes : List (Node ρ)) : Outcome (Graph ρ) :=
  nodes.foldlM (fun g n => do return (← g.insertNode n).1) g

/-! ## Launches -/

/-- What a launch of a task means for the index lists.  The answer has no graph
if the launch is a list generation that `filter` asks to leave out, because its
list is current. -/
def trackLists (bank : Bank ρ) (filter : Bool) (g : Graph ρ) (t : Task) : Option (Graph ρ) :=
  if t.taskType = .listgen then
    match t.snode with
    | some s =>
        if filter then
          if g.isListCurrent s then none else some (g.markListCurrent s)
        else
          some g
    | none => some g
  else
    some (t.staleLists.foldl (markListStale bank) g)

/-- Inserts a launch record, unless it is left out as a list generation of a
current list.  The answer tells whether it was inserted. -/
def insertTask (bank : Bank ρ) (filter : Bool) (g : Graph ρ) (record : ρ) :
    Outcome (Graph ρ × Bool) := do
  let d := bank.describe record
  match g.trackLists bank filter d.task with
  | none => return (g, false)
  | some g =>
      let (g, n) := g.newNodeOf record d
      return ((← g.insertNode n).1, true)

/-- Inserts launch records in order, and tells how many were not left out. -/
def insertTasks (bank : Bank ρ) (filter : Bool) (g : Graph ρ) (records : List ρ) :
    Outcome (Graph ρ × Nat) :=
  records.foldlM (fun (g, count) record => do
    let (g, inserted) ← g.insertTask bank filter record
    return (g, if inserted then count + 1 else count)) (g, 0)

end Graph

end LaunchGraph
