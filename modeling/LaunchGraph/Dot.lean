import LaunchGraph.State

/-!
# Drawings

A drawing is what is to be said about a graph in the DOT language: node
statements, then edge statements.  Nodes with few output states are drawn as
records with one cell for each state; their edges leave from the cell, while all
other edges carry the state as a label.
-/

namespace LaunchGraph

namespace Dot

structure NodeStatement where
  id : String
  title : String
  /-- States that have a cell of their own; without any, the node is a plain box. -/
  cells : List State
  isInitial : Bool
  isOwner : Bool
deriving DecidableEq

structure EdgeStatement where
  source : String
  target : String
  state : State
  /-- Whether the edge leaves from the cell of its state. -/
  fromCell : Bool
  /-- Whether data flows along the edge. -/
  isFlow : Bool
deriving DecidableEq

structure Drawing where
  rankdir : Option String
  nodes : List NodeStatement
  edges : List EdgeStatement

/-! ## Text -/

def isWordChar (c : Char) : Bool := c.isAlphanum || c == '_'

/-- An identifier made from a name and a number.  A name that is no identifier
has its other characters replaced; the slot of the node then keeps it apart. -/
def identifier (name : String) (launchId slot : Nat) : String :=
  if name.toList.all isWordChar then
    "n_" ++ name ++ "_" ++ toString launchId
  else
    "n_" ++ String.ofList (name.toList.map fun c => if c.isAlphanum then c else '_')
      ++ "_" ++ toString launchId ++ "_x" ++ toString slot

/-- Puts a backslash before every character of a kind. -/
def escape (special : Char -> Bool) (text : String) : String :=
  String.ofList (text.toList.flatMap fun c => if special c then ['\\', c] else [c])

def isQuote (c : Char) : Bool := c == '"'

/-- The characters with a meaning inside the label of a record. -/
def isRecordMark (c : Char) : Bool :=
  c == '\x7b' || c == '\x7d' || c == '|' || c == '<' || c == '>' || c == '"'

/-- A cell of a record: the name of its state, by which edges refer to it, and the
same name to be shown. -/
def cellText (s : State) : String := "<" ++ s.name ++ "> " ++ s.name

def NodeStatement.style (n : NodeStatement) : String :=
  (if n.isInitial then " style=filled fillcolor=red" else "")
    ++ (if n.isOwner then " peripheries=2" else "")

def NodeStatement.label (n : NodeStatement) : String :=
  if n.cells.isEmpty then
    escape isQuote n.title
  else
    "\x7b " ++ escape isRecordMark n.title ++ " | \x7b "
      ++ String.intercalate " | " (n.cells.map cellText) ++ " \x7d \x7d"

def NodeStatement.shape (n : NodeStatement) : String :=
  if n.cells.isEmpty then "box" else "record"

def NodeStatement.text (n : NodeStatement) : String :=
  "  " ++ n.id ++ " [label=\"" ++ n.label ++ "\" shape=" ++ n.shape ++ n.style ++ "]\n"

def EdgeStatement.attributes (e : EdgeStatement) : List String :=
  (if e.fromCell then [] else ["label=\"" ++ e.state.name ++ "\""])
    ++ (if e.isFlow then [] else ["style=dotted"])

def EdgeStatement.origin (e : EdgeStatement) : String :=
  if e.fromCell then e.source ++ ":" ++ e.state.name else e.source

def bracketed (attributes : List String) : String :=
  if attributes.isEmpty then "" else " [" ++ String.intercalate " " attributes ++ "]"

def EdgeStatement.text (e : EdgeStatement) : String :=
  "  " ++ e.origin ++ " -> " ++ e.target ++ bracketed e.attributes ++ "\n"

def rankdirText : Option String -> String
  | some rankdir => "  rankdir=" ++ rankdir ++ "\n"
  | none => ""

def Drawing.text (d : Drawing) : String :=
  "digraph \x7b\n" ++ rankdirText d.rankdir ++ "\n"
    ++ String.join (d.nodes.map NodeStatement.text) ++ "\n"
    ++ String.join (d.edges.map EdgeStatement.text) ++ "\x7d\n"

end Dot

end LaunchGraph
