import LaunchGraph.Json.Token
import LaunchGraph.Json.Value

/-!
# Reading JSON

Tokens are put together by a machine that takes one token at a time and keeps the
arrays and objects that it is inside of, so that depth is no limit.
-/

namespace LaunchGraph

namespace Json

/-- An array or object with what it has so far, in reverse. -/
inductive Frame where
  | array (items : List Json)
  | object (members : List (Option String × Json))
  /-- An object of which the next member has a name but no value yet. -/
  | member (members : List (Option String × Json)) (name : Option String)

/-- What may come next. -/
inductive Expected where
  | value
  | firstItem
  | firstName
  | name
  | colon
  | separator
deriving DecidableEq

/-- The arrays and objects that are open, innermost first, and what may come next;
or a value that is complete. -/
inductive Reader where
  | inside (frames : List Frame) (expected : Expected)
  | done (value : Json)

namespace Reader

def supply (frames : List Frame) (value : Json) : Option Reader :=
  match frames with
  | [] => some (.done value)
  | .array items :: rest => some (.inside (.array (value :: items) :: rest) .separator)
  | .member members name :: rest =>
      some (.inside (.object ((name, value) :: members) :: rest) .separator)
  | .object _ :: _ => none

def beginValue (frames : List Frame) : Token -> Option Reader
  | .null => supply frames .null
  | .bool b => supply frames (.bool b)
  | .number literal => supply frames (.number literal)
  | .string text => supply frames (.string text)
  | .openArray => some (.inside (.array [] :: frames) .firstItem)
  | .openObject => some (.inside (.object [] :: frames) .firstName)
  | _ => none

def beginMember (frames : List Frame) (t : Token) : Option Reader :=
  match frames, t with
  | .object members :: rest, .string name =>
      some (.inside (.member members name :: rest) .colon)
  | _, _ => none

def close (frames : List Frame) (t : Token) : Option Reader :=
  match frames, t with
  | .array items :: rest, .closeArray => supply rest (.array items.reverse)
  | .object members :: rest, .closeObject => supply rest (.object members.reverse)
  | _, _ => none

def separate (frames : List Frame) (t : Token) : Option Reader :=
  match frames, t with
  | .array _ :: _, .comma => some (.inside frames .value)
  | .object _ :: _, .comma => some (.inside frames .name)
  | _, _ => close frames t

def step (reader : Reader) (t : Token) : Option Reader :=
  match reader with
  | .done _ => none
  | .inside frames expected =>
      match expected with
      | .value => beginValue frames t
      | .firstItem => if t = .closeArray then close frames t else beginValue frames t
      | .firstName => if t = .closeObject then close frames t else beginMember frames t
      | .name => beginMember frames t
      | .colon => if t = .colon then some (.inside frames .value) else none
      | .separator => separate frames t

def result? : Reader -> Option Json
  | .done value => some value
  | .inside _ _ => none

end Reader

def read? (text : String) : Option Json := do
  let reader ← (← tokens? text).foldlM Reader.step (.inside [] .value)
  reader.result?

end Json

end LaunchGraph
