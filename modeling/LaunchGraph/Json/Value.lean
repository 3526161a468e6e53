/-!
# JSON values

Values as they are written, without a decision on what they mean: a number is
its digits and signs, and a string may hold escapes that stand for no text.
-/

namespace LaunchGraph

inductive Json where
  | null
  | bool (value : Bool)
  /-- A number, as it is written. -/
  | number (literal : String)
  /-- A string; it has no text if it has half of a surrogate pair. -/
  | string (text : Option String)
  | array (items : List Json)
  /-- An object, its members in order; names may repeat. -/
  | object (members : List (Option String × Json))
deriving Inhabited

namespace Json

def ofString (text : String) : Json := .string (some text)

def ofNat (n : Nat) : Json := .number (toString n)

def ofMembers (members : List (String × Json)) : Json :=
  .object (members.map fun m => (some m.1, m.2))

def ofOption {α : Type} (encode : α -> Json) : Option α -> Json
  | none => .null
  | some a => encode a

/-! ## Reading values of a type -/

def bool? : Json -> Option Bool
  | .bool b => some b
  | _ => none

def text? : Json -> Option String
  | .string text => text
  | _ => none

/-- The natural number below a bound that a value is.  Only plain digits count: a
sign, a fraction or an exponent makes another sort of number. -/
def natBelow? (bound : Nat) : Json -> Option Nat
  | .number literal =>
      if literal.toList.all Char.isDigit then literal.toNat?.filter (· < bound) else none
  | _ => none

/-- Nothing for null, or else what a value is. -/
def nullable? {α : Type} (decode : Json -> Option α) : Json -> Option (Option α)
  | .null => some none
  | value => (decode value).map some

/-- The variant that a value names, with what it carries: a string alone, or an
object with one member. -/
def variant? : Json -> Option (String × Option Json)
  | .string text => text.map (·, none)
  | .object [(name, value)] => name.map (·, some value)
  | _ => none

/-- The name of a variant that carries nothing. -/
def unitVariant? (value : Json) : Option String :=
  match value.variant? with
  | some (name, none) => some name
  | some (name, some .null) => some name
  | _ => none

def valuesOf (name : String) (members : List (Option String × Json)) : List Json :=
  (members.filter (·.1 == some name)).map (·.2)

/-- The value of the only member with a given name, or nothing if there is none. -/
def memberValue? (members : List (Option String × Json)) (name : String) :
    Option (Option Json) :=
  match valuesOf name members with
  | [] => some none
  | [value] => some (some value)
  | _ => none

/-- The values of named fields: the members of an object, where other members do
not matter, or the items of an array in the order of the names.  A field that is
not there has no value. -/
def fields? (names : List String) : Json -> Option (List (Option Json))
  | .object members =>
      if members.all (·.1.isSome) then names.mapM (memberValue? members) else none
  | .array items =>
      if items.length ≤ names.length then
        some (items.map some ++ List.replicate (names.length - items.length) none)
      else none
  | _ => none

/-- Named fields of which an array has to give all. -/
def record? (names : List String) (value : Json) : Option (List (Option Json)) :=
  match value with
  | .array items => if items.length = names.length then value.fields? names else none
  | _ => value.fields? names

end Json

end LaunchGraph
