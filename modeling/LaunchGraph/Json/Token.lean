/-!
# JSON tokens

A text is cut into tokens by a machine that takes one character at a time.
-/

namespace LaunchGraph

namespace Json

inductive Token where
  | openObject
  | closeObject
  | openArray
  | closeArray
  | comma
  | colon
  | null
  | bool (value : Bool)
  | number (literal : String)
  | string (text : Option String)
deriving DecidableEq, Inhabited

/-! ## Strings -/

/-- One unit of a string: a character, or a 16-bit unit given by its code. -/
inductive Unit16 where
  | char (c : Char)
  | code (n : Nat)

def isHighSurrogate (n : Nat) : Bool := 0xD800 ≤ n && n < 0xDC00

def isLowSurrogate (n : Nat) : Bool := 0xDC00 ≤ n && n < 0xE000

/-- The characters that some units stand for.  Half of a surrogate pair stands for
none. -/
def charsOf? : List Unit16 -> Option (List Char)
  | [] => some []
  | .char c :: rest => (charsOf? rest).map (c :: ·)
  | .code hi :: .code lo :: rest =>
      if isHighSurrogate hi && isLowSurrogate lo then
        (charsOf? rest).map (Char.ofNat (0x10000 + (hi - 0xD800) * 0x400 + (lo - 0xDC00)) :: ·)
      else if isHighSurrogate hi || isLowSurrogate hi then none
      else (charsOf? (.code lo :: rest)).map (Char.ofNat hi :: ·)
  | .code n :: rest =>
      if isHighSurrogate n || isLowSurrogate n then none
      else (charsOf? rest).map (Char.ofNat n :: ·)

/-- The character that a letter after a backslash stands for. -/
def escaped? : Char -> Option Char
  | '"' => some '"'
  | '\\' => some '\\'
  | '/' => some '/'
  | 'b' => some '\x08'
  | 'f' => some '\x0c'
  | 'n' => some '\n'
  | 'r' => some '\r'
  | 't' => some '\t'
  | _ => none

def hexDigit? (c : Char) : Option Nat :=
  if '0' ≤ c ∧ c ≤ '9' then some (c.toNat - '0'.toNat)
  else if 'a' ≤ c ∧ c ≤ 'f' then some (c.toNat - 'a'.toNat + 10)
  else if 'A' ≤ c ∧ c ≤ 'F' then some (c.toNat - 'A'.toNat + 10)
  else none

/-! ## Numbers -/

/-- What is left of a text after one or more digits. -/
def afterDigits? (cs : List Char) : Option (List Char) :=
  match cs with
  | c :: rest => if c.isDigit then some (rest.dropWhile Char.isDigit) else none
  | [] => none

/-- What is left of a text after the whole part of a number: a zero by itself, or
digits of which the first is no zero. -/
def afterWhole? : List Char -> Option (List Char)
  | '0' :: rest => some rest
  | cs => afterDigits? cs

def afterFraction? : List Char -> Option (List Char)
  | '.' :: rest => afterDigits? rest
  | cs => some cs

def afterSign : List Char -> List Char
  | '+' :: rest => rest
  | '-' :: rest => rest
  | cs => cs

def afterExponent? : List Char -> Option (List Char)
  | 'e' :: rest => afterDigits? (afterSign rest)
  | 'E' :: rest => afterDigits? (afterSign rest)
  | cs => some cs

def afterMinus : List Char -> List Char
  | '-' :: rest => rest
  | cs => cs

def isNumber (cs : List Char) : Bool :=
  ((afterWhole? (afterMinus cs)).bind afterFraction?).bind afterExponent? == some []

def isNumberChar (c : Char) : Bool :=
  c.isDigit || c == '+' || c == '-' || c == '.' || c == 'e' || c == 'E'

/-! ## The machine -/

/-- What the machine is in the middle of.  What was taken so far is in reverse. -/
inductive Mode where
  | between
  | word (taken : List Char)
  | number (taken : List Char)
  | string (taken : List Unit16)
  | escape (taken : List Unit16)
  | hex (taken : List Unit16) (digits value : Nat)

/-- The tokens found so far, in reverse, and what the machine is in the middle of. -/
structure Lexer where
  tokens : List Token
  mode : Mode

def wordToken? (word : List Char) : Option Token :=
  if word = ['n', 'u', 'l', 'l'] then some .null
  else if word = ['t', 'r', 'u', 'e'] then some (.bool true)
  else if word = ['f', 'a', 'l', 's', 'e'] then some (.bool false)
  else none

def markToken? : Char -> Option Token
  | '\x7b' => some .openObject
  | '\x7d' => some .closeObject
  | '[' => some .openArray
  | ']' => some .closeArray
  | ',' => some .comma
  | ':' => some .colon
  | _ => none

def isBlank (c : Char) : Bool := c == ' ' || c == '\t' || c == '\n' || c == '\r'

namespace Lexer

def emit (lexer : Lexer) (t : Token) : Lexer := ⟨t :: lexer.tokens, .between⟩

def within (lexer : Lexer) (mode : Mode) : Lexer := ⟨lexer.tokens, mode⟩

def begin? (lexer : Lexer) (c : Char) : Option Lexer :=
  if isBlank c then some (lexer.within .between)
  else if c == '"' then some (lexer.within (.string []))
  else if c == '-' || c.isDigit then some (lexer.within (.number [c]))
  else if c.isLower then some (lexer.within (.word [c]))
  else (markToken? c).map lexer.emit

def complete? (lexer : Lexer) : Option Lexer :=
  match lexer.mode with
  | .between => some lexer
  | .word taken => (wordToken? taken.reverse).map lexer.emit
  | .number taken =>
      if isNumber taken.reverse then
        some (lexer.emit (.number (String.ofList taken.reverse)))
      else none
  | .string _ => none
  | .escape _ => none
  | .hex _ _ _ => none

def inString? (lexer : Lexer) (taken : List Unit16) (c : Char) : Option Lexer :=
  if c == '"' then some (lexer.emit (.string ((charsOf? taken.reverse).map String.ofList)))
  else if c == '\\' then some (lexer.within (.escape taken))
  else if c.toNat < 0x20 then none
  else some (lexer.within (.string (.char c :: taken)))

def inEscape? (lexer : Lexer) (taken : List Unit16) (c : Char) : Option Lexer :=
  if c == 'u' then some (lexer.within (.hex taken 0 0))
  else (escaped? c).map fun e => lexer.within (.string (.char e :: taken))

/-- Takes one of the four digits of a code. -/
def inHex? (lexer : Lexer) (taken : List Unit16) (digits value : Nat) (c : Char) :
    Option Lexer :=
  (hexDigit? c).map fun d =>
    if digits = 3 then lexer.within (.string (.code (value * 16 + d) :: taken))
    else lexer.within (.hex taken (digits + 1) (value * 16 + d))

def step (lexer : Lexer) (c : Char) : Option Lexer :=
  match lexer.mode with
  | .between => lexer.begin? c
  | .word taken =>
      if c.isLower then some (lexer.within (.word (c :: taken)))
      else lexer.complete?.bind (·.begin? c)
  | .number taken =>
      if isNumberChar c then some (lexer.within (.number (c :: taken)))
      else lexer.complete?.bind (·.begin? c)
  | .string taken => lexer.inString? taken c
  | .escape taken => lexer.inEscape? taken c
  | .hex taken digits value => lexer.inHex? taken digits value c

end Lexer

/-- The tokens of a text, if it can be cut into tokens. -/
def tokens? (text : String) : Option (List Token) := do
  let lexer ← text.toList.foldlM Lexer.step ⟨[], .between⟩
  return (← lexer.complete?).tokens.reverse

end Json

end LaunchGraph
