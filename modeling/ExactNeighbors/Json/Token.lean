import ExactNeighbors.Json.Numeral
import ExactNeighbors.Json.Quoted

set_option autoImplicit false

/-! # JSON tokens

A text is cut into tokens first; blanks between tokens are dropped there, so that a compact and an
indented text of one value have the same tokens. No two tokens that could run together may stand
next to each other in a value, hence cutting without looking at the separators admits nothing that
the grammar forbids. -/

namespace ExactNeighbors.Json

/-- The least parts of a text that have a meaning of their own. -/
inductive Token where
  | openArray
  | closeArray
  | openObject
  | closeObject
  | comma
  | colon
  | null
  | bool (b : Bool)
  | number (n : Numeral)
  | string (s : Quoted)
deriving DecidableEq

namespace Token

/-- The characters that may stand between tokens. -/
def isBlank (c : Char) : Bool := c = ' ' || c = '\n' || c = '\t' || c = '\r'

/-- The characters of a token. -/
def chars : Token → List Char
  | .openArray => ['[']
  | .closeArray => [']']
  | .openObject => ['\x7b']
  | .closeObject => ['\x7d']
  | .comma => [',']
  | .colon => [':']
  | .null => ['n', 'u', 'l', 'l']
  | .bool true => ['t', 'r', 'u', 'e']
  | .bool false => ['f', 'a', 'l', 's', 'e']
  | .number n => n.chars
  | .string s => s.chars

/-- The token that a text starts with, and the text after it. -/
def scanOne : List Char → Option (Token × List Char)
  | '[' :: cs => some (.openArray, cs)
  | ']' :: cs => some (.closeArray, cs)
  | '\x7b' :: cs => some (.openObject, cs)
  | '\x7d' :: cs => some (.closeObject, cs)
  | ',' :: cs => some (.comma, cs)
  | ':' :: cs => some (.colon, cs)
  | 'n' :: 'u' :: 'l' :: 'l' :: cs => some (.null, cs)
  | 't' :: 'r' :: 'u' :: 'e' :: cs => some (.bool true, cs)
  | 'f' :: 'a' :: 'l' :: 's' :: 'e' :: cs => some (.bool false, cs)
  | '"' :: cs => (Quoted.scan cs).map fun (body, rest) => (.string ⟨body⟩, rest)
  | cs => (Numeral.scan cs).map fun (n, rest) => (.number n, rest)

/-- Cuts a text into tokens, with one unit of `fuel` for each blank or token. -/
def scanWithin : Nat → List Char → Option (List Token)
  | _, [] => some []
  | 0, _ => none
  | fuel + 1, c :: cs =>
    if isBlank c then scanWithin fuel cs
    else
      match scanOne (c :: cs) with
      | none => none
      | some (t, rest) => (scanWithin fuel rest).map (t :: ·)

/-- The tokens of a text. Every token takes a character at least, so the fuel cannot run out. -/
def scan (cs : List Char) : Option (List Token) := scanWithin cs.length cs

end Token

end ExactNeighbors.Json
