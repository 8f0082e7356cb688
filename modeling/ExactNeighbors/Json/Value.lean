import ExactNeighbors.Json.Token

set_option autoImplicit false

/-! # JSON values

A value keeps the spelling of its numbers and strings, and an object the order and the repetitions
of its members, so that writing a value compactly gives the text it was read from, blanks aside. -/

namespace ExactNeighbors

inductive Json where
  | null
  | bool (b : Bool)
  | number (n : Numeral)
  | string (s : Quoted)
  | array (items : List Json)
  | object (members : List (Quoted × Json))

namespace Json

/-! ## The tokens of a value -/

mutual

/-- The tokens that spell a value. -/
def tokens : Json → List Token
  | .null => [.null]
  | .bool b => [.bool b]
  | .number n => [.number n]
  | .string s => [.string s]
  | .array items => .openArray :: (itemTokens items ++ [.closeArray])
  | .object members => .openObject :: (memberTokens members ++ [.closeObject])

/-- Elements with commas between them. -/
def itemTokens : List Json → List Token
  | [] => []
  | [v] => v.tokens
  | v :: vs => v.tokens ++ .comma :: itemTokens vs

/-- Members with commas between them. -/
def memberTokens : List (Quoted × Json) → List Token
  | [] => []
  | [(name, v)] => .string name :: .colon :: v.tokens
  | (name, v) :: ms => .string name :: .colon :: (v.tokens ++ .comma :: memberTokens ms)

end

/-! ## Texts -/

/-- The text without blanks. -/
def compact (v : Json) : String := .ofList (v.tokens.flatMap Token.chars)

/-- A new line, indented two blanks per level. -/
def newLine (level : Nat) : List Char := '\n' :: List.replicate (2 * level) ' '

mutual

/-- The text of a value whose first line stands at `level`. -/
def prettyChars (level : Nat) : Json → List Char
  | .array (v :: vs) =>
    '[' :: (prettyItems (level + 1) (v :: vs) ++ newLine level ++ [']'])
  | .object (m :: ms) =>
    '\x7b' :: (prettyMembers (level + 1) (m :: ms) ++ newLine level ++ ['\x7d'])
  | v => v.tokens.flatMap Token.chars

/-- Elements on a line each. -/
def prettyItems (level : Nat) : List Json → List Char
  | [] => []
  | [v] => newLine level ++ prettyChars level v
  | v :: vs => newLine level ++ prettyChars level v ++ ',' :: prettyItems level vs

/-- Members on a line each, a blank after the colon. -/
def prettyMembers (level : Nat) : List (Quoted × Json) → List Char
  | [] => []
  | [(name, v)] => newLine level ++ name.chars ++ ':' :: ' ' :: prettyChars level v
  | (name, v) :: ms =>
    newLine level ++ name.chars ++ ':' :: ' ' :: prettyChars level v ++
      ',' :: prettyMembers level ms

end

/-- The text with a line for each element or member; empty arrays and objects stay on one. -/
def pretty (v : Json) : String := .ofList (prettyChars 0 v)

end Json

end ExactNeighbors
