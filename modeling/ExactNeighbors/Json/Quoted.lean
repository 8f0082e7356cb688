set_option autoImplicit false

/-! # JSON strings

A quoted string is kept as the characters between its quotes, escapes and all. Two questions are
asked of it, and they differ: whether it is well formed, and which text it stands for. An escaped
surrogate without its partner is well formed but stands for no text. A value that nobody reads only
has to be well formed. -/

namespace ExactNeighbors

/-- The characters between the quotes of a JSON string. -/
structure Quoted where
  body : List Char
deriving DecidableEq

namespace Quoted

/-! ## Well-formed bodies -/

/-- The value of a hexadecimal digit of either case. -/
def hexValue? (c : Char) : Option Nat :=
  if '0' ≤ c ∧ c ≤ '9' then some (c.toNat - '0'.toNat)
  else if 'a' ≤ c ∧ c ≤ 'f' then some (c.toNat - 'a'.toNat + 10)
  else if 'A' ≤ c ∧ c ≤ 'F' then some (c.toNat - 'A'.toNat + 10)
  else none

/-- The number that four hexadecimal digits write. -/
def hexCode? (a b c d : Char) : Option Nat := do
  let a ← hexValue? a
  let b ← hexValue? b
  let c ← hexValue? c
  let d ← hexValue? d
  pure (((a * 16 + b) * 16 + c) * 16 + d)

/-- What a one-letter escape stands for. -/
def escaped? : Char → Option Char
  | '"' => some '"'
  | '\\' => some '\\'
  | '/' => some '/'
  | 'b' => some '\x08'
  | 'f' => some '\x0c'
  | 'n' => some '\n'
  | 'r' => some '\r'
  | 't' => some '\t'
  | _ => none

/-- Control characters are never written as themselves. -/
def isControl (c : Char) : Bool := c.toNat < 0x20

/-- The body up to the closing quote and the text after it. Nothing if the string does not end,
    holds a control character, or has an escape of no known form. -/
def scan : List Char → Option (List Char × List Char)
  | [] => none
  | '"' :: rest => some ([], rest)
  | '\\' :: 'u' :: a :: b :: c :: d :: rest =>
    if (hexCode? a b c d).isSome then
      (scan rest).map fun (body, rest) => ('\\' :: 'u' :: a :: b :: c :: d :: body, rest)
    else none
  | '\\' :: e :: rest =>
    if (escaped? e).isSome then
      (scan rest).map fun (body, rest) => ('\\' :: e :: body, rest)
    else none
  | c :: rest =>
    if isControl c || c = '\\' then none
    else (scan rest).map fun (body, rest) => (c :: body, rest)

/-! ## The text of a body -/

/-- The character that two surrogates make together. -/
def pairChar (high low : Nat) : Char :=
  Char.ofNat (0x10000 + (high - 0xD800) * 0x400 + (low - 0xDC00))

/-- The text that a well-formed body stands for. -/
def decode : List Char → Option (List Char)
  | [] => some []
  | '\\' :: 'u' :: a :: b :: c :: d :: rest =>
    match hexCode? a b c d with
    | none => none
    | some code =>
      if 0xD800 ≤ code ∧ code < 0xDC00 then
        match rest with
        | '\\' :: 'u' :: a :: b :: c :: d :: rest =>
          match hexCode? a b c d with
          | none => none
          | some low =>
            if 0xDC00 ≤ low ∧ low < 0xE000 then
              (decode rest).map (pairChar code low :: ·)
            else none
        | _ => none
      else if 0xDC00 ≤ code ∧ code < 0xE000 then none
      else (decode rest).map (Char.ofNat code :: ·)
  | '\\' :: e :: rest =>
    match escaped? e with
    | none => none
    | some c => (decode rest).map (c :: ·)
  | c :: rest => (decode rest).map (c :: ·)

/-- The text that a string stands for, unless a surrogate in it has no partner. -/
def text? (s : Quoted) : Option String := (decode s.body).map String.ofList

/-! ## Writing -/

/-- A hexadecimal digit in lower case. -/
def hexChar (n : Nat) : Char :=
  if n < 10 then Char.ofNat ('0'.toNat + n) else Char.ofNat ('a'.toNat + (n - 10))

/-- A character as it stands in a body: escaped only where it has to be. -/
def encodeChar (c : Char) : List Char :=
  match c with
  | '"' => ['\\', '"']
  | '\\' => ['\\', '\\']
  | '\x08' => ['\\', 'b']
  | '\x0c' => ['\\', 'f']
  | '\n' => ['\\', 'n']
  | '\r' => ['\\', 'r']
  | '\t' => ['\\', 't']
  | c =>
    if isControl c then ['\\', 'u', '0', '0', hexChar (c.toNat / 16), hexChar (c.toNat % 16)]
    else [c]

/-- The string that stands for a text. -/
def ofText (s : String) : Quoted := ⟨s.toList.flatMap encodeChar⟩

/-- The string with its quotes. -/
def chars (s : Quoted) : List Char := '"' :: (s.body ++ ['"'])

end Quoted

end ExactNeighbors
