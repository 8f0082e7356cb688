import ExactNeighbors.Json.Value

set_option autoImplicit false

/-! # Reading JSON

A machine reads the tokens of a text from left to right. It keeps the arrays and objects that are
still open on a stack, innermost first, so nesting may be of any depth; and its state says what has
to come next, so nothing but the grammar gets through: no trailing comma, no second value. -/

namespace ExactNeighbors.Json

/-- An open array, or an object with a member that awaits its value. What the container holds so
    far is kept last first. -/
inductive Frame where
  | array (items : List Json)
  | object (members : List (Quoted × Json)) (name : Quoted)

/-- What has been read, as far as it decides what may follow. -/
inductive State where
  /-- A value must follow. -/
  | value (outer : List Frame)
  /-- An array was opened: its first element or its end. -/
  | arrayStart (outer : List Frame)
  /-- An object was opened: its first name or its end. -/
  | objectStart (outer : List Frame)
  /-- A further name must follow. -/
  | name (members : List (Quoted × Json)) (outer : List Frame)
  /-- The colon after a name must follow. -/
  | colon (members : List (Quoted × Json)) (name : Quoted) (outer : List Frame)
  /-- A value is complete. -/
  | complete (v : Json) (outer : List Frame)

/-- A value starts. -/
def State.start (outer : List Frame) : Token → Option State
  | .openArray => some (.arrayStart outer)
  | .openObject => some (.objectStart outer)
  | .null => some (.complete .null outer)
  | .bool b => some (.complete (.bool b) outer)
  | .number n => some (.complete (.number n) outer)
  | .string s => some (.complete (.string s) outer)
  | _ => none

/-- Reads one token. -/
def State.next : State → Token → Option State
  | .value outer, t => start outer t
  | .arrayStart outer, .closeArray => some (.complete (.array []) outer)
  | .arrayStart outer, t => start (.array [] :: outer) t
  | .objectStart outer, .closeObject => some (.complete (.object []) outer)
  | .objectStart outer, .string s => some (.colon [] s outer)
  | .name members outer, .string s => some (.colon members s outer)
  | .colon members key outer, .colon => some (.value (.object members key :: outer))
  | .complete v (.array items :: outer), .comma => some (.value (.array (v :: items) :: outer))
  | .complete v (.array items :: outer), .closeArray =>
    some (.complete (.array (v :: items).reverse) outer)
  | .complete v (.object members key :: outer), .comma =>
    some (.name ((key, v) :: members) outer)
  | .complete v (.object members key :: outer), .closeObject =>
    some (.complete (.object ((key, v) :: members).reverse) outer)
  | _, _ => none

/-- The value that a list of tokens spells. -/
def ofTokens? (ts : List Token) : Option Json :=
  match ts.foldlM State.next (.value []) with
  | some (.complete v []) => some v
  | _ => none

/-- The value that a text spells. -/
def read? (text : String) : Option Json :=
  (Token.scan text.toList).bind ofTokens?

end ExactNeighbors.Json
