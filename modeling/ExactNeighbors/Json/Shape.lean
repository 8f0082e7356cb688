import ExactNeighbors.Decimal.Shortest
import ExactNeighbors.Json.Value

set_option autoImplicit false

/-! # Values of a known shape

What the library stores as JSON is made of counts, components, lists, named choices and records.

A record is an object, in which members of other names are passed over, or an array of its fields
in order, of which the last may be missing. A field that is missing is `none` in its place; whether
it has a default is for the record to say. A choice is its name, or an object of that name and
null. -/

namespace ExactNeighbors.Json

/-! ## Counts and components -/

def toUInt64? : Json → Option UInt64
  | .number n => n.toUInt64?
  | _ => none

def toSingle? : Json → Option Single
  | .number n => n.toSingle?
  | _ => none

def ofUInt64 (n : UInt64) : Json := .number (.ofNat n.toNat)

/-- Finite components are written with the fewest digits that read back, in positional notation
    with a point from `10 ^ -6` up to below `10 ^ 13` and for zero, otherwise with a signed power
    of ten. -/
def numeralOfFinite (x : Single) : Numeral :=
  let d := Decimal.shortest .single .toEven x.magnitude
  let lead := d.leadingExponent
  if -6 ≤ lead ∧ lead < 13 then
    let (whole, fraction) := d.positional
    ⟨x.negative, whole, if fraction.isEmpty then [.zero] else fraction, none⟩
  else
    let ds := Digit.ofNat d.coefficient
    ⟨x.negative, ds.take 1, ds.drop 1,
      some ⟨false, some (lead < 0), Digit.ofNat lead.natAbs⟩⟩

/-- A component that is not finite has no numeral and is written as null. -/
def ofSingle (x : Single) : Json :=
  if x.isFinite then .number (numeralOfFinite x) else .null

/-! ## Lists and optional values -/

def toList? {α : Type} (item? : Json → Option α) : Json → Option (List α)
  | .array items => items.mapM item?
  | _ => none

/-- Null for nothing. -/
def toOption? {α : Type} (value? : Json → Option α) : Json → Option (Option α)
  | .null => some none
  | v => (value? v).map some

def ofOption {α : Type} (value : α → Json) : Option α → Json
  | none => .null
  | some a => value a

/-! ## Choices -/

/-- The name of a choice. -/
def choice? : Json → Option String
  | .string s => s.text?
  | .object [(name, .null)] => name.text?
  | _ => none

def ofChoice (name : String) : Json := .string (.ofText name)

/-! ## Records -/

/-- The fields of an object, in the order of `names`. Every name has to be a text, and a field must
    not be given twice. -/
def fieldsOfObject? (names : List String) (members : List (Quoted × Json)) :
    Option (List (Option Json)) := do
  let named ← members.mapM fun (name, v) => name.text?.map fun s => (s, v)
  let known := (named.map Prod.fst).filter names.contains
  if known.Nodup then some (names.map (List.lookup · named)) else none

/-- The fields of a record, in the order of `names`. -/
def fields? (names : List String) : Json → Option (List (Option Json))
  | .object members => fieldsOfObject? names members
  | .array items =>
    if items.length ≤ names.length then
      some (items.map some ++ List.replicate (names.length - items.length) none)
    else none
  | _ => none

/-- The value of a field that has no default. -/
def required? {α : Type} (value? : Json → Option α) (field : Option Json) : Option α :=
  field.bind value?

/-- The value of a field, or its default where it is missing. -/
def orDefault? {α : Type} (value? : Json → Option α) (default : α) : Option Json → Option α
  | none => some default
  | some v => value? v

def ofRecord (members : List (String × Json)) : Json :=
  .object (members.map fun (name, v) => (.ofText name, v))

end ExactNeighbors.Json
