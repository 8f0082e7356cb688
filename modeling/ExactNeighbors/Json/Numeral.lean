import ExactNeighbors.Binary.Arithmetic
import ExactNeighbors.Decimal.Digit

set_option autoImplicit false

/-! # JSON numbers

A numeral keeps how a number is spelled: the letter and the sign of an exponent included, so that
writing it gives back the very characters it was scanned from. What it is worth depends on where it
stands:

* as a count it must be spelled as a plain natural and fit in 64 bits;
* as a component a whole number that fits in a 64-bit word is rounded once. Any other numeral is
  read as a double first: its leading digits, as many as fit in 64 bits, are multiplied or divided
  by a power of ten, each step rounded. A numeral past the doubles is refused, a double past the
  components is infinite. -/

namespace ExactNeighbors

/-- The part of a numeral that starts with `e` or `E`. -/
structure Numeral.Power where
  capital : Bool
  /-- The written sign, if any; `true` is a minus. -/
  sign : Option Bool
  digits : List Digit
deriving DecidableEq

/-- A number as it is spelled; without a point there are no fraction digits. -/
structure Numeral where
  negative : Bool
  whole : List Digit
  fraction : List Digit
  power : Option Numeral.Power
deriving DecidableEq

namespace Numeral

/-! ## Spelling -/

/-- The characters of an exponent. -/
def Power.chars (p : Power) : List Char :=
  let sign := match p.sign with
    | none => []
    | some true => ['-']
    | some false => ['+']
  (if p.capital then 'E' else 'e') :: (sign ++ p.digits.map Digit.toChar)

/-- The characters of a numeral, exactly as it was spelled. -/
def chars (n : Numeral) : List Char :=
  let sign := if n.negative then ['-'] else []
  let fraction := if n.fraction.isEmpty then [] else '.' :: n.fraction.map Digit.toChar
  let power := match n.power with
    | none => []
    | some p => p.chars
  sign ++ n.whole.map Digit.toChar ++ fraction ++ power

/-! ## Scanning

Each scanner takes as much as it can and returns what is left. -/

/-- The digits that a text starts with. -/
def scanDigits : List Char → List Digit × List Char
  | [] => ([], [])
  | c :: cs =>
    match Digit.ofChar? c with
    | none => ([], c :: cs)
    | some d => let (ds, rest) := scanDigits cs; (d :: ds, rest)

/-- The digits before the point: a zero stands alone, and one digit at least is needed. -/
def scanWhole : List Char → Option (List Digit × List Char)
  | '0' :: cs => some ([.zero], cs)
  | cs =>
    match scanDigits cs with
    | ([], _) => none
    | (ds, rest) => some (ds, rest)

/-- The digits after a point. -/
def scanFraction : List Char → Option (List Digit × List Char)
  | '.' :: cs =>
    match scanDigits cs with
    | ([], _) => none
    | (ds, rest) => some (ds, rest)
  | cs => some ([], cs)

/-- A sign that may stand in an exponent. -/
def scanSign : List Char → Option Bool × List Char
  | '+' :: cs => (some false, cs)
  | '-' :: cs => (some true, cs)
  | cs => (none, cs)

/-- The exponent behind the letter `c`. -/
def scanPower (c : Char) (cs : List Char) : Option (Power × List Char) :=
  let (sign, rest) := scanSign cs
  match scanDigits rest with
  | ([], _) => none
  | (ds, rest) => some (⟨c = 'E', sign, ds⟩, rest)

/-- An exponent, if a text starts with one. -/
def scanPower? : List Char → Option (Option Power × List Char)
  | [] => some (none, [])
  | c :: cs =>
    if c = 'e' ∨ c = 'E' then (scanPower c cs).map fun (p, rest) => (some p, rest)
    else some (none, c :: cs)

/-- The unsigned part of a numeral. -/
def scanUnsigned (negative : Bool) (cs : List Char) : Option (Numeral × List Char) := do
  let (whole, cs) ← scanWhole cs
  let (fraction, cs) ← scanFraction cs
  let (power, cs) ← scanPower? cs
  pure (⟨negative, whole, fraction, power⟩, cs)

/-- The numeral that a text starts with. -/
def scan : List Char → Option (Numeral × List Char)
  | '-' :: cs => scanUnsigned true cs
  | cs => scanUnsigned false cs

/-! ## As a count -/

/-- Digits only, perhaps behind a minus. -/
def isWhole (n : Numeral) : Bool := n.fraction.isEmpty && n.power.isNone

/-- A plain natural that fits in 64 bits. -/
def toUInt64? (n : Numeral) : Option UInt64 :=
  let value := Digit.toNat n.whole
  if n.isWhole && !n.negative && value < UInt64.size then some (.ofNat value) else none

/-- The numeral of a natural. -/
def ofNat (n : Nat) : Numeral := ⟨false, Digit.ofNat n, [], none⟩

/-! ## As a component -/

/-- Appends digits to a significand while it fits in 64 bits, and counts those left over. -/
def gather (significand : Nat) : List Digit → Nat × Nat
  | [] => (significand, 0)
  | d :: ds =>
    if 10 * significand + d.val < UInt64.size then gather (10 * significand + d.val) ds
    else (significand, (d :: ds).length)

/-- The power of ten that is written, zero if there is none. -/
def writtenPower (n : Numeral) : Int :=
  match n.power with
  | none => 0
  | some p => if p.sign = some true then -(Digit.toNat p.digits : Int) else Digit.toNat p.digits

/-- The largest power of ten that is a double. -/
def powerLimit : Nat := 308

/-- The double nearest to a power of ten. -/
def tenTo (exponent : Nat) : Double := .ofNat (Nat.pow 10 exponent)

/-- Multiplies by a power of ten; nothing if the product is infinite. A quotient by more than the
    largest power of ten takes several steps, and ends where it has become zero. -/
def timesTenTo (x : Double) (exponent : Int) : Option Double :=
  if exponent.natAbs ≤ powerLimit then
    if 0 ≤ exponent then
      let product := x * tenTo exponent.natAbs
      if product.isInfinite then none else some product
    else some (x / tenTo exponent.natAbs)
  else if x.isZero then some x
  else if 0 ≤ exponent then none
  else timesTenTo (x / tenTo powerLimit) (exponent + powerLimit)
termination_by exponent.natAbs
decreasing_by simp only [powerLimit] at *; omega

/-- The numeral as a double. -/
def toDouble? (n : Numeral) : Option Double :=
  let (high, dropped) := gather 0 n.whole
  let (significand, unread) := gather high n.fraction
  let read := n.fraction.length - unread
  let magnitude := timesTenTo (.ofNat significand) (dropped - read + n.writtenPower)
  if n.negative then magnitude.map (-·) else magnitude

/-- The numeral as a component. -/
def toSingle? (n : Numeral) : Option Single :=
  let value := Digit.toNat n.whole
  let limit := if n.negative then UInt64.size / 2 + 1 else UInt64.size
  if n.isWhole && value < limit then
    some (.round n.negative value 1 Format.single.scale)
  else n.toDouble?.map Double.narrow

end Numeral

end ExactNeighbors
