import ExactNeighbors.Binary.Arithmetic
import ExactNeighbors.Decimal.Digit

set_option autoImplicit false

/-! # Decimal numbers

A decimal number is a natural coefficient times a power of ten. Reading one as a binary number
rounds it once, through the ratio that it exactly is. -/

namespace ExactNeighbors

/-- The number `coefficient * 10 ^ exponent`. -/
structure Decimal where
  coefficient : Nat
  exponent : Int
deriving DecidableEq

namespace Decimal

/-- The number as a ratio. -/
def ratio (d : Decimal) : Nat × Nat :=
  (d.coefficient * Nat.pow 10 d.exponent.toNat, Nat.pow 10 (-d.exponent).toNat)

/-- The nearest binary number. The numerator is widened until the quotient has a whole part. -/
def nearest (f : Format) (negative : Bool) (d : Decimal) : Binary f :=
  let (num, den) := d.ratio
  let widening := den.log2 + 1
  .round negative (num <<< widening) den (f.scale - widening : Int)

/-! ## Positional digits -/

/-- The digits before and after the point. One digit at least stands before it, and none after it
    if the number is whole. -/
def positional (d : Decimal) : List Digit × List Digit :=
  let ds := Digit.ofNat d.coefficient
  if 0 ≤ d.exponent then (ds ++ List.replicate d.exponent.toNat .zero, [])
  else
    let places := (-d.exponent).toNat
    if places < ds.length then ds.splitAt (ds.length - places)
    else ([.zero], List.replicate (places - ds.length) .zero ++ ds)

/-- The power of ten of the leading digit. -/
def leadingExponent (d : Decimal) : Int :=
  (Digit.ofNat d.coefficient).length - 1 + d.exponent

end Decimal

end ExactNeighbors
