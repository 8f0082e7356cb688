import ExactNeighbors.Binary.Round

set_option autoImplicit false

/-! # Arithmetic

Sum, difference, product, quotient, square root and change of format. On finite operands each is
the exact result rounded once; the rest are the usual rules for infinities and not-a-numbers.

Two rules about zero are visible in answers: an exact sum of zero is negative only if both operands
are, and a product or quotient takes its sign from the operands even when it is zero. -/

namespace ExactNeighbors.Binary

variable {f : Format}

/-! ## Sums -/

/-- The significand with its sign, in units of `2 ^ exponent`, for an exponent not above the
    number's own. -/
def signedSignificand (x : Binary f) (exponent : Nat) : Int :=
  let m : Int := x.significand <<< (x.exponent - exponent)
  if x.negative then -m else m

/-- The sum. The operands are brought to the smaller exponent and added there exactly. -/
def add (x y : Binary f) : Binary f :=
  if x.isNaN || y.isNaN then notANumber
  else if x.isInfinite then
    if y.isInfinite && x.negative != y.negative then notANumber else x
  else if y.isInfinite then y
  else
    let e := min x.exponent y.exponent
    let sum := x.signedSignificand e + y.signedSignificand e
    if sum = 0 then zero (x.negative && y.negative)
    else round (sum < 0) sum.natAbs 1 e

/-- The difference: the sum with the other sign. -/
def sub (x y : Binary f) : Binary f := add x (-y)

instance : Add (Binary f) := ⟨add⟩
instance : Sub (Binary f) := ⟨sub⟩

/-! ## Products, quotients and roots -/

/-- The product; an infinity times a zero has none. -/
def mul (x y : Binary f) : Binary f :=
  let negative := x.negative != y.negative
  if x.isNaN || y.isNaN then notANumber
  else if x.isInfinite || y.isInfinite then
    if x.isZero || y.isZero then notANumber else infinite negative
  else
    round negative (x.significand * y.significand) 1
      ((x.exponent + y.exponent : Nat) - f.scale : Int)

/-- The quotient. The dividend is widened until the quotient has a whole part, as rounding asks. -/
def div (x y : Binary f) : Binary f :=
  let negative := x.negative != y.negative
  if x.isNaN || y.isNaN then notANumber
  else if x.isInfinite then
    if y.isInfinite then notANumber else infinite negative
  else if y.isInfinite then zero negative
  else if y.isZero then
    if x.isZero then notANumber else infinite negative
  else
    let widening := f.fractionBits + 1
    round negative (x.significand <<< widening) y.significand
      (x.exponent + f.scale - y.exponent - widening : Int)

instance : Mul (Binary f) := ⟨mul⟩
instance : Div (Binary f) := ⟨div⟩

/-- The square root. It lies between a whole number of sufficiently small parts and the next. Where it
    is not whole it is taken as the half between them: rounding only asks on which side of a
    coarser number the root lies. -/
def sqrt (x : Binary f) : Binary f :=
  if x.isNaN then notANumber
  else if x.isZero then x
  else if x.negative then notANumber
  else if x.isInfinite then x
  else
    let power := x.exponent + f.scale
    let widening := power % 2 + 2 * (f.fractionBits + 2)
    let radicand := x.significand <<< widening
    let root := radicand.sqrt
    let doubled := if root * root = radicand then 2 * root else 2 * root + 1
    round false doubled 2 ((power - widening : Int) / 2)

/-! ## Change of format -/

/-- The nearest number of another format; exact where that format is wider. -/
def convert (g : Format) (x : Binary f) : Binary g :=
  if x.isNaN then notANumber
  else if x.isInfinite then infinite x.negative
  else round x.negative x.significand 1 (x.exponent + g.scale - f.scale : Int)

end ExactNeighbors.Binary

namespace ExactNeighbors

/-- A component as the double it is exactly. -/
def Single.widen (x : Single) : Double := x.convert .double

/-- A double as the nearest component. -/
def Double.narrow (x : Double) : Single := x.convert .single

end ExactNeighbors
