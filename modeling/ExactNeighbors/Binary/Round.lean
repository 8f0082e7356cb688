import ExactNeighbors.Binary.Format

set_option autoImplicit false

/-! # Rounding to the nearest number

Every operation first has its result exactly, as a ratio of naturals scaled by a power of two and
counted in units of the target format, and then rounds once: to the nearest number, a tie to the
even significand, and from halfway past the largest finite number on to infinity.

The result's exponent is what brings the quotient down to the format's precision, but never below
the exponent that small numbers share. A significand that rounds up to the next power of two needs
no care: the sum of its fields is then the magnitude that follows, which is infinity after the
largest number. -/

namespace ExactNeighbors

/-- The whole number nearest to `num / den`, the even one of two. -/
def nearestEven (num den : Nat) : Nat :=
  match compare (2 * (num % den)) den with
  | .lt => num / den
  | .eq => num / den + num / den % 2
  | .gt => num / den + 1

namespace Format

/-- The magnitude nearest to `num / den * 2 ^ shift` units, for a quotient that is at least one
    (its size is read off the whole part) or zero. -/
def round (f : Format) (num den : Nat) (shift : Int) : Nat :=
  if num = 0 then 0
  else
    let e := ((num / den).log2 + shift - f.fractionBits).toNat
    let m := nearestEven (num <<< (shift - e).toNat) (den <<< (e - shift).toNat)
    min (e * f.leading + m) f.infinity

theorem round_le_infinity (f : Format) (num den : Nat) (shift : Int) :
    f.round num den shift ≤ f.infinity := by
  unfold round
  split
  · exact Nat.zero_le _
  · exact Nat.min_le_right _ _

end Format

namespace Binary

variable {f : Format}

/-- The number nearest to `num / den * 2 ^ shift` units, with the given sign. -/
def round (negative : Bool) (num den : Nat) (shift : Int) : Binary f :=
  ⟨negative, f.round num den shift,
    Nat.lt_of_le_of_lt (f.round_le_infinity num den shift) f.infinity_lt_span⟩

/-- The number nearest to a natural. -/
def ofNat (n : Nat) : Binary f := round false n 1 f.scale

def one : Binary f := ofNat 1

end Binary

end ExactNeighbors
