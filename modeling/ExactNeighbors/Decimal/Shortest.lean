import ExactNeighbors.Decimal.Basic

set_option autoImplicit false

/-! # The shortest decimal that reads back

The reals that round to a finite positive number form an interval, from the middle between it and
the number below to the middle between it and the number above; the middles belong to it exactly if
the significand is even. The shortest decimal is a point of this interval on the coarsest decimal
grid that has one there. A grid point in the interval implies that one of the two grid points beside
the number itself is in it, so two candidates per grid suffice; of two hits the nearer is taken, and
a tie goes as the writer of the text asks.

All comparisons are between naturals, in half units of the format. -/

namespace ExactNeighbors.Decimal

/-- Which of two equally near decimals is taken. -/
inductive Tie where
  | toEven
  | up
deriving DecidableEq

/-- The interval of reals that round to a number, with the number itself, in half units. -/
structure ReadBack where
  low : Nat
  value : Nat
  high : Nat
  /-- Whether the two ends belong to the interval. -/
  closed : Bool

/-- The interval of a finite magnitude that is not zero. -/
def ReadBack.of (f : Format) (p : Nat) : ReadBack where
  low := f.units (p - 1) + f.units p
  value := 2 * f.units p
  high := f.units p + f.units (p + 1)
  closed := f.significand p % 2 = 0

/-- Whether the interval holds `num / den` half units. -/
def ReadBack.holds (r : ReadBack) (num den : Nat) : Bool :=
  if r.closed then r.low * den ≤ num && num ≤ r.high * den
  else r.low * den < num && num < r.high * den

/-- The best coefficient on the grid of the powers `10 ^ exponent`, if one reads back. -/
def onGrid? (f : Format) (tie : Tie) (r : ReadBack) (exponent : Int) : Option Nat :=
  let step := Nat.pow 10 exponent.toNat <<< (f.scale + 1)
  let den := Nat.pow 10 (-exponent).toNat
  let below := r.value * den / step
  match r.holds (below * step) den, r.holds ((below + 1) * step) den with
  | false, false => none
  | true, false => some below
  | false, true => some (below + 1)
  | true, true =>
    match compare (2 * (r.value * den - below * step)) step with
    | .lt => some below
    | .gt => some (below + 1)
    | .eq => some (if tie = .toEven then below + below % 2 else below + 1)

/-- Searches the grids from `10 ^ (fuel - scale)` down. The last grid is as fine as a unit of the
    format allows, so the number itself is on it. -/
def search (f : Format) (tie : Tie) (r : ReadBack) : Nat → Decimal
  | 0 => ⟨r.value / 2 * Nat.pow 5 f.scale, -f.scale⟩
  | n + 1 =>
    let exponent : Int := (n + 1 : Nat) - f.scale
    match onGrid? f tie r exponent with
    | some coefficient => ⟨coefficient, exponent⟩
    | none => search f tie r n

/-- The shortest decimal that reads back as the finite magnitude `p`; zero for zero. The first grid
    is coarser than the number. -/
def shortest (f : Format) (tie : Tie) (p : Nat) : Decimal :=
  if p = 0 then ⟨0, 0⟩
  else
    let r := ReadBack.of f p
    search f tie r (f.scale + (r.high >>> f.scale).log2 + 1)

end ExactNeighbors.Decimal
