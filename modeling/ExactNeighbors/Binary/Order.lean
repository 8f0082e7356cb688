import ExactNeighbors.Binary.Format

set_option autoImplicit false

/-! # The two orders of numbers

The *total order* compares bit patterns: negative numbers by falling magnitude, then positive ones
by rising magnitude. It tells the zeros apart and puts the not-a-numbers at the two ends, so it
never leaves two different numbers undecided. Rankings use it.

The order of *values* holds the two zeros equal and a not-a-number comparable to nothing. Radius
tests and sign tests use it. -/

namespace ExactNeighbors.Binary

variable {f : Format}

/-! ## The total order -/

/-- Where a number stands in the total order. -/
def totalKey (x : Binary f) : Int :=
  if x.negative then -(x.magnitude : Int) - 1 else x.magnitude

/-- Compares in the total order. -/
def totalCompare (x y : Binary f) : Ordering := compare x.totalKey y.totalKey

theorem totalKey_inj {x y : Binary f} : x.totalKey = y.totalKey ↔ x = y := by
  refine ⟨fun h => ?_, fun h => h ▸ rfl⟩
  obtain ⟨sx, mx, hx⟩ := x
  obtain ⟨sy, my, hy⟩ := y
  cases sx <;> cases sy <;> simp [totalKey] at h ⊢ <;> omega

/-- Only a number itself compares as equal. -/
theorem totalCompare_eq_eq {x y : Binary f} : x.totalCompare y = .eq ↔ x = y := by
  rw [totalCompare, Int.compare_eq_eq, totalKey_inj]

/-! ## The order of values -/

/-- The magnitude with its sign; the zeros agree. -/
def signedMagnitude (x : Binary f) : Int :=
  if x.negative then -(x.magnitude : Int) else x.magnitude

/-- Both are numbers and the first value is less. -/
def lt (x y : Binary f) : Bool :=
  !x.isNaN && !y.isNaN && x.signedMagnitude < y.signedMagnitude

/-- Both are numbers and the first value is not greater. -/
def le (x y : Binary f) : Bool :=
  !x.isNaN && !y.isNaN && x.signedMagnitude ≤ y.signedMagnitude

end ExactNeighbors.Binary
