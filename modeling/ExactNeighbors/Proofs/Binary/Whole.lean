import ExactNeighbors.Proofs.Binary.Exact

set_option autoImplicit false

/-! # Whole numbers

A whole number with no more bits than a significand is a number of the format. So sums, differences
and products of whole numbers need no rounding as long as they stay in this range. A format that has a
whole significand within its range is assumed throughout. -/

namespace ExactNeighbors.Binary

variable {f : Format} {x y : Binary f} {m n : ℤ}

/-- A finite number whose value is the whole number `n`. -/
structure Whole (n : ℤ) (x : Binary f) : Prop where
  finite : x.isFinite = true
  value_eq : x.value = n

section Range

variable [f.Regular] (fits : f.fractionBits + 1 < f.range)

include fits

/-- A short whole number is its own rounding. -/
theorem Rounded.whole (h : Rounded (n : ℚ) x) (short : |n| ≤ 2 ^ (f.fractionBits + 1)) :
    Whole n x := by
  have hshort : n.natAbs ≤ 2 ^ (f.fractionBits + 1) := by
    rw [← Nat.cast_le (α := ℤ), Int.natCast_natAbs]
    exact_mod_cast short
  have hbound : |(n : ℚ)| ≤ 2 ^ (f.fractionBits + 1) := by exact_mod_cast short
  obtain ⟨hfinite, hvalue⟩ := h.exact (m := n.natAbs) (t := f.scale) (k := f.fractionBits + 1)
    (by rw [Nat.cast_natAbs, Int.cast_abs])
    (by rwa [f.leading_eq_two_pow, ← pow_succ']) fits hbound
  exact ⟨hfinite, hvalue⟩

theorem whole_ofNat {n : ℕ} (short : n ≤ 2 ^ (f.fractionBits + 1)) :
    Whole n (ofNat n : Binary f) := by
  refine Rounded.whole fits ?_ ?_
  · exact_mod_cast ofNat_rounded n
  · rw [Nat.abs_cast]
    exact_mod_cast short

theorem Whole.add (hx : Whole m x) (hy : Whole n y) (short : |m + n| ≤ 2 ^ (f.fractionBits + 1)) :
    Whole (m + n) (x + y) := by
  have h := add_rounded hx.finite hy.finite
  rw [hx.value_eq, hy.value_eq, ← Int.cast_add] at h
  exact h.whole fits short

theorem Whole.sub (hx : Whole m x) (hy : Whole n y) (short : |m - n| ≤ 2 ^ (f.fractionBits + 1)) :
    Whole (m - n) (x - y) := by
  have h := sub_rounded hx.finite hy.finite
  rw [hx.value_eq, hy.value_eq, ← Int.cast_sub] at h
  exact h.whole fits short

theorem Whole.mul (hx : Whole m x) (hy : Whole n y) (short : |m * n| ≤ 2 ^ (f.fractionBits + 1)) :
    Whole (m * n) (x * y) := by
  have h := mul_rounded hx.finite hy.finite
  rw [hx.value_eq, hy.value_eq, ← Int.cast_mul] at h
  exact h.whole fits short

end Range

end ExactNeighbors.Binary
