import ExactNeighbors.Proofs.Binary.Round

set_option autoImplicit false

/-! # Values and correctly rounded results

A number stands for a rational, and the result of an operation for the exact result, rounded
(`Binary.Rounded`). What follows for results is order: whatever a number bounds, on either side, it
bounds after rounding, and so does a power of two, which even holds against half a step more. A
result that a power of two within the range bounds is finite.

An infinity takes part with the power of two that its magnitude would stand for, which keeps all
bounds true of results that overflow. -/

namespace ExactNeighbors

/-! ## Formats with a range -/

/-- A format with normal numbers and fractions. -/
class Format.Regular (f : Format) : Prop where
  exponentBits_gt : 1 < f.exponentBits
  leading_even : f.leading % 2 = 0

instance : Format.single.Regular := ⟨by decide, by decide⟩

instance : Format.double.Regular := ⟨by decide, by decide⟩

namespace Format

/-- All finite numbers are below two to this power. -/
def range (f : Format) : ℕ := 2 ^ (f.exponentBits - 1)

theorem units_infinity (f : Format) [f.Regular] : f.units f.infinity = 2 ^ (f.scale + f.range) := by
  have hbits := Regular.exponentBits_gt (f := f)
  have hrange : 2 ≤ f.range := by
    calc 2 = 2 ^ 1 := rfl
      _ ≤ f.range := Nat.pow_le_pow_right Nat.two_pos (by omega)
  have hfields : 2 ^ f.exponentBits = 2 * f.range := by
    rw [range, ← Nat.pow_succ', Nat.succ_eq_add_one, Nat.sub_add_cancel (by omega)]
  have hscale : f.scale = f.range - 2 + f.fractionBits := f.scale_eq
  have hinfinity : f.infinity = f.powerMagnitude (f.scale + f.range) := by
    have heq : f.infinity = (2 ^ f.exponentBits - 1) * f.leading := f.infinity_eq
    rw [heq, hfields, powerMagnitude, if_neg (by omega), ← Nat.succ_mul]
    congr 1
    omega
  rw [hinfinity, units_powerMagnitude]

theorem leading_le_infinity (f : Format) [f.Regular] : f.leading ≤ f.infinity := by
  rw [← f.units_strictMono.le_iff_le, units_leading, units_infinity, leading_eq_two_pow]
  refine Nat.pow_le_pow_right Nat.two_pos ?_
  have hscale : f.scale = 2 ^ (f.exponentBits - 1) - 2 + f.fractionBits := f.scale_eq
  omega

end Format

namespace Binary

variable {f : Format} {x y z : Binary f} {r : ℚ}

/-! ## Values -/

/-- The value without its sign. -/
def size (x : Binary f) : ℚ := f.units x.magnitude / 2 ^ f.scale

/-- The rational that a number stands for. -/
def value (x : Binary f) : ℚ := if x.negative then -x.size else x.size

theorem size_nonneg (x : Binary f) : 0 ≤ x.size := by
  unfold size
  positivity

@[simp]
theorem abs_value (x : Binary f) : |x.value| = x.size := by
  rw [value]
  split
  · rw [abs_neg, abs_of_nonneg x.size_nonneg]
  · exact abs_of_nonneg x.size_nonneg

theorem size_le_size : x.size ≤ y.size ↔ x.magnitude ≤ y.magnitude := by
  rw [size, size, div_le_div_iff_of_pos_right (by positivity), Nat.cast_le,
    f.units_strictMono.le_iff_le]

theorem size_eq_zero : x.size = 0 ↔ x.isZero = true := by
  have hunits : f.units x.magnitude = 0 ↔ x.magnitude = 0 := by
    rw [← f.units_strictMono.injective.eq_iff (a := x.magnitude), f.units_zero]
  rw [isZero, decide_eq_true_iff, size, div_eq_zero_iff, or_iff_left (by positivity),
    Nat.cast_eq_zero, hunits]

theorem value_eq_zero : x.value = 0 ↔ x.isZero = true := by
  rw [← abs_eq_zero, abs_value, size_eq_zero]

@[simp]
theorem value_zero (negative : Bool) : (zero negative : Binary f).value = 0 :=
  value_eq_zero.2 rfl

@[simp]
theorem value_neg (x : Binary f) : (-x).value = -x.value := by
  change (if !x.negative then -x.size else x.size) = -(if x.negative then -x.size else x.size)
  cases x.negative <;> simp

theorem value_of_negative (h : x.negative = true) : x.value = -x.size := by
  rw [value, if_pos h]

theorem value_of_positive (h : x.negative = false) : x.value = x.size := by
  rw [value, h, if_neg Bool.false_ne_true]

theorem positive_of_value_pos (h : 0 < x.value) : x.negative = false := by
  refine Bool.eq_false_iff.2 fun hneg => ?_
  rw [value_of_negative hneg] at h
  exact absurd x.size_nonneg (not_le.2 (neg_pos.1 h))

/-! ## Results -/

/-- The number is the nearest to `r`, with its sign. -/
structure Rounded (r : ℚ) (z : Binary f) : Prop where
  rounds : f.Rounds (|r| * 2 ^ f.scale) z.magnitude
  positive : 0 < r → z.negative = false
  negative : r < 0 → z.negative = true

theorem Rounded.magnitude_le (h : Rounded r z) : z.magnitude ≤ f.infinity := h.rounds.le_infinity

theorem Rounded.isNaN_eq (h : Rounded r z) : z.isNaN = false :=
  decide_eq_false (Nat.not_lt.2 h.magnitude_le)

theorem Rounded.neg (h : Rounded r z) : Rounded (-r) (-z) where
  rounds := by
    rw [abs_neg]
    exact h.rounds
  positive hr := by
    have hneg := h.negative (neg_pos.1 hr)
    change (!z.negative) = false
    rw [hneg, Bool.not_true]
  negative hr := by
    have hpos := h.positive (neg_lt_zero.1 hr)
    change (!z.negative) = true
    rw [hpos, Bool.not_false]

theorem Rounded.value_nonneg (h : Rounded r z) (hr : 0 ≤ r) : 0 ≤ z.value := by
  rcases hr.lt_or_eq with hpos | rfl
  · rw [value_of_positive (h.positive hpos)]
    exact z.size_nonneg
  · have hzero : z.magnitude ≤ 0 := h.rounds.le_of_le_units (Nat.zero_le _) (by simp)
    have hvalue : z.value = 0 := value_eq_zero.2 (decide_eq_true (Nat.le_zero.1 hzero))
    rw [hvalue]

theorem Rounded.size_le (h : Rounded r z) (hx : x.magnitude ≤ f.infinity) (hle : |r| ≤ x.size) :
    z.size ≤ x.size := by
  refine size_le_size.2 (h.rounds.le_of_le_units hx ?_)
  rwa [size, le_div_iff₀ (by positivity)] at hle

theorem Rounded.le_size (h : Rounded r z) (hx : x.magnitude ≤ f.infinity) (hle : x.size ≤ |r|) :
    x.size ≤ z.size := by
  refine size_le_size.2 (h.rounds.le_of_units_le hx ?_)
  rwa [size, div_le_iff₀ (by positivity)] at hle

/-- A number below the exact result is not above the rounded one. -/
theorem Rounded.le_value (h : Rounded r z) (hx : x.magnitude ≤ f.infinity) (hle : x.value ≤ r) :
    x.value ≤ z.value := by
  rcases lt_or_ge r 0 with hr | hr
  · have hsize : |r| ≤ x.size := by
      rw [← abs_value, abs_of_neg hr, abs_of_neg (hle.trans_lt hr)]
      exact neg_le_neg hle
    rw [value_of_negative (h.negative hr)]
    have hx' : x.value = -x.size := by rw [← abs_value, abs_of_neg (hle.trans_lt hr), neg_neg]
    rw [hx']
    exact neg_le_neg (h.size_le hx hsize)
  · rcases le_or_gt x.value 0 with hnonpos | hpos
    · exact hnonpos.trans (h.value_nonneg hr)
    · have hsize : x.size ≤ |r| := by rwa [← abs_value, abs_of_pos hpos, abs_of_nonneg hr]
      calc x.value = x.size := by rw [← abs_value, abs_of_pos hpos]
        _ ≤ z.size := h.le_size hx hsize
        _ = z.value := (value_of_positive (h.positive (hpos.trans_le hle))).symm

/-- A number above the exact result is not below the rounded one. -/
theorem Rounded.value_le (h : Rounded r z) (hx : x.magnitude ≤ f.infinity) (hle : r ≤ x.value) :
    z.value ≤ x.value := by
  have hneg := h.neg.le_value (x := -x) hx (by rw [value_neg]; exact neg_le_neg hle)
  rw [value_neg, value_neg] at hneg
  exact neg_le_neg_iff.1 hneg

/-! ## Bounds by powers of two -/

theorem Rounded.abs_value_le (h : Rounded r z) {k : ℕ} (hr : |r| ≤ 2 ^ k) : |z.value| ≤ 2 ^ k := by
  have hunits : f.units z.magnitude ≤ 2 ^ (f.scale + k) := by
    refine h.rounds.units_le_two_pow ?_
    rw [pow_add, mul_comm]
    exact mul_le_mul_of_nonneg_left hr (by positivity)
  rw [abs_value, size, div_le_iff₀ (by positivity), ← pow_add, add_comm k]
  exact_mod_cast hunits

variable [f.Regular]

/-- What is added to a power of two does not lead past it if it is at most half its step. -/
theorem Rounded.abs_value_le_of_half_step (h : Rounded r z) {k : ℕ}
    (hr : |r| ≤ 2 ^ (f.fractionBits + 1 + k) + 2 ^ k) :
    |z.value| ≤ 2 ^ (f.fractionBits + 1 + k) := by
  have hunits : f.units z.magnitude ≤ 2 ^ (f.fractionBits + 1 + (f.scale + k)) := by
    refine h.rounds.units_le_of_half_step Format.Regular.leading_even ?_
    calc |r| * 2 ^ f.scale ≤ (2 ^ (f.fractionBits + 1 + k) + 2 ^ k) * 2 ^ f.scale := by gcongr
      _ = 2 ^ (f.fractionBits + 1 + (f.scale + k)) + 2 ^ (f.scale + k) := by ring
  rw [abs_value, size, div_le_iff₀ (by positivity)]
  calc (f.units z.magnitude : ℚ) ≤ 2 ^ (f.fractionBits + 1 + (f.scale + k)) := by
        exact_mod_cast hunits
    _ = 2 ^ (f.fractionBits + 1 + k) * 2 ^ f.scale := by ring

/-- A result within the range is finite. -/
theorem isFinite_of_abs_value_le (hz : z.magnitude ≤ f.infinity) {k : ℕ} (hk : k < f.range)
    (hvalue : |z.value| ≤ 2 ^ k) : z.isFinite = true := by
  refine decide_eq_true (hz.lt_of_ne fun hinfinite => ?_)
  rw [abs_value, size, hinfinite, f.units_infinity, div_le_iff₀ (by positivity)] at hvalue
  have hpow : 2 ^ (f.scale + f.range) ≤ 2 ^ (k + f.scale) := by
    rw [← pow_add] at hvalue
    exact_mod_cast hvalue
  have := (Nat.pow_le_pow_iff_right (by norm_num)).1 hpow
  omega

/-- Finite numbers are within the range. -/
theorem abs_value_lt_of_isFinite (hz : z.isFinite = true) : |z.value| < 2 ^ f.range := by
  have hunits : f.units z.magnitude < 2 ^ (f.scale + f.range) := by
    rw [← f.units_infinity]
    exact f.units_strictMono (of_decide_eq_true hz)
  rw [abs_value, size, div_lt_iff₀ (by positivity), ← pow_add, add_comm f.range]
  exact_mod_cast hunits

end Binary

end ExactNeighbors
