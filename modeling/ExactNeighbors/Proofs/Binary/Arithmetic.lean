import ExactNeighbors.Binary.Arithmetic
import ExactNeighbors.Proofs.Binary.Value
import Mathlib.Algebra.Order.Ring.Abs

set_option autoImplicit false

/-! # Operations round the exact result

Sum, difference, product, quotient and change of format of finite numbers are the rational results,
rounded once. Of the square root only bounds are needed: it is not below a number whose square is not
above the radicand, and it stays within a power of two whose square bounds the radicand. -/

namespace ExactNeighbors.Binary

variable {f g : Format} {x y z : Binary f}

/-! ## Finite numbers -/

theorem isNaN_of_isFinite (h : x.isFinite = true) : x.isNaN = false :=
  decide_eq_false (Nat.not_lt.2 (Nat.le_of_lt (of_decide_eq_true h)))

theorem isInfinite_of_isFinite (h : x.isFinite = true) : x.isInfinite = false :=
  decide_eq_false (Nat.ne_of_lt (of_decide_eq_true h))

theorem magnitude_le_of_isFinite (h : x.isFinite = true) : x.magnitude ≤ f.infinity :=
  Nat.le_of_lt (of_decide_eq_true h)

theorem size_mul_scale (x : Binary f) : x.size * 2 ^ f.scale = x.significand * 2 ^ x.exponent := by
  rw [size, div_mul_cancel₀ _ (by positivity), Format.units]
  push_cast [Nat.pow_eq]
  rfl

theorem size_eq (x : Binary f) : x.size = x.significand * 2 ^ x.exponent / 2 ^ f.scale :=
  eq_div_of_mul_eq (by positivity) x.size_mul_scale

/-! ## Rounded results -/

theorem rounded_zero (negative : Bool) : Rounded 0 (zero negative : Binary f) where
  rounds := by
    have h := Format.rounds_units (f := f) (Nat.zero_le _)
    rw [f.units_zero, Nat.cast_zero] at h
    rwa [abs_zero, zero_mul]
  positive h := absurd h (lt_irrefl 0)
  negative h := absurd h (lt_irrefl 0)

theorem rounded_round {negative : Bool} {num den : ℕ} {shift : ℤ} {r : ℚ} (hden : 0 < den)
    (hwhole : num = 0 ∨ den ≤ num) (hr : |r| * 2 ^ f.scale = num / den * 2 ^ shift)
    (hpos : 0 < r → negative = false) (hneg : r < 0 → negative = true) :
    Rounded r (round negative num den shift : Binary f) where
  rounds := by
    rw [hr]
    exact Format.rounds_round hden hwhole shift
  positive := hpos
  negative := hneg

/-! ## Sums -/

theorem signedSignificand_mul (x : Binary f) {e : ℕ} (he : e ≤ x.exponent) :
    (x.signedSignificand e : ℚ) * 2 ^ e = x.value * 2 ^ f.scale := by
  have hsize : (x.significand * 2 ^ (x.exponent - e) : ℚ) * 2 ^ e = x.size * 2 ^ f.scale := by
    rw [size_mul_scale, mul_assoc, ← pow_add, Nat.sub_add_cancel he]
  rw [signedSignificand, value]
  simp only [Nat.shiftLeft_eq]
  split
  · push_cast
    rw [neg_mul, neg_mul, hsize]
  · push_cast
    exact hsize

/-- **A sum of finite numbers is rounded once.** -/
theorem add_rounded (hx : x.isFinite = true) (hy : y.isFinite = true) :
    Rounded (x.value + y.value) (x + y) := by
  have hsum (e : ℕ) (hex : e ≤ x.exponent) (hey : e ≤ y.exponent) :
      (x.value + y.value) * 2 ^ f.scale =
        ((x.signedSignificand e + y.signedSignificand e : ℤ) : ℚ) * 2 ^ e := by
    rw [add_mul, ← signedSignificand_mul x hex, ← signedSignificand_mul y hey]
    push_cast
    ring
  replace hsum := hsum (min x.exponent y.exponent) (Nat.min_le_left _ _) (Nat.min_le_right _ _)
  have hscale : (0 : ℚ) < 2 ^ f.scale := by positivity
  change Rounded _ (add x y)
  unfold add
  rw [isNaN_of_isFinite hx, isNaN_of_isFinite hy, isInfinite_of_isFinite hx,
    isInfinite_of_isFinite hy]
  simp only [Bool.or_self, Bool.false_eq_true, if_false]
  generalize min x.exponent y.exponent = e at hsum ⊢
  generalize x.signedSignificand e + y.signedSignificand e = sum at hsum ⊢
  have hpow : (0 : ℚ) < 2 ^ e := by positivity
  split
  · next hzero =>
      rw [hzero, Int.cast_zero, zero_mul] at hsum
      rw [(mul_eq_zero.1 hsum).resolve_right hscale.ne']
      exact rounded_zero _
  · refine rounded_round Nat.one_pos (Or.inr (by omega)) ?_ ?_ ?_
    · rw [← abs_of_pos hscale, ← abs_mul, hsum, abs_mul, abs_of_pos hpow, ← Int.cast_abs,
        Int.abs_eq_natAbs, Nat.cast_one, div_one, zpow_natCast, Int.cast_natCast]
    · intro hpos
      have hprod : (0 : ℚ) < sum * 2 ^ e := hsum ▸ mul_pos hpos hscale
      have : (0 : ℚ) < sum := pos_of_mul_pos_left hprod hpow.le
      exact decide_eq_false (not_lt.2 (by exact_mod_cast this.le))
    · intro hneg
      have hprod : (sum * 2 ^ e : ℚ) < 0 := hsum ▸ mul_neg_of_neg_of_pos hneg hscale
      have : (sum : ℚ) < 0 := neg_of_mul_neg_left hprod hpow.le
      exact decide_eq_true (by exact_mod_cast this)

theorem isFinite_neg (h : x.isFinite = true) : (-x).isFinite = true := h

/-- A difference of finite numbers is rounded once. -/
theorem sub_rounded (hx : x.isFinite = true) (hy : y.isFinite = true) :
    Rounded (x.value - y.value) (x - y) := by
  have h := add_rounded hx (isFinite_neg hy)
  rwa [value_neg, ← sub_eq_add_neg] at h

/-! ## Products and quotients -/

/-- The sign of a product or quotient, by the rule of signs. -/
theorem rounded_of_signs {negative : Bool} {num den : ℕ} {shift : ℤ} {r : ℚ} (hden : 0 < den)
    (hwhole : num = 0 ∨ den ≤ num) (hr : |r| * 2 ^ f.scale = num / den * 2 ^ shift)
    (hsign : if negative then r ≤ 0 else 0 ≤ r) :
    Rounded r (round negative num den shift : Binary f) := by
  refine rounded_round hden hwhole hr ?_ ?_
  · intro hpos
    cases negative with
    | false => rfl
    | true => exact absurd hpos (not_lt.2 hsign)
  · intro hneg
    cases negative with
    | false => exact absurd hneg (not_lt.2 hsign)
    | true => rfl

theorem sign_mul (x : Binary f) {y : Binary f} :
    if x.negative != y.negative then x.value * y.value ≤ 0 else 0 ≤ x.value * y.value := by
  have hx := x.size_nonneg
  have hy := y.size_nonneg
  have hxy := mul_nonneg hx hy
  unfold value
  cases x.negative <;> cases y.negative <;> simp <;> linarith

/-- **A product of finite numbers is rounded once.** -/
theorem mul_rounded (hx : x.isFinite = true) (hy : y.isFinite = true) :
    Rounded (x.value * y.value) (x * y) := by
  change Rounded _ (mul x y)
  unfold mul
  rw [isNaN_of_isFinite hx, isNaN_of_isFinite hy, isInfinite_of_isFinite hx,
    isInfinite_of_isFinite hy]
  simp only [Bool.or_self, Bool.false_eq_true, if_false]
  refine rounded_of_signs Nat.one_pos (by omega) ?_ x.sign_mul
  rw [abs_mul, abs_value, abs_value, x.size_eq, y.size_eq, Nat.cast_one, div_one,
    zpow_sub₀ two_ne_zero, zpow_natCast, zpow_natCast, pow_add]
  push_cast
  field_simp

theorem significand_lt (x : Binary f) : x.significand < 2 * f.leading :=
  (f.isGrid_fields x.magnitude).1.high

theorem significand_pos (h : x.isZero = false) : 0 < x.significand := by
  refine Nat.pos_of_ne_zero fun hzero => ?_
  have hsize := x.size_mul_scale
  rw [hzero, Nat.cast_zero, zero_mul] at hsize
  have hsize := (mul_eq_zero.1 hsize).resolve_right (by positivity)
  rw [size_eq_zero.1 hsize] at h
  exact Bool.noConfusion h

theorem sign_div (x : Binary f) {y : Binary f} :
    if x.negative != y.negative then x.value / y.value ≤ 0 else 0 ≤ x.value / y.value := by
  have hxy := div_nonneg x.size_nonneg y.size_nonneg
  unfold value
  cases x.negative <;> cases y.negative <;> simp [neg_div, div_neg, hxy]

/-- **A quotient of finite numbers is rounded once.** -/
theorem div_rounded (hx : x.isFinite = true) (hy : y.isFinite = true) (hzero : y.isZero = false) :
    Rounded (x.value / y.value) (x / y) := by
  change Rounded _ (div x y)
  unfold div
  rw [isNaN_of_isFinite hx, isNaN_of_isFinite hy, isInfinite_of_isFinite hx,
    isInfinite_of_isFinite hy, hzero]
  simp only [Bool.or_self, Bool.false_eq_true, if_false]
  have hpos := y.significand_pos hzero
  refine rounded_of_signs hpos ?_ ?_ x.sign_div
  · -- The widened dividend has one bit more than the divisor.
    rcases Nat.eq_zero_or_pos x.significand with h | h
    · exact Or.inl (by rw [h, Nat.zero_shiftLeft])
    · refine Or.inr (y.significand_lt.le.trans ?_)
      rw [Nat.shiftLeft_eq, pow_succ', Format.leading_eq_two_pow]
      exact Nat.le_mul_of_pos_left _ h
  · generalize f.fractionBits + 1 = widening
    have hpos' : (0 : ℚ) < y.significand := by exact_mod_cast hpos
    rw [abs_div, abs_value, abs_value, x.size_eq, y.size_eq, Nat.shiftLeft_eq,
      zpow_sub₀ two_ne_zero, zpow_sub₀ two_ne_zero, zpow_add₀ two_ne_zero, zpow_natCast,
      zpow_natCast, zpow_natCast, zpow_natCast]
    push_cast
    field_simp

/-! ## Square roots -/

/-- What the square root of `x` rounds: it is not below a number whose square is not above `x`, small
    if `x` is, and off by half a step of a full significand at most. -/
structure NearRoot (x : Binary f) (r : ℚ) : Prop where
  pos : 0 < r
  lower : x.value * (2 * f.leading) ^ 2 ≤ r ^ 2 * (2 * f.leading + 1) ^ 2
  upper : r ^ 2 * (2 * f.leading) ^ 2 ≤ x.value * (2 * f.leading + 1) ^ 2
  size_le : ∀ c : Binary f, c.size ^ 2 ≤ x.value → c.size ≤ r
  le_two_pow : ∀ k : ℕ, x.value ≤ (2 ^ k) ^ 2 → r ≤ 2 ^ (k + 1)

/-- One more step changes a root that fills a significand by little. -/
theorem succ_steps_le {root : ℕ} {step : ℚ} (hwide : 2 * f.leading ≤ root) (hstep : 0 ≤ step) :
    (root + 1) * step * (2 * f.leading) ≤ root * step * (2 * f.leading + 1) := by
  have hwide' : (2 * f.leading : ℚ) ≤ root := by exact_mod_cast hwide
  linarith [mul_le_mul_of_nonneg_right hwide' hstep]

/-- Steps that fill a significand come as near to the root as any number does. -/
theorem size_le_steps {radicand : ℕ} {step : ℚ} {d : ℤ} (hscale : step * 2 ^ f.scale = 2 ^ d)
    (hstep : 0 < step) (hwide : 2 * f.leading ≤ radicand.sqrt) {c : Binary f}
    (hc : c.size ^ 2 ≤ radicand * step ^ 2) : c.size ≤ radicand.sqrt * step := by
  have hsize : c.size = c.significand * 2 ^ ((c.exponent : ℤ) - d) * step := by
    refine mul_right_cancel₀ (show (2 : ℚ) ^ f.scale ≠ 0 by positivity) ?_
    rw [size_mul_scale, mul_assoc, hscale, mul_assoc, ← zpow_add₀ two_ne_zero, sub_add_cancel,
      zpow_natCast]
  rcases le_or_gt d c.exponent with hd | hd
  · -- A multiple of the step is compared as a whole number.
    obtain ⟨n, hn⟩ := Int.eq_ofNat_of_zero_le (sub_nonneg.2 hd)
    rw [hn, zpow_natCast] at hsize
    have hsquare : (c.significand * 2 ^ n) ^ 2 ≤ radicand := by
      rw [hsize, mul_pow, mul_le_mul_iff_of_pos_right (by positivity)] at hc
      exact_mod_cast hc
    have hroot : c.significand * 2 ^ n ≤ radicand.sqrt := Nat.le_sqrt'.2 hsquare
    rw [hsize]
    gcongr
    exact_mod_cast hroot
  · -- A number that needs finer steps is small.
    have hsmall : (2 : ℚ) ^ ((c.exponent : ℤ) - d) ≤ 1 :=
      zpow_le_one_of_nonpos₀ one_le_two (by omega)
    have hroot : (c.significand : ℚ) ≤ radicand.sqrt := by
      exact_mod_cast c.significand_lt.le.trans hwide
    rw [hsize]
    gcongr
    exact (mul_le_of_le_one_right (by positivity) hsmall).trans hroot

/-- A whole number of steps, or the half after it, is near the root of so many squared steps. -/
theorem nearRoot_of_steps {radicand : ℕ} {step : ℚ} {d : ℤ} {r : ℚ}
    (hscale : step * 2 ^ f.scale = 2 ^ d) (hwide : 2 * f.leading ≤ radicand.sqrt)
    (hx : x.value = radicand * step ^ 2) (hlow : radicand.sqrt * step ≤ r)
    (hhigh : r ≤ (radicand.sqrt + 1) * step) : NearRoot x r := by
  have hstep : 0 < step := pos_of_mul_pos_left (hscale ▸ zpow_pos two_pos d) (by positivity)
  have hone : (1 : ℚ) ≤ radicand.sqrt := by
    exact_mod_cast (Nat.mul_pos Nat.two_pos f.leading_pos).trans_le hwide
  have hpos : 0 < r := (mul_pos (zero_lt_one.trans_le hone) hstep).trans_le hlow
  have hnext := succ_steps_le hwide hstep.le
  have hfloor : (radicand.sqrt * step) ^ 2 ≤ x.value := by
    rw [hx, mul_pow]
    gcongr
    exact_mod_cast Nat.sqrt_le' radicand
  have hceil : x.value ≤ ((radicand.sqrt + 1) * step) ^ 2 := by
    rw [hx, mul_pow]
    gcongr
    exact_mod_cast (Nat.lt_succ_sqrt' radicand).le
  refine ⟨hpos, ?_, ?_, fun c hc => (size_le_steps hscale hstep hwide (hx ▸ hc)).trans hlow, ?_⟩
  · calc x.value * (2 * f.leading) ^ 2 ≤ ((radicand.sqrt + 1) * step * (2 * f.leading)) ^ 2 := by
          rw [mul_pow _ (2 * f.leading : ℚ)]
          gcongr
      _ ≤ (radicand.sqrt * step * (2 * f.leading + 1)) ^ 2 := by gcongr
      _ ≤ (r * (2 * f.leading + 1)) ^ 2 := by gcongr
      _ = r ^ 2 * (2 * f.leading + 1) ^ 2 := mul_pow _ _ 2
  · calc r ^ 2 * (2 * f.leading) ^ 2 ≤ ((radicand.sqrt + 1) * step * (2 * f.leading)) ^ 2 := by
          rw [← mul_pow]
          gcongr
      _ ≤ (radicand.sqrt * step * (2 * f.leading + 1)) ^ 2 := by gcongr
      _ = (radicand.sqrt * step) ^ 2 * (2 * f.leading + 1) ^ 2 := mul_pow _ _ 2
      _ ≤ x.value * (2 * f.leading + 1) ^ 2 := by gcongr
  · intro k hk
    have hsquare : (radicand.sqrt * step) ^ 2 ≤ (2 ^ k : ℚ) ^ 2 := hfloor.trans hk
    have hroot := (pow_le_pow_iff_left₀ (by positivity) (by positivity) two_ne_zero).1 hsquare
    calc r ≤ (radicand.sqrt + 1) * step := hhigh
      _ ≤ (radicand.sqrt + radicand.sqrt) * step := by gcongr
      _ = 2 * (radicand.sqrt * step) := by ring
      _ ≤ 2 * 2 ^ k := by gcongr
      _ = 2 ^ (k + 1) := (pow_succ' 2 k).symm

/-- The radicand is a whole number of squared steps, so widened that its root fills a
    significand. -/
theorem value_eq_squared_steps (hzero : x.isZero = false) (hpos : x.negative = false)
    (widening : ℕ) {d : ℤ} (heven : ((x.exponent + f.scale : ℕ) - widening : ℤ) = 2 * d)
    (hwide : 2 * (f.fractionBits + 1) ≤ widening) :
    2 * f.leading ≤ (x.significand <<< widening).sqrt ∧
      x.value = (x.significand <<< widening : ℕ) * (2 ^ d / 2 ^ f.scale : ℚ) ^ 2 := by
  rw [Nat.shiftLeft_eq]
  constructor
  · refine Nat.le_sqrt'.2 ?_
    calc (2 * f.leading) ^ 2 = 2 ^ (2 * (f.fractionBits + 1)) := by
          rw [Format.leading_eq_two_pow]
          ring
      _ ≤ 2 ^ widening := Nat.pow_le_pow_right Nat.two_pos hwide
      _ ≤ x.significand * 2 ^ widening := Nat.le_mul_of_pos_left _ (x.significand_pos hzero)
  · have hsquare : (2 : ℚ) ^ widening * (2 ^ d) ^ 2 = 2 ^ x.exponent * 2 ^ f.scale := by
      rw [← zpow_natCast, ← zpow_natCast (2 ^ d), ← zpow_mul, ← zpow_add₀ two_ne_zero, ← pow_add,
        ← zpow_natCast]
      congr 1
      push_cast at heven ⊢
      omega
    rw [value_of_positive hpos, x.size_eq, div_pow, Nat.cast_mul, Nat.cast_pow, Nat.cast_ofNat,
      ← mul_div_assoc, mul_assoc, hsquare]
    field_simp

/-- The root in whole steps, or the half after it, as twice so many halves. -/
theorem doubledRoot_bounds (n : ℕ) :
    let doubled := if n.sqrt * n.sqrt = n then 2 * n.sqrt else 2 * n.sqrt + 1
    (n.sqrt : ℚ) ≤ doubled / 2 ∧ (doubled / 2 : ℚ) ≤ n.sqrt + 1 := by
  intro doubled
  have hlow : n.sqrt * 2 ≤ doubled := by
    unfold doubled
    split_ifs <;> omega
  have hhigh : doubled ≤ (n.sqrt + 1) * 2 := by
    unfold doubled
    split_ifs <;> omega
  rw [le_div_iff₀ two_pos, div_le_iff₀ two_pos]
  exact ⟨by exact_mod_cast hlow, by exact_mod_cast hhigh⟩

/-- **A square root is rounded once**, from a number near the root. -/
theorem sqrt_rounded (hx : x.isFinite = true) (hzero : x.isZero = false)
    (hpos : x.negative = false) : ∃ r, Rounded r x.sqrt ∧ NearRoot x r := by
  unfold sqrt
  rw [isNaN_of_isFinite hx, isInfinite_of_isFinite hx, hzero, hpos]
  simp only [Bool.false_eq_true, if_false]
  generalize hpower : x.exponent + f.scale = power
  generalize hwidening : power % 2 + 2 * (f.fractionBits + 2) = widening
  obtain ⟨d, hd⟩ : ∃ d : ℤ, (power - widening : ℤ) = 2 * d :=
    ⟨(power / 2 : ℕ) - (f.fractionBits + 2), by omega⟩
  obtain ⟨hwide, hvalue⟩ :=
    value_eq_squared_steps hzero hpos widening (hpower ▸ hd) (by omega)
  rw [hd, Int.mul_ediv_cancel_left d two_ne_zero]
  generalize x.significand <<< widening = radicand at hwide hvalue ⊢
  obtain ⟨hlow, hhigh⟩ := doubledRoot_bounds radicand
  generalize (if radicand.sqrt * radicand.sqrt = radicand
    then 2 * radicand.sqrt else 2 * radicand.sqrt + 1) = doubled at hlow hhigh ⊢
  have hstep : (0 : ℚ) < 2 ^ d / 2 ^ f.scale := div_pos (zpow_pos two_pos d) (by positivity)
  have hnonneg : (0 : ℚ) ≤ doubled / 2 * (2 ^ d / 2 ^ f.scale) :=
    mul_nonneg (by positivity) hstep.le
  have hwhole : 2 ≤ doubled := by
    have hroot : (2 * f.leading : ℕ) ≤ (doubled / 2 : ℚ) := le_trans (by exact_mod_cast hwide) hlow
    rw [le_div_iff₀ two_pos] at hroot
    have hleading := f.leading_pos
    have : 2 * f.leading * 2 ≤ doubled := by exact_mod_cast hroot
    omega
  refine ⟨_, rounded_of_signs Nat.two_pos (Or.inr hwhole) ?_ hnonneg,
    nearRoot_of_steps (div_mul_cancel₀ _ (by positivity)) hwide hvalue
      (mul_le_mul_of_nonneg_right hlow hstep.le) (mul_le_mul_of_nonneg_right hhigh hstep.le)⟩
  rw [abs_of_nonneg hnonneg, mul_assoc, div_mul_cancel₀ _ (by positivity), Nat.cast_ofNat]

/-! ## Change of format -/

theorem convert_rounded (hx : x.isFinite = true) : Rounded x.value (x.convert g) := by
  unfold convert
  rw [isNaN_of_isFinite hx, isInfinite_of_isFinite hx]
  simp only [Bool.false_eq_true, if_false]
  refine rounded_of_signs Nat.one_pos (by omega) ?_ ?_
  · rw [abs_value, x.size_eq, zpow_sub₀ two_ne_zero, zpow_add₀ two_ne_zero, zpow_natCast,
      zpow_natCast, zpow_natCast, Nat.cast_one, div_one]
    field_simp
  · have hsize := x.size_nonneg
    unfold value
    cases x.negative <;> simp <;> exact hsize

end ExactNeighbors.Binary
