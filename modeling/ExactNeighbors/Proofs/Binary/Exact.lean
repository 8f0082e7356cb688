import ExactNeighbors.Proofs.Binary.Arithmetic

set_option autoImplicit false

/-! # Results that need no rounding

A whole number of powers of two is on the grid if it has no more bits than a significand and lies
within the range (`Binary.exists_value_eq`), and what is on the grid is its own rounding. So the
number one is exact, a component is exact as a double, and so is the product of two components. -/

namespace ExactNeighbors

theorem Format.exists_units_eq (f : Format) {m : ℕ} (hm : m ≤ 2 * f.leading) (t : ℕ) :
    ∃ p, f.units p = m * 2 ^ t := by
  induction t generalizing m with
  | zero =>
      refine ⟨m, ?_⟩
      have h := units_grid (f := f) (e := 0) (Or.inl rfl) hm
      rwa [Nat.zero_mul, Nat.zero_add] at h
  | succ t ih =>
      rcases Nat.lt_or_ge m f.leading with hsmall | hlarge
      · obtain ⟨p, hp⟩ := ih (show 2 * m ≤ 2 * f.leading by omega)
        exact ⟨p, hp.trans (by ring)⟩
      · exact ⟨_, units_grid (Or.inr hlarge) hm⟩

namespace Binary

variable {f : Format} {z c : Binary f} {r : ℚ}

/-! ## Numbers on the grid -/

/-- What is a number needs no rounding. -/
theorem Rounded.value_eq (h : Rounded r z) (hc : c.magnitude ≤ f.infinity) (hr : c.value = r) :
    z.value = r := by
  refine le_antisymm ?_ ?_
  · exact hr ▸ h.value_le hc hr.ge
  · exact hr ▸ h.le_value hc hr.le

/-- Short multiples of a power of two within the range are numbers. -/
theorem exists_value_eq [f.Regular] {m t k : ℕ} (hr : |r| * 2 ^ f.scale = m * 2 ^ t)
    (hm : m ≤ 2 * f.leading) (hk : k < f.range) (hbound : |r| ≤ 2 ^ k) :
    ∃ c : Binary f, c.isFinite = true ∧ c.value = r := by
  obtain ⟨p, hp⟩ := f.exists_units_eq hm t
  have hunits : (f.units p : ℚ) = |r| * 2 ^ f.scale := by
    rw [hr, hp]
    push_cast
    rfl
  have hfinite : p < f.infinity := by
    rw [← f.units_strictMono.lt_iff_lt, f.units_infinity]
    have hpow : (f.units p : ℚ) < 2 ^ (f.scale + f.range) := by
      calc (f.units p : ℚ) ≤ 2 ^ k * 2 ^ f.scale := by rw [hunits]; gcongr
        _ = 2 ^ (f.scale + k) := by ring
        _ < 2 ^ (f.scale + f.range) := pow_lt_pow_right₀ one_lt_two (by omega)
    exact_mod_cast hpow
  refine ⟨⟨r < 0, p, hfinite.trans f.infinity_lt_span⟩, decide_eq_true hfinite, ?_⟩
  have hsize : size (⟨r < 0, p, hfinite.trans f.infinity_lt_span⟩ : Binary f) = |r| := by
    rw [size, hunits, mul_div_cancel_right₀ _ (by positivity)]
  rw [value, hsize]
  split
  · next hneg => rw [abs_of_neg (of_decide_eq_true hneg), neg_neg]
  · next hpos => exact abs_of_nonneg (not_lt.1 fun hneg => hpos (decide_eq_true hneg))

/-- A short multiple of a power of two is its own rounding. -/
theorem Rounded.exact [f.Regular] (h : Rounded r z) {m t k : ℕ}
    (hr : |r| * 2 ^ f.scale = m * 2 ^ t) (hm : m ≤ 2 * f.leading) (hk : k < f.range)
    (hbound : |r| ≤ 2 ^ k) : z.isFinite = true ∧ z.value = r := by
  obtain ⟨c, hfinite, hc⟩ := exists_value_eq hr hm hk hbound
  have hvalue := h.value_eq (magnitude_le_of_isFinite hfinite) hc
  exact ⟨isFinite_of_abs_value_le h.magnitude_le hk (hvalue ▸ hbound), hvalue⟩

/-! ## One -/

theorem ofNat_rounded (n : ℕ) : Rounded n (ofNat n : Binary f) := by
  refine rounded_of_signs Nat.one_pos (by omega) ?_ (Nat.cast_nonneg n)
  rw [Nat.abs_cast, Nat.cast_one, div_one, zpow_natCast]

theorem one_exact [f.Regular] : (one : Binary f).isFinite = true ∧ (one : Binary f).value = 1 := by
  have hone := ofNat_rounded (f := f) 1
  rw [Nat.cast_one] at hone
  have hleading := f.leading_pos
  exact hone.exact (m := 1) (k := 0) (by rw [abs_one, one_mul, Nat.cast_one, one_mul]) (by omega)
    (Nat.two_pow_pos _) (by rw [abs_one, pow_zero])

end Binary

/-! ## Components as doubles -/

namespace Single

variable {x y : Single}

theorem abs_value_le (hx : x.isFinite = true) : |x.value| ≤ 2 ^ 128 :=
  (Binary.abs_value_lt_of_isFinite hx).le

/-- A component is exact as a double. -/
theorem widen_exact (hx : x.isFinite = true) :
    x.widen.isFinite = true ∧ x.widen.value = x.value := by
  obtain ⟨d, hscale⟩ : ∃ d, Format.double.scale = Format.single.scale + d := ⟨925, rfl⟩
  have hbits : 2 * Format.single.leading ≤ 2 * Format.double.leading := by decide
  refine (Binary.convert_rounded hx).exact (m := x.significand) (t := x.exponent + d) (k := 128) ?_
    (x.significand_lt.le.trans hbits) (by decide) (abs_value_le hx)
  rw [Binary.abs_value, hscale, pow_add, ← mul_assoc, x.size_mul_scale]
  ring

/-- The product of two components is exact as a double. -/
theorem widen_mul_exact (hx : x.isFinite = true) (hy : y.isFinite = true) :
    (x.widen * y.widen).isFinite = true ∧ (x.widen * y.widen).value = x.value * y.value := by
  obtain ⟨hxfinite, hxvalue⟩ := widen_exact hx
  obtain ⟨hyfinite, hyvalue⟩ := widen_exact hy
  have hmul := Binary.mul_rounded hxfinite hyfinite
  rw [hxvalue, hyvalue] at hmul
  obtain ⟨d, hscale⟩ : ∃ d, Format.double.scale = Format.single.scale + Format.single.scale + d :=
    ⟨776, rfl⟩
  have hbits : 2 * Format.single.leading * (2 * Format.single.leading) ≤
      2 * Format.double.leading := by
    decide
  refine hmul.exact (m := x.significand * y.significand) (t := x.exponent + y.exponent + d)
    (k := 128 + 128) ?_ ((Nat.mul_le_mul x.significand_lt.le y.significand_lt.le).trans hbits)
    (by decide) ?_
  · rw [abs_mul, Binary.abs_value, Binary.abs_value, hscale]
    calc x.size * y.size * 2 ^ (Format.single.scale + Format.single.scale + d) =
          (x.size * 2 ^ Format.single.scale) * (y.size * 2 ^ Format.single.scale) * 2 ^ d := by
            ring
      _ = (x.significand * 2 ^ x.exponent) * (y.significand * 2 ^ y.exponent) * 2 ^ d := by
        rw [x.size_mul_scale, y.size_mul_scale]
      _ = (x.significand * y.significand : ℕ) * 2 ^ (x.exponent + y.exponent + d) := by
        push_cast
        ring
  · rw [abs_mul, pow_add]
    exact mul_le_mul (abs_value_le hx) (abs_value_le hy) (abs_nonneg _) (by positivity)

end Single

end ExactNeighbors
