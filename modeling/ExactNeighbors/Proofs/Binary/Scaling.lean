import ExactNeighbors.Proofs.Binary.Exact
import ExactNeighbors.Proofs.Binary.Sign

set_option autoImplicit false

/-! # Scaling by powers of two

A full significand keeps its bits when the number is multiplied by a power of two, and only the
exponent changes: the magnitude moves by so many binades. Rounding moves along, middles and ties
included (`Format.Rounds.shift`), as long as neither the number nor its multiple is so small that
significands are cut short or so large that they overflow. Under the same condition a rounded sum of
multiples is the multiple of the rounded sum (`Binary.Rounded.scaled`), and the root of a multiple by
an even power is the multiple of the root (`Binary.Scaled.sqrt`). A quotient does not change at all
(`Binary.Scaled.div_eq`). -/

namespace ExactNeighbors

/-! ## Magnitudes -/

namespace Format

variable {f : Format} {x : ℚ} {p q : ℕ}

/-- Moving by binades keeps a full significand. -/
theorem fields_shift (full : f.leading ≤ p) (k : ℕ) :
    f.exponent (p + k * f.leading) = f.exponent p + k ∧
      f.significand (p + k * f.leading) = f.significand p := by
  obtain ⟨⟨hlow, hhigh⟩, hfields⟩ := f.isGrid_fields p
  generalize f.exponent p = e at *
  generalize f.significand p = m at *
  have hfull : f.leading ≤ m := by
    rcases hlow with rfl | h
    · rwa [hfields, Nat.zero_mul, Nat.zero_add] at full
    · exact h
  have hgrid : f.IsGrid (e + k) m := ⟨Or.inr hfull, hhigh⟩
  have hshift : p + k * f.leading = (e + k) * f.leading + m := by
    rw [hfields]
    ring
  rw [hshift]
  exact ⟨hgrid.exponent_eq, hgrid.significand_eq⟩

theorem units_shift (full : f.leading ≤ p) (k : ℕ) :
    f.units (p + k * f.leading) = f.units p * 2 ^ k := by
  obtain ⟨hexponent, hsignificand⟩ := fields_shift full k
  rw [units, units, hexponent, hsignificand, Nat.pow_eq, Nat.pow_eq, pow_add, Nat.mul_assoc]

theorem middle_shift (full : f.leading ≤ p) (k : ℕ) :
    f.middle (p + k * f.leading) = f.middle p * 2 ^ k := by
  rw [middle, middle, Nat.add_right_comm, units_shift full, units_shift (Nat.le_succ_of_le full)]
  push_cast
  ring

theorem passed_shift_iff (full : f.leading ≤ q) (k : ℕ) :
    f.Passed (q + k * f.leading) (x * 2 ^ k) ↔ f.Passed q x := by
  have hpow : (0 : ℚ) < 2 ^ k := by positivity
  rw [Passed, Passed, middle_shift full, (fields_shift full k).2, mul_lt_mul_iff_of_pos_right hpow,
    mul_left_inj' hpow.ne']

/-- What is large enough for a full significand is rounded to one. -/
theorem Rounds.full [f.Regular] (h : f.Rounds x p) (full : f.leading ≤ x) : f.leading ≤ p :=
  h.le_of_units_le f.leading_le_infinity (by rwa [units_leading])

/-- **Rounding moves with the number.** -/
theorem Rounds.shift [f.Regular] (h : f.Rounds x p) (full : f.leading ≤ x) (k : ℕ) :
    f.Rounds (x * 2 ^ k) (min (p + k * f.leading) f.infinity) where
  le_infinity := Nat.min_le_right _ _
  lt_iff q hq := by
    have hp := h.full full
    have hmin : q < min (p + k * f.leading) f.infinity ↔ q < p + k * f.leading := by
      rw [Nat.lt_min]
      exact and_iff_left hq
    rw [hmin]
    rcases Nat.lt_or_ge q (f.leading + k * f.leading) with hsmall | hlarge
    · -- Here significands are full only after the move.
      have hunits : (f.units (q + 1) : ℚ) ≤ x * 2 ^ k := by
        have hmono := f.units_strictMono.monotone (Nat.succ_le_of_lt hsmall)
        rw [units_shift le_rfl, units_leading] at hmono
        calc (f.units (q + 1) : ℚ) ≤ f.leading * 2 ^ k := by exact_mod_cast hmono
          _ ≤ x * 2 ^ k := by gcongr
      exact iff_of_true (by omega) (Or.inl ((f.middle_lt_units q).trans_le hunits))
    · obtain ⟨j, hj, rfl⟩ : ∃ j, f.leading ≤ j ∧ q = j + k * f.leading :=
        ⟨q - k * f.leading, by omega, by omega⟩
      rw [passed_shift_iff hj, Nat.add_lt_add_iff_right]
      exact h.lt_iff j (by omega)

end Format

/-! ## Numbers -/

namespace Binary

variable {f : Format} {x y z z' : Binary f} {r : ℚ} {e : ℤ}

/-- Finite numbers of which one has the value of the other times two to the `e`. -/
structure Scaled (e : ℤ) (x y : Binary f) : Prop where
  left : x.isFinite = true
  right : y.isFinite = true
  value_eq : y.value = x.value * 2 ^ e

theorem Scaled.symm (h : Scaled e x y) : Scaled (-e) y x where
  left := h.right
  right := h.left
  value_eq := by
    rw [h.value_eq, mul_assoc, ← zpow_add₀ two_ne_zero, add_neg_cancel, zpow_zero, mul_one]

theorem Scaled.of_units {k : ℕ} (hx : x.isFinite = true) (hy : y.isFinite = true)
    (hsign : x.negative = y.negative)
    (hunits : f.units y.magnitude = f.units x.magnitude * 2 ^ k) : Scaled k x y where
  left := hx
  right := hy
  value_eq := by
    have hsize : y.size = x.size * 2 ^ k := by
      rw [size, size, hunits]
      push_cast
      ring
    rw [value, value, hsign, hsize, zpow_natCast]
    split <;> ring

section Rounding

variable [f.Regular]

theorem Rounded.value_mul_two_pow {k : ℕ} (h : Rounded r z) (h' : Rounded (r * 2 ^ k) z')
    (hz' : z'.isFinite = true) (full : f.leading ≤ r * 2 ^ f.scale) :
    z'.value = z.value * 2 ^ k := by
  have hscale : (0 : ℚ) < 2 ^ f.scale := by positivity
  have hleading : (0 : ℚ) < f.leading := by exact_mod_cast f.leading_pos
  have hr : 0 < r := pos_of_mul_pos_left (hleading.trans_le full) hscale.le
  have hr' : 0 < r * 2 ^ k := by positivity
  have hrounds := h.rounds
  have hrounds' := h'.rounds
  rw [abs_of_pos hr] at hrounds
  rw [abs_of_pos hr', mul_right_comm] at hrounds'
  have hmagnitude : z'.magnitude = z.magnitude + k * f.leading := by
    have hmin := hrounds'.unique (hrounds.shift full k)
    have hfinite : z'.magnitude < f.infinity := of_decide_eq_true hz'
    omega
  rw [value_of_positive (h.positive hr), value_of_positive (h'.positive hr'), size, size, hmagnitude,
    Format.units_shift (hrounds.full full)]
  push_cast
  ring

/-- **A rounded result moves with the exact one**, if both are zero or have full significands. -/
theorem Rounded.scaled (h : Rounded r z) (h' : Rounded (r * 2 ^ e) z') (hz : z.isFinite = true)
    (hz' : z'.isFinite = true)
    (full : r = 0 ∨ f.leading ≤ r * 2 ^ f.scale ∧ f.leading ≤ r * 2 ^ e * 2 ^ f.scale) :
    Scaled e z z' := by
  refine ⟨hz, hz', ?_⟩
  rcases full with rfl | ⟨hfull, hfull'⟩
  · have hzero {z : Binary f} (h : Rounded 0 z) : z.value = 0 :=
      h.value_eq (c := zero false) (Nat.zero_le _) (value_zero false)
    rw [zero_mul] at h'
    rw [hzero h, hzero h', zero_mul]
  · obtain ⟨k, rfl | rfl⟩ := e.eq_nat_or_neg
    · rw [zpow_natCast] at h' ⊢
      exact h.value_mul_two_pow h' hz' hfull
    · have hcancel : (2 : ℚ) ^ (-(k : ℤ)) * 2 ^ k = 1 := by
        rw [zpow_neg, zpow_natCast, inv_mul_cancel₀ (by positivity)]
      have hback : Rounded (r * 2 ^ (-(k : ℤ)) * 2 ^ k) z := by rwa [mul_assoc, hcancel, mul_one]
      rw [h'.value_mul_two_pow hback hz hfull', mul_assoc, mul_comm (2 ^ k), hcancel, mul_one]

end Rounding

/-! ## Square roots -/

theorem Scaled.size_eq (h : Scaled e x y) : y.size = x.size * 2 ^ e := by
  rw [← abs_value, h.value_eq, abs_mul, abs_value, abs_of_pos (zpow_pos two_pos e)]

/-- A full significand is that of every multiple. -/
theorem Scaled.fields (h : Scaled e x y) (hx : f.leading ≤ x.magnitude)
    (hy : f.leading ≤ y.magnitude) :
    y.significand = x.significand ∧ (y.exponent : ℤ) = x.exponent + e := by
  have hnat {x y : Binary f} {k : ℕ} (h : Scaled k x y) (hx : f.leading ≤ x.magnitude) :
      y.significand = x.significand ∧ y.exponent = x.exponent + k := by
    have hunits : (f.units y.magnitude : ℚ) = f.units x.magnitude * 2 ^ k := by
      have hsize := h.size_eq
      rw [size, size, zpow_natCast] at hsize
      field_simp at hsize
      exact hsize
    have hmagnitude : y.magnitude = x.magnitude + k * f.leading := by
      refine f.units_strictMono.injective ?_
      rw [Format.units_shift hx]
      exact_mod_cast hunits
    obtain ⟨hexponent, hsignificand⟩ := Format.fields_shift hx k
    rw [significand, exponent, hmagnitude]
    exact ⟨hsignificand, hexponent⟩
  obtain ⟨k, rfl | rfl⟩ := e.eq_nat_or_neg
  · obtain ⟨hsignificand, hexponent⟩ := hnat h hx
    exact ⟨hsignificand, by omega⟩
  · obtain ⟨hsignificand, hexponent⟩ := hnat (by simpa using h.symm) hy
    exact ⟨hsignificand.symm, by omega⟩

/-- The root of a positive number, read off the definition. -/
theorem sqrt_eq_round (hx : x.isFinite = true) (hzero : x.isZero = false) (hpos : x.negative = false)
    {power widening radicand doubled : ℕ} (hpower : power = x.exponent + f.scale)
    (hwidening : widening = power % 2 + 2 * (f.fractionBits + 2))
    (hradicand : radicand = x.significand <<< widening)
    (hdoubled : doubled = if radicand.sqrt * radicand.sqrt = radicand
      then 2 * radicand.sqrt else 2 * radicand.sqrt + 1) :
    x.sqrt = round false doubled 2 ((power - widening : ℤ) / 2) := by
  unfold sqrt
  rw [isNaN_of_isFinite hx, isInfinite_of_isFinite hx, hzero, hpos]
  simp only [Bool.false_eq_true, if_false]
  rw [hdoubled, hradicand, hwidening, hpower]

/-- So many halves, with more bits than a significand, at two exponents. -/
theorem scaled_round_halves [f.Regular] {doubled d d' : ℕ} (hd : (d' : ℤ) = d + e)
    (wide : 4 * f.leading ≤ doubled) (hz : (round false doubled 2 d : Binary f).isFinite = true)
    (hz' : (round false doubled 2 d' : Binary f).isFinite = true) :
    Scaled e (round false doubled 2 d : Binary f) (round false doubled 2 d') := by
  have hleading := f.leading_pos
  have hscale : (0 : ℚ) < 2 ^ f.scale := by positivity
  have hrounded (n : ℕ) :
      Rounded (doubled / 2 * 2 ^ n / 2 ^ f.scale) (round false doubled 2 n : Binary f) := by
    have hnonneg : (0 : ℚ) ≤ doubled / 2 * 2 ^ n / 2 ^ f.scale := by positivity
    refine rounded_of_signs Nat.two_pos (Or.inr (by omega)) ?_ hnonneg
    rw [abs_of_nonneg hnonneg, div_mul_cancel₀ _ hscale.ne', zpow_natCast, Nat.cast_ofNat]
  have hfull (n : ℕ) : (f.leading : ℚ) ≤ doubled / 2 * 2 ^ n / 2 ^ f.scale * 2 ^ f.scale := by
    have hwide : (f.leading : ℚ) ≤ doubled / 2 := by
      rw [le_div_iff₀ two_pos]
      exact_mod_cast (show f.leading * 2 ≤ doubled by omega)
    rw [div_mul_cancel₀ _ hscale.ne']
    exact hwide.trans (le_mul_of_one_le_right (by positivity) (one_le_pow₀ one_le_two))
  have hmultiple : (doubled / 2 * 2 ^ d' / 2 ^ f.scale : ℚ) =
      doubled / 2 * 2 ^ d / 2 ^ f.scale * 2 ^ e := by
    have hpow : (2 : ℚ) ^ d' = 2 ^ d * 2 ^ e := by
      rw [← zpow_natCast, ← zpow_natCast, ← zpow_add₀ two_ne_zero, hd]
    rw [hpow]
    ring
  have hnext := hrounded d'
  have hnextfull := hfull d'
  rw [hmultiple] at hnext hnextfull
  exact (hrounded d).scaled hnext hz hz' (Or.inr ⟨hfull d, hnextfull⟩)

/-- **The root of a multiple by an even power is a multiple of the root.** -/
theorem Scaled.sqrt [f.Regular] (h : Scaled (2 * e) x y) (hx : f.leading ≤ x.magnitude)
    (hy : f.leading ≤ y.magnitude) (hxpos : x.negative = false) (hypos : y.negative = false)
    (hxroot : x.sqrt.isFinite = true) (hyroot : y.sqrt.isFinite = true)
    (wide : 2 * (f.fractionBits + 2) + 1 ≤ f.scale) : Scaled e x.sqrt y.sqrt := by
  obtain ⟨hsignificand, hexponent⟩ := h.fields hx hy
  have hleading := f.leading_pos
  have hnonzero {x : Binary f} (h : f.leading ≤ x.magnitude) : x.isZero = false :=
    decide_eq_false (by omega)
  -- Powers that differ by an even number are widened alike.
  generalize hpower : x.exponent + f.scale = power
  generalize hpower' : y.exponent + f.scale = power'
  generalize hwidening : power % 2 + 2 * (f.fractionBits + 2) = widening
  have hwidening' : widening = power' % 2 + 2 * (f.fractionBits + 2) := by omega
  generalize hradicand : x.significand <<< widening = radicand
  have hradicand' : radicand = y.significand <<< widening := by rw [hsignificand, hradicand]
  generalize hdoubled : (if radicand.sqrt * radicand.sqrt = radicand
    then 2 * radicand.sqrt else 2 * radicand.sqrt + 1) = doubled
  have hroot := sqrt_eq_round h.left (hnonzero hx) hxpos hpower.symm hwidening.symm hradicand.symm
    hdoubled.symm
  have hroot' := sqrt_eq_round h.right (hnonzero hy) hypos hpower'.symm hwidening' hradicand'
    hdoubled.symm
  obtain ⟨d, hd⟩ : ∃ d : ℕ, (power - widening : ℤ) = 2 * d :=
    ⟨power / 2 - (f.fractionBits + 2), by omega⟩
  obtain ⟨d', hd'⟩ : ∃ d' : ℕ, (power' - widening : ℤ) = 2 * d' :=
    ⟨power' / 2 - (f.fractionBits + 2), by omega⟩
  rw [hd, Int.mul_ediv_cancel_left _ two_ne_zero] at hroot
  rw [hd', Int.mul_ediv_cancel_left _ two_ne_zero] at hroot'
  have hwide : 4 * f.leading ≤ doubled := by
    have hlow := (value_eq_squared_steps (hnonzero hx) hxpos widening (hpower ▸ hd) (by omega)).1
    rw [hradicand] at hlow
    split_ifs at hdoubled <;> omega
  rw [hroot] at hxroot ⊢
  rw [hroot'] at hyroot ⊢
  exact scaled_round_halves (by omega) hwide hxroot hyroot

/-! ## Quotients -/

/-- **A quotient does not notice what dividend and divisor are both scaled by.** -/
theorem Scaled.div_eq {n m : Binary f} (hx : Scaled e x y) (hn : Scaled e n m)
    (hxsign : x.negative = y.negative) (hnsign : n.negative = m.negative) (hnzero : n.isZero = false)
    (hmzero : m.isZero = false) : x / n = y / m := by
  have hquotient := (div_rounded hx.left hn.left hnzero).rounds
  have hquotient' := (div_rounded hx.right hn.right hmzero).rounds
  rw [hx.value_eq, hn.value_eq, mul_div_mul_right _ _ (zpow_pos two_pos e).ne'] at hquotient'
  refine eq_of_magnitude_eq (hquotient.unique hquotient') ?_
  rw [negative_div hx.left hn.left hnzero, negative_div hx.right hn.right hmzero, hxsign, hnsign]

end Binary

end ExactNeighbors
