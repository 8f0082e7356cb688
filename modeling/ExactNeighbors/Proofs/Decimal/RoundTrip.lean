import ExactNeighbors.Proofs.Binary.Sign
import ExactNeighbors.Proofs.Decimal.CloseCalls
import ExactNeighbors.Proofs.Decimal.Reading

set_option autoImplicit false

/-! # The shortest decimal reads back

A component is read through a double, so the decimal that is written for it is rounded twice, and what
is read first has an error besides. None of this matters as long as the double is on the same side of
the middles as the decimal. It is if the decimal is farther from them than the error is large. If it
is a middle, then its power of ten is small, and the double is the decimal. What remains are three
decimals, which are read to see. -/

namespace ExactNeighbors.Decimal

variable {p q : ℕ} {d : Decimal}

/-- The number that a decimal is. -/
def value (d : Decimal) : ℚ := d.coefficient * 10 ^ d.exponent

theorem coefficient_mul_gridStep (f : Format) (d : Decimal) :
    d.coefficient * gridStep f d.exponent = d.value * 2 ^ (f.scale + 1) := by
  rw [gridStep, value, mul_assoc]

/-! ## The middles on either side -/

/-- A middle beside a number is half a step away. -/
theorem abs_middle_sub_units (f : Format) (hq : q = p ∨ q + 1 = p) :
    |2 * f.middle q - 2 * f.units p| = 2 ^ f.exponent q := by
  rcases hq with rfl | rfl
  · have h := f.middle_sub_units q
    rw [← mul_sub, h, mul_div_cancel₀ _ two_ne_zero]
    exact abs_of_pos (by positivity)
  · have h := f.units_succ_sub_middle q
    rw [abs_sub_comm, ← mul_sub, h, mul_div_cancel₀ _ two_ne_zero]
    exact abs_of_pos (by positivity)

theorem significand_lt (p : ℕ) : Format.single.significand p < 2 ^ 24 :=
  (Format.single.isGrid_fields p).1.high.trans_eq rfl

/-! ## Decimals that are middles -/

theorem five_pow_le {n m j : ℕ} (hm : 0 < m) (h : 5 ^ n ∣ m * 2 ^ j) : 5 ^ n ≤ m := by
  have hcoprime : Nat.Coprime (5 ^ n) (2 ^ j) := Nat.Coprime.pow n j (by decide)
  exact Nat.le_of_dvd hm (hcoprime.dvd_of_dvd_mul_right h)

/-- Fives divide either side, so a power of ten is small if both sides are. -/
theorem natAbs_le_of_middle {c m e : ℕ} {k : ℤ} (hc : 0 < c) (hc' : c < 2 ^ 29) (hm : 0 < m)
    (hm' : m < 2 ^ 25) (heq : (c * 10 ^ k * 2 ^ 150 : ℚ) = m * 2 ^ e) : k.natAbs ≤ 22 := by
  by_contra hlarge
  have hten : 10 ^ k.natAbs = 5 ^ k.natAbs * 2 ^ k.natAbs := by rw [← Nat.mul_pow]
  have hfive : 5 ^ 23 ≤ 5 ^ k.natAbs := Nat.pow_le_pow_right (by decide) (by omega)
  rcases le_or_gt 0 k with hk | hk
  · rw [Numeral.ten_zpow_of_nonneg hk] at heq
    have hnat : c * 10 ^ k.natAbs * 2 ^ 150 = m * 2 ^ e := by exact_mod_cast heq
    have hle : 5 ^ k.natAbs ≤ m := five_pow_le hm <| by
      rw [← hnat, hten]
      exact ⟨c * 2 ^ k.natAbs * 2 ^ 150, by ring⟩
    omega
  · rw [Numeral.ten_zpow_of_neg hk, mul_right_comm, mul_inv_eq_iff_eq_mul₀ (by positivity)] at heq
    have hnat : c * 2 ^ 150 = m * 2 ^ e * 10 ^ k.natAbs := by exact_mod_cast heq
    have hle : 5 ^ k.natAbs ≤ c := five_pow_le hc <| by
      rw [hnat, hten]
      exact ⟨m * 2 ^ e * 2 ^ k.natAbs, by ring⟩
    omega

section Single

variable (h : ShortestIn .single (.of .single p) d) (hp : 0 < p)
  (hfinite : p < Format.single.infinity)

include h hp

theorem ShortestIn.value_pos : 0 < d.value :=
  mul_pos (Nat.cast_pos.2 (h.coefficient_pos hp)) (zpow_pos (by norm_num) _)

theorem ShortestIn.coefficient_lt : d.coefficient < 2 ^ 29 := by
  have hle := h.coefficient_le hp
  have hsignificand := significand_lt p
  omega

include hfinite

theorem ShortestIn.exponent_mem : -45 ≤ d.exponent ∧ d.exponent ≤ 38 := by
  obtain ⟨hlow, hhigh⟩ := h.exponent_bounds hp hfinite
  have hscale : Format.single.scale + 1 = 150 := rfl
  have hrange : Format.single.range = 128 := rfl
  rw [hscale] at hlow
  rw [hrange] at hhigh
  constructor
  · by_contra hlt
    have hle : (10 : ℚ) ^ (d.exponent + 1) ≤ 10 ^ (-45 : ℤ) :=
      zpow_le_zpow_right₀ (by norm_num) (by omega)
    have hsmall : (10 : ℚ) ^ (-45 : ℤ) * 2 ^ 150 < 2 := by norm_num
    linarith
  · by_contra hlt
    have hle : (10 : ℚ) ^ (39 : ℤ) ≤ 10 ^ d.exponent :=
      zpow_le_zpow_right₀ (by norm_num) (by omega)
    have hlarge : (2 : ℚ) ^ 128 < 10 ^ (39 : ℤ) := by norm_num
    linarith

/-- The decimal itself is rounded to the number. -/
theorem ShortestIn.rounds_value : Format.single.Rounds (d.value * 2 ^ Format.single.scale) p := by
  refine rounds_of_contains hp hfinite ?_
  have hcontains := h.contains
  rwa [coefficient_mul_gridStep, pow_succ', mul_left_comm] at hcontains

/-- **A decimal that is close to a middle beside its number** is the middle or one of those listed. -/
theorem ShortestIn.eq_middle_or_mem (hq : q = p ∨ q + 1 = p)
    (hclose : |d.value * 2 ^ 150 - 2 * Format.single.middle q| * 2 ^ 54 ≤
      5 * (d.value * 2 ^ 150)) :
    d.value * 2 ^ 150 = 2 * Format.single.middle q ∨ d ∈ closeCalls := by
  have hscale : Format.single.scale + 1 = 150 := rfl
  have hvalue := coefficient_mul_gridStep .single d
  rw [hscale] at hvalue
  -- A step of the number is hardly longer than one of the decimal's grid.
  have hstep : (2 : ℚ) ^ Format.single.exponent q * (2 ^ 24 - margin) ≤
      gridStep .single d.exponent * 2 ^ 24 := by
    have hnear := h.near
    have hunits : ((ReadBack.of .single p).value : ℚ) = 2 * Format.single.units p :=
      Nat.cast_mul _ _
    have hcoefficient : (d.coefficient : ℚ) ≤ 2 ^ 29 := by exact_mod_cast (h.coefficient_lt hp).le
    have hgrid := gridStep_pos .single d.exponent
    have hle := mul_le_mul_of_nonneg_right hcoefficient hgrid.le
    have hdistance := abs_sub_le (2 * Format.single.middle q) (d.value * 2 ^ 150)
      (2 * Format.single.units p)
    rw [hvalue] at hnear hle
    rw [hunits] at hnear
    rw [abs_middle_sub_units .single hq, abs_sub_comm (2 * Format.single.middle q)] at hdistance
    have hmargin : (margin : ℚ) = 5 := rfl
    rw [hmargin]
    clear hvalue
    generalize d.value * 2 ^ 150 = v at *
    linarith
  have hsignificand : 2 * Format.single.significand q + 1 < 2 ^ 25 := by
    have hlt := significand_lt q
    omega
  rw [Format.two_mul_middle, ← hvalue] at hclose ⊢
  have hcases := eq_or_mem_closeCalls (h.exponent_mem hp hfinite) (h.coefficient_pos hp)
    hsignificand (by omega) hstep
  push_cast at hcases
  exact hcases hclose

/-- **A decimal that is a middle is exact as a double.** -/
theorem ShortestIn.value_eq_of_middle {y : Double}
    (hexact : d.exponent.natAbs ≤ 22 → Binary.Rounded d.value y)
    (heq : d.value * 2 ^ 150 = 2 * Format.single.middle q) : y.value = d.value := by
  have hsignificand := significand_lt q
  rw [Format.two_mul_middle] at heq
  have hexponent : d.exponent.natAbs ≤ 22 :=
    natAbs_le_of_middle (h.coefficient_pos hp) (h.coefficient_lt hp) (Nat.succ_pos _)
      (m := 2 * Format.single.significand q + 1) (by omega) (by exact_mod_cast heq)
  obtain ⟨j, hscale⟩ : ∃ j, Format.double.scale = 150 + j := ⟨924, rfl⟩
  have hpos := h.value_pos hp
  refine ((hexact hexponent).exact (m := 2 * Format.single.significand q + 1)
    (t := Format.single.exponent q + j) (k := 128) ?_ ?_ (by decide) ?_).2
  · rw [abs_of_pos hpos, hscale, pow_add, ← mul_assoc, heq, pow_add]
    push_cast
    ring
  · have hleading : 2 * Format.double.leading = 2 ^ 53 := rfl
    omega
  · have hrange := h.le_range hfinite
    rw [coefficient_mul_gridStep] at hrange
    rw [abs_of_pos hpos]
    exact le_of_mul_le_mul_right hrange (by positivity)

/-- What is read closely has passed the same middles beside the number. -/
theorem ShortestIn.passed_iff {y : Double} (hy : Numeral.Reads d.value y)
    (hexact : d.exponent.natAbs ≤ 22 → Binary.Rounded d.value y) (hd : d ∉ closeCalls)
    (hq : q = p ∨ q + 1 = p) :
    Format.single.Passed q (y.value * 2 ^ Format.single.scale) ↔
      Format.single.Passed q (d.value * 2 ^ Format.single.scale) := by
  by_cases hclose : |d.value * 2 ^ 150 - 2 * Format.single.middle q| * 2 ^ 54 ≤
      5 * (d.value * 2 ^ 150)
  · have hmiddle := (h.eq_middle_or_mem hp hfinite hq hclose).resolve_right hd
    rw [h.value_eq_of_middle hp hfinite hexact hmiddle]
  · have hscale : Format.single.scale = 149 := rfl
    refine Format.passed_iff_of_near ?_
    rw [hscale, ← sub_mul, abs_mul, abs_of_pos (show (0 : ℚ) < 2 ^ 149 by positivity)]
    have hhalf : |d.value * 2 ^ 150 - 2 * Format.single.middle q| =
        2 * |d.value * 2 ^ 149 - Format.single.middle q| := by
      rw [← abs_two (α := ℚ), ← abs_mul, abs_two, mul_sub, pow_succ', mul_left_comm]
    rw [hhalf] at hclose
    have hnear := hy.near
    generalize |d.value * 2 ^ 149 - Format.single.middle q| = distance at *
    linarith

/-- **What is read closely is rounded to the number**, if the decimal is not one of those listed. -/
theorem ShortestIn.magnitude_narrow {y : Double} (hy : Numeral.Reads d.value y)
    (hexact : d.exponent.natAbs ≤ 22 → Binary.Rounded d.value y) (hd : d ∉ closeCalls) :
    y.narrow.magnitude = p := by
  have hnarrow := (Binary.convert_rounded (g := .single) hy.finite).rounds
  rw [abs_of_pos hy.pos] at hnarrow
  have hrounds := h.rounds_value hp hfinite
  refine hnarrow.unique (Format.rounds_of_middles hfinite.le ?_ ?_)
  · rintro q rfl
    exact (h.passed_iff hp hfinite hy hexact hd (.inr rfl)).2
      ((hrounds.lt_iff q (q.lt_succ_self.trans hfinite)).1 q.lt_succ_self)
  · intro _
    exact mt (h.passed_iff hp hfinite hy hexact hd (.inl rfl)).1
      (mt (hrounds.lt_iff p hfinite).2 (lt_irrefl p))

end Single

/-! ## The decimals that are close -/

/-- The nearest number is the decimal rounded once. -/
theorem nearest_rounded (f : Format) (d : Decimal) : Binary.Rounded d.value (d.nearest f false) := by
  rw [nearest, ratio]
  dsimp only
  have hden : 0 < Nat.pow 10 (-d.exponent).toNat := Nat.pow_pos (by decide)
  have hratio : d.value = (d.coefficient * Nat.pow 10 d.exponent.toNat : ℕ) /
      (Nat.pow 10 (-d.exponent).toNat : ℕ) := by
    rw [value, ten_zpow_eq]
    push_cast [Nat.pow_eq]
    ring
  generalize d.coefficient * Nat.pow 10 d.exponent.toNat = num at *
  generalize Nat.pow 10 (-d.exponent).toNat = den at *
  have hnonneg : 0 ≤ d.value := hratio ▸ by positivity
  refine Binary.rounded_of_signs hden ?_ ?_ hnonneg
  · rcases Nat.eq_zero_or_pos num with hnum | hnum
    · exact .inl (by rw [hnum, Nat.zero_shiftLeft])
    · refine .inr ?_
      rw [Nat.shiftLeft_eq]
      exact Nat.lt_log2_self.le.trans (Nat.le_mul_of_pos_left _ hnum)
  · generalize den.log2 + 1 = widening
    rw [abs_of_nonneg hnonneg, hratio, Nat.shiftLeft_eq, zpow_sub₀ two_ne_zero, zpow_natCast,
      zpow_natCast]
    push_cast
    field_simp

/-- The close ones too are read as if they were rounded once. -/
theorem narrow_of_mem_closeCalls :
    ∀ d ∈ closeCalls, d.exponent < 0 ∧
      (.ofNat d.coefficient / Numeral.tenTo d.exponent.natAbs : Double).narrow =
        d.nearest .single false := by
  decide +kernel

/-! ## Reading what was written -/

/-- A coefficient and a power of ten with which the decimal may be given: its own, or those with one
    place more for a whole number. -/
inductive Given (d : Decimal) : ℕ → ℤ → Prop
  | self : Given d d.coefficient d.exponent
  | whole (h : 0 ≤ d.exponent) : Given d (d.coefficient * 10 ^ (d.exponent.toNat + 1)) (-1)

theorem Given.value_eq {c : ℕ} {k : ℤ} (h : Given d c k) : c * 10 ^ k = d.value := by
  cases h with
  | self => rfl
  | whole hk =>
      rw [value, ten_zpow_eq d.exponent, Int.toNat_of_nonpos (neg_nonpos.2 hk), zpow_neg_one]
      push_cast
      rw [pow_succ, ← mul_assoc, mul_inv_cancel_right₀ (by norm_num), pow_zero, div_one]

/-- **The shortest decimal of a number is read as the number**, in whichever way it is given. -/
theorem ShortestIn.exists_narrow (h : ShortestIn .single (.of .single p) d) (hp : 0 < p)
    (hfinite : p < Format.single.infinity) {c : ℕ} {k : ℤ} (given : Given d c k)
    (short : c ≤ 2 ^ 53) :
    ∃ y, Numeral.timesTenTo (.ofNat c) k = some y ∧ 0 < y.value ∧ y.isFinite = true ∧
      y.narrow.magnitude = p := by
  have hpos := h.value_pos hp
  have hexponent := h.exponent_mem hp hfinite
  have hc : 0 < c := by
    refine Nat.pos_of_ne_zero fun hzero => ?_
    have hvalue := given.value_eq
    rw [hzero, Nat.cast_zero, zero_mul] at hvalue
    exact hpos.ne hvalue
  obtain ⟨y, hy, hreads, hexact⟩ := Numeral.exists_reads (e := k) hc short <| by
    cases given <;> omega
  rw [given.value_eq] at hreads hexact
  refine ⟨y, hy, hreads.pos, hreads.finite, ?_⟩
  by_cases hd : d ∈ closeCalls
  · obtain ⟨hneg, hnarrow⟩ := narrow_of_mem_closeCalls d hd
    have hquotient : y = .ofNat d.coefficient / Numeral.tenTo d.exponent.natAbs := by
      cases given with
      | self =>
          rw [Numeral.timesTenTo_of_neg _ (by omega) hneg, Option.some.injEq] at hy
          exact hy.symm
      | whole hk => exact absurd hneg (not_lt.2 hk)
    have hnearest := (nearest_rounded .single d).rounds
    rw [abs_of_pos hpos, ← hnarrow, ← hquotient] at hnearest
    exact hnearest.unique (h.rounds_value hp hfinite)
  · refine h.magnitude_narrow hp hfinite hreads (fun hle => hexact ?_) hd
    cases given <;> omega

end ExactNeighbors.Decimal
