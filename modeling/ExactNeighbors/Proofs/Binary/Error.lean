import ExactNeighbors.Proofs.Binary.Whole

set_option autoImplicit false

/-! # The error of a rounded result

A rounded result is within half a step of the exact one. A step is a small fraction of what it belongs
to, unless that is so small that its significand is cut short. So the error is bounded by a fraction of
the exact result that depends on the format alone (`Binary.Rounded.error_le`). -/

namespace ExactNeighbors

namespace Format

variable {f : Format} {x : ℚ} {p : ℕ}

theorem middle_sub_units (f : Format) (p : ℕ) : f.middle p - f.units p = 2 ^ f.exponent p / 2 := by
  rw [middle, f.units_succ]
  push_cast
  ring

theorem units_succ_sub_middle (f : Format) (p : ℕ) :
    f.units (p + 1) - f.middle p = 2 ^ f.exponent p / 2 := by
  rw [middle, f.units_succ]
  push_cast
  ring

/-- A full significand has a small step. -/
theorem step_le_units (full : f.leading ≤ p) : f.leading * 2 ^ f.exponent p ≤ f.units p := by
  have hsignificand : f.leading ≤ f.significand p := by
    rw [significand, if_neg (Nat.not_lt.2 full)]
    exact Nat.le_add_right _ _
  rw [units]
  exact Nat.mul_le_mul_right _ hsignificand

/-- **What is rounded is within half a step.** -/
theorem Rounds.error_le (h : f.Rounds x p) (hp : p < f.infinity) (full : f.units f.leading ≤ x) :
    |f.units p - x| * (2 * f.leading) ≤ x := by
  have hleading : (0 : ℚ) < f.leading := by exact_mod_cast f.leading_pos
  -- A step that starts at a full significand below the number is small.
  have hstep {q : ℕ} (hfull : f.leading ≤ q) (hq : f.units q ≤ x) :
      2 ^ f.exponent q / 2 * (2 * f.leading) ≤ x := by
    have hle : (f.leading * 2 ^ f.exponent q : ℚ) ≤ f.units q := by
      exact_mod_cast step_le_units hfull
    linarith
  have hpfull : f.leading ≤ p := by
    by_contra hlt
    have hpassed := mt (h.lt_iff p hp).2 (lt_irrefl p)
    have hnext : (f.units (p + 1) : ℚ) ≤ f.units f.leading := by
      exact_mod_cast f.units_strictMono.monotone (Nat.succ_le_of_lt (not_le.1 hlt))
    exact hpassed (Or.inl ((f.middle_lt_units p).trans_le (hnext.trans full)))
  rcases le_or_gt (f.units p : ℚ) x with hbelow | habove
  · have hmiddle : x ≤ f.middle p :=
      not_lt.1 fun hlt => lt_irrefl p ((h.lt_iff p hp).2 (Or.inl hlt))
    rw [abs_of_nonpos (sub_nonpos.2 hbelow)]
    refine le_trans ?_ (hstep hpfull hbelow)
    have hdistance := f.middle_sub_units p
    gcongr
    linarith
  · -- Here the number before is full as well, for the first one is not above what is rounded.
    obtain ⟨q, rfl⟩ := Nat.exists_eq_succ_of_ne_zero (f.leading_pos.trans_le hpfull).ne'
    have hq : f.leading ≤ q := by
      by_contra hlt
      have hfirst : q + 1 = f.leading := by omega
      exact absurd full (not_le.2 (hfirst ▸ habove))
    have hpassed := (h.lt_iff q (q.lt_succ_self.trans hp)).1 q.lt_succ_self
    have hmiddle := hpassed.middle_le
    rw [abs_of_nonneg (sub_nonneg.2 habove.le)]
    refine le_trans ?_ (hstep hq ((f.units_lt_middle q).le.trans hmiddle))
    have hdistance := f.units_succ_sub_middle q
    gcongr
    linarith

end Format

namespace Binary

variable {f : Format} {z : Binary f} {r : ℚ}

/-- **A rounded result is close to the exact one**, if that is large enough for a full significand. -/
theorem Rounded.error_le (h : Rounded r z) (hz : z.isFinite = true) (hr : 0 < r)
    (full : f.units f.leading ≤ r * 2 ^ f.scale) : |z.value - r| * (2 * f.leading) ≤ r := by
  have hscale : (0 : ℚ) < 2 ^ f.scale := by positivity
  have hrounds := h.rounds
  rw [abs_of_pos hr] at hrounds
  have herror := hrounds.error_le (of_decide_eq_true hz) full
  have hunits : f.units z.magnitude = z.value * 2 ^ f.scale := by
    rw [value_of_positive (h.positive hr), size, div_mul_cancel₀ _ hscale.ne']
  rw [hunits, ← sub_mul, abs_mul, abs_of_pos hscale, mul_right_comm] at herror
  exact le_of_mul_le_mul_right herror hscale

/-- Of either sign, and of zero, which is not rounded. -/
theorem Rounded.abs_error_le (h : Rounded r z) (hz : z.isFinite = true)
    (full : r = 0 ∨ f.units f.leading ≤ |r| * 2 ^ f.scale) :
    |z.value - r| * (2 * f.leading) ≤ |r| := by
  rcases full with rfl | full
  · have hzero : z.value = 0 := h.value_eq (c := .zero false) (Nat.zero_le _) (value_zero false)
    rw [hzero, sub_zero, abs_zero, zero_mul]
  · rcases lt_trichotomy r 0 with hr | rfl | hr
    · rw [abs_of_neg hr] at full ⊢
      have herror := h.neg.error_le (isFinite_neg hz) (neg_pos.2 hr) full
      rwa [value_neg, ← neg_add', abs_neg, ← sub_eq_add_neg] at herror
    · rw [abs_zero, zero_mul] at full
      have hunits : (0 : ℚ) < f.units f.leading := by
        exact_mod_cast f.units_zero ▸ f.units_strictMono f.leading_pos
      exact absurd full (not_le.2 hunits)
    · rw [abs_of_pos hr] at full ⊢
      exact h.error_le hz hr full

/-- What is too small for a full significand is off by little all the same. -/
theorem Rounded.error_le_add [f.Regular] (h : Rounded r z) (hz : z.isFinite = true) :
    |z.value - r| * (2 * f.leading) ≤ |r| + 4 * f.leading ^ 2 / 2 ^ f.scale := by
  have hscale : (0 : ℚ) < 2 ^ f.scale := by positivity
  by_cases full : f.units f.leading ≤ |r| * 2 ^ f.scale
  · exact (h.abs_error_le hz (.inr full)).trans (le_add_of_nonneg_right (by positivity))
  · have hsmall : |r| * 2 ^ f.scale ≤ f.units f.leading := (not_le.1 full).le
    have hmagnitude := h.rounds.le_of_le_units f.leading_le_infinity hsmall
    have hsize : z.size * 2 ^ f.scale ≤ f.leading := by
      rw [size, div_mul_cancel₀ _ hscale.ne', ← f.units_leading]
      exact_mod_cast f.units_strictMono.monotone hmagnitude
    rw [f.units_leading] at hsmall
    have hdistance : |z.value - r| ≤ 2 * f.leading / 2 ^ f.scale := by
      rw [le_div_iff₀ hscale]
      calc |z.value - r| * 2 ^ f.scale ≤ (z.size + |r|) * 2 ^ f.scale := by
            rw [← z.abs_value]
            gcongr
            exact abs_sub _ _
        _ ≤ 2 * f.leading := by rw [add_mul]; linarith
    calc |z.value - r| * (2 * f.leading) ≤ 2 * f.leading / 2 ^ f.scale * (2 * f.leading) := by gcongr
      _ = 4 * f.leading ^ 2 / 2 ^ f.scale := by ring
      _ ≤ |r| + 4 * f.leading ^ 2 / 2 ^ f.scale := le_add_of_nonneg_left (abs_nonneg r)

variable {x y : Binary f}

/-- Numbers are whole multiples of the unit. -/
theorem exists_value_mul_eq (x : Binary f) : ∃ n : ℤ, x.value * 2 ^ f.scale = n := by
  have hsize : x.size * 2 ^ f.scale = f.units x.magnitude := div_mul_cancel₀ _ (by positivity)
  rw [value]
  cases x.negative
  · exact ⟨f.units x.magnitude, by rw [if_neg Bool.false_ne_true, hsize, Int.cast_natCast]⟩
  · exact ⟨-f.units x.magnitude, by
      rw [if_pos rfl, neg_mul, hsize, Int.cast_neg, Int.cast_natCast]⟩

/-- **A sum is close to the exact one**, however small: one that is too small for a full significand is
    exact. -/
theorem add_error_le [f.Regular] (hx : x.isFinite = true) (hy : y.isFinite = true)
    (hsum : (x + y).isFinite = true) :
    |(x + y).value - (x.value + y.value)| * (2 * f.leading) ≤ |x.value + y.value| := by
  have hadd := add_rounded hx hy
  by_cases full : f.units f.leading ≤ |x.value + y.value| * 2 ^ f.scale
  · exact hadd.abs_error_le hsum (.inr full)
  · obtain ⟨m, hm⟩ := x.exists_value_mul_eq
    obtain ⟨n, hn⟩ := y.exists_value_mul_eq
    have hwhole : |x.value + y.value| * 2 ^ f.scale = (m + n).natAbs := by
      rw [Nat.cast_natAbs, Int.cast_abs, Int.cast_add, ← hm, ← hn, ← add_mul, abs_mul,
        abs_of_pos (show (0 : ℚ) < 2 ^ f.scale by positivity)]
    have hshort : (m + n).natAbs < f.leading := by
      rw [hwhole, f.units_leading, not_le] at full
      exact_mod_cast full
    have hone : |x.value + y.value| ≤ 2 ^ 0 := by
      have hscale : f.leading ≤ 2 ^ f.scale := by
        rw [Format.leading_eq_two_pow, f.scale_eq]
        exact Nat.pow_le_pow_right Nat.two_pos (Nat.le_add_left _ _)
      refine le_of_mul_le_mul_right ?_ (show (0 : ℚ) < 2 ^ f.scale by positivity)
      rw [hwhole, pow_zero, one_mul]
      exact_mod_cast hshort.le.trans hscale
    obtain ⟨-, hexact⟩ := hadd.exact (t := 0) (by rw [hwhole, pow_zero, mul_one]) (by omega)
      (Nat.two_pow_pos _) hone
    rw [sub_eq_zero.2 hexact, abs_zero, zero_mul]
    exact abs_nonneg _

end Binary

end ExactNeighbors
