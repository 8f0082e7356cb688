import ExactNeighbors.Binary.Round
import ExactNeighbors.Proofs.Binary.Grid
import Mathlib.Algebra.Order.Field.Basic
import Mathlib.Algebra.Order.Field.Rat
import Mathlib.Data.Rat.Cast.Order
import Mathlib.Tactic.FieldSimp
import Mathlib.Tactic.Linarith
import Mathlib.Tactic.Positivity

set_option autoImplicit false

/-! # What rounding does

A number of units is rounded to the nearest magnitude. Said without a choice: the result is above a
magnitude `q` exactly if the number has passed the middle between `q` and the next, or lies on it
and `q` is odd (`Format.Rounds`). The result is determined by that, rounding is monotone, and what is
on the grid stays. Every bound on a rounded result is read off these three. -/

namespace ExactNeighbors

theorem nearestEven_eq {den r : ℕ} (hr : r < den) (q : ℕ) :
    nearestEven (den * q + r) den =
      if 2 * r < den then q else if 2 * r = den then q + q % 2 else q + 1 := by
  have hdiv : (den * q + r) / den = q := by
    rw [Nat.mul_add_div (Nat.zero_lt_of_lt hr), Nat.div_eq_of_lt hr, Nat.add_zero]
  have hmod : (den * q + r) % den = r := by rw [Nat.mul_add_mod, Nat.mod_eq_of_lt hr]
  rw [nearestEven, hdiv, hmod]
  rcases Nat.lt_trichotomy (2 * r) den with h | h | h
  · rw [Nat.compare_eq_lt.2 h, if_pos h]
  · rw [Nat.compare_eq_eq.2 h, if_neg (by omega), if_pos h]
  · rw [Nat.compare_eq_gt.2 h, if_neg (by omega), if_neg (by omega)]

/-- A whole number is below the rounded quotient if the quotient is past the half after it. -/
theorem lt_nearestEven_iff {num den : ℕ} (hden : 0 < den) (j : ℕ) :
    j < nearestEven num den ↔
      (2 * j + 1) * den < 2 * num ∨ (2 * j + 1) * den = 2 * num ∧ j % 2 = 1 := by
  obtain ⟨q, r, hr, rfl⟩ : ∃ q r, r < den ∧ num = den * q + r :=
    ⟨num / den, num % den, Nat.mod_lt _ hden, (Nat.div_add_mod num den).symm⟩
  rw [nearestEven_eq hr, Nat.mul_add, show (2 * j + 1) * den = den * (2 * j) + den by ring,
    show 2 * (den * q) = den * (2 * q) by ring]
  rcases Nat.lt_trichotomy j q with hj | rfl | hj
  · -- The half after a smaller whole number is passed.
    have hstep := Nat.mul_le_mul_left den (show 2 * j + 2 ≤ 2 * q by omega)
    rw [Nat.mul_add] at hstep
    refine iff_of_true ?_ (Or.inl (by omega))
    split_ifs <;> omega
  · split_ifs <;> omega
  · have hstep := Nat.mul_le_mul_left den (show 2 * q + 2 ≤ 2 * j by omega)
    rw [Nat.mul_add] at hstep
    refine iff_of_false ?_ (by omega)
    split_ifs <;> omega

namespace Format

variable {f : Format} {x y : ℚ} {p q : ℕ}

/-! ## Middles -/

/-- The middle between a magnitude and the next, in units. -/
def middle (f : Format) (q : ℕ) : ℚ := (f.units q + f.units (q + 1)) / 2

/-- So many units are nearer to the magnitudes after `q`; of a tie the even one is taken. -/
def Passed (f : Format) (q : ℕ) (x : ℚ) : Prop :=
  f.middle q < x ∨ f.middle q = x ∧ f.significand q % 2 = 1

theorem units_lt_middle (f : Format) (q : ℕ) : (f.units q : ℚ) < f.middle q := by
  have h : (f.units q : ℚ) < f.units (q + 1) := by exact_mod_cast f.units_strictMono q.lt_succ_self
  rw [middle]
  linarith

theorem middle_lt_units (f : Format) (q : ℕ) : f.middle q < f.units (q + 1) := by
  have h : (f.units q : ℚ) < f.units (q + 1) := by exact_mod_cast f.units_strictMono q.lt_succ_self
  rw [middle]
  linarith

theorem Passed.middle_le (h : f.Passed q x) : f.middle q ≤ x := h.elim le_of_lt fun h => h.1.le

theorem Passed.mono (h : f.Passed q x) (hxy : x ≤ y) : f.Passed q y := by
  rcases h with hlt | ⟨rfl, hodd⟩
  · exact Or.inl (hlt.trans_le hxy)
  · exact (lt_or_eq_of_le hxy).imp_right fun h => ⟨h, hodd⟩

/-! ## Rounding -/

/-- The magnitude to which so many units are rounded. -/
structure Rounds (f : Format) (x : ℚ) (p : ℕ) : Prop where
  le_infinity : p ≤ f.infinity
  lt_iff : ∀ q, q < f.infinity → (q < p ↔ f.Passed q x)

theorem Rounds.mono {p' : ℕ} (h : f.Rounds x p) (h' : f.Rounds y p') (hxy : x ≤ y) : p ≤ p' := by
  by_contra hlt
  rw [Nat.not_le] at hlt
  have hfinite := hlt.trans_le h.le_infinity
  have hpassed := ((h.lt_iff p' hfinite).1 hlt).mono hxy
  exact (Nat.lt_irrefl p') ((h'.lt_iff p' hfinite).2 hpassed)

theorem Rounds.unique {p' : ℕ} (h : f.Rounds x p) (h' : f.Rounds x p') : p = p' :=
  Nat.le_antisymm (h.mono h' le_rfl) (h'.mono h le_rfl)

/-- What is on the grid is rounded to itself. -/
theorem rounds_units (hp : p ≤ f.infinity) : f.Rounds (f.units p) p where
  le_infinity := hp
  lt_iff q _ := by
    constructor
    · intro hq
      have hunits : (f.units (q + 1) : ℚ) ≤ f.units p := by
        exact_mod_cast f.units_strictMono.monotone (Nat.succ_le_of_lt hq)
      exact Or.inl ((f.middle_lt_units q).trans_le hunits)
    · intro hpassed
      by_contra hq
      have hunits : (f.units p : ℚ) ≤ f.units q := by
        exact_mod_cast f.units_strictMono.monotone (Nat.not_lt.1 hq)
      have := f.units_lt_middle q
      have := hpassed.middle_le
      linarith

theorem Rounds.le_of_le_units (h : f.Rounds x p) (hq : q ≤ f.infinity) (hx : x ≤ f.units q) :
    p ≤ q := h.mono (rounds_units hq) hx

theorem Rounds.le_of_units_le (h : f.Rounds x p) (hq : q ≤ f.infinity) (hx : f.units q ≤ x) :
    q ≤ p := (rounds_units hq).mono h hx

/-! ## The computation -/

theorem middle_grid {e j : ℕ} (h : f.IsGrid e j) :
    f.middle (e * f.leading + j) = (2 * j + 1) / 2 * 2 ^ e := by
  have hnext := units_grid (h.low.imp_right fun h => Nat.le_succ_of_le h) (Nat.succ_le_of_lt h.high)
  have hthis := units_of_isGrid h
  rw [middle, Nat.add_assoc, hthis, hnext]
  push_cast
  ring

/-- A quotient has passed the middle after a significand if it has passed the half. -/
theorem passed_grid_iff {num den e j : ℕ} (hden : 0 < den) (h : f.IsGrid e j) :
    f.Passed (e * f.leading + j) (num / den * 2 ^ e) ↔ j < nearestEven num den := by
  have hden' : (0 : ℚ) < den := by exact_mod_cast hden
  have hpow : (0 : ℚ) < 2 ^ e := by positivity
  have hlt : ((2 * j + 1) / 2 * 2 ^ e : ℚ) < num / den * 2 ^ e ↔ (2 * j + 1) * den < 2 * num := by
    rw [mul_lt_mul_iff_of_pos_right hpow, div_lt_div_iff₀ two_pos hden']
    norm_cast
    rw [Nat.mul_comm num]
  have heq : ((2 * j + 1) / 2 * 2 ^ e : ℚ) = num / den * 2 ^ e ↔ (2 * j + 1) * den = 2 * num := by
    rw [mul_left_inj' hpow.ne', div_eq_div_iff two_ne_zero hden'.ne']
    norm_cast
    rw [Nat.mul_comm num]
  rw [lt_nearestEven_iff hden, Passed, middle_grid h, h.significand_eq, hlt, heq]

/-- A magnitude has this exponent, or a smaller or a larger one. -/
theorem exponent_trichotomy (f : Format) (e q : ℕ) :
    (∃ j, f.IsGrid e j ∧ q = e * f.leading + j) ∨ (e ≠ 0 ∧ q < e * f.leading + f.leading) ∨
      e * f.leading + 2 * f.leading ≤ q := by
  rcases Nat.lt_or_ge q (e * f.leading + 2 * f.leading) with hhigh | hhigh
  · rcases eq_or_ne e 0 with rfl | he
    · rw [Nat.zero_mul, Nat.zero_add] at hhigh
      exact Or.inl ⟨q, ⟨Or.inl rfl, hhigh⟩, by rw [Nat.zero_mul, Nat.zero_add]⟩
    · rcases Nat.lt_or_ge q (e * f.leading + f.leading) with hlow | hlow
      · exact Or.inr (Or.inl ⟨he, hlow⟩)
      · exact Or.inl ⟨q - e * f.leading, ⟨Or.inr (by omega), by omega⟩, by omega⟩
  · exact Or.inr (Or.inr hhigh)

/-- A full significand passes the middles at smaller exponents. -/
theorem passed_of_smaller_exponent {num den e : ℕ} (hden : 0 < den)
    (hnum : f.leading * den ≤ num) (hq : q < e * f.leading + f.leading) :
    q < e * f.leading + nearestEven num den ∧ f.Passed q (num / den * 2 ^ e) := by
  have hpos := f.leading_pos
  have hden' : (0 : ℚ) < den := by exact_mod_cast hden
  constructor
  · have hbelow : f.leading - 1 < nearestEven num den := by
      refine (lt_nearestEven_iff hden _).2 (Or.inl ?_)
      have hsplit : (2 * (f.leading - 1) + 1) * den + den = 2 * (f.leading * den) := by
        obtain ⟨l, hl⟩ := Nat.exists_eq_add_of_le' hpos
        rw [hl, Nat.add_sub_cancel]
        ring
      omega
    omega
  · have hunits : (f.units (q + 1) : ℚ) ≤ num / den * 2 ^ e := by
      have hmono := f.units_strictMono.monotone (Nat.succ_le_of_lt hq)
      rw [units_grid (Or.inr le_rfl) (by omega)] at hmono
      calc (f.units (q + 1) : ℚ) ≤ f.leading * 2 ^ e := by exact_mod_cast hmono
        _ ≤ num / den * 2 ^ e := by
          gcongr
          rw [le_div_iff₀ hden']
          exact_mod_cast hnum
    exact Or.inl ((f.middle_lt_units q).trans_le hunits)

/-- What is below the first significand of the next exponent passes no middle from there on. -/
theorem not_passed_of_larger_exponent {num den e : ℕ} (hden : 0 < den)
    (hnum : num < 2 * f.leading * den) (hq : e * f.leading + 2 * f.leading ≤ q) :
    ¬ q < e * f.leading + nearestEven num den ∧ ¬ f.Passed q (num / den * 2 ^ e) := by
  have hden' : (0 : ℚ) < den := by exact_mod_cast hden
  constructor
  · have habove : ¬ 2 * f.leading < nearestEven num den := by
      rw [lt_nearestEven_iff hden]
      have hsplit : (2 * (2 * f.leading) + 1) * den = 2 * (2 * f.leading * den) + den := by ring
      omega
    omega
  · have hunits : (num / den * 2 ^ e : ℚ) < f.units q := by
      have hmono := f.units_strictMono.monotone hq
      rw [units_grid (Or.inr (by omega)) le_rfl] at hmono
      calc (num / den * 2 ^ e : ℚ) < 2 * f.leading * 2 ^ e := by
            gcongr
            rw [div_lt_iff₀ hden']
            exact_mod_cast hnum
        _ ≤ f.units q := by exact_mod_cast hmono
    intro hpassed
    exact absurd (hunits.trans (f.units_lt_middle q)) hpassed.middle_le.not_gt

/-- Rounding to a whole number of steps at the right exponent is rounding to a magnitude. -/
theorem rounds_of_grid {num den e : ℕ} (hden : 0 < den) (hlow : e = 0 ∨ f.leading * den ≤ num)
    (hhigh : num < 2 * f.leading * den) :
    f.Rounds (num / den * 2 ^ e) (min (e * f.leading + nearestEven num den) f.infinity) where
  le_infinity := Nat.min_le_right _ _
  lt_iff q hq := by
    have hmin : q < min (e * f.leading + nearestEven num den) f.infinity ↔
        q < e * f.leading + nearestEven num den := by
      rw [Nat.lt_min]
      exact and_iff_left hq
    rw [hmin]
    rcases f.exponent_trichotomy e q with ⟨j, hj, rfl⟩ | ⟨he, hless⟩ | hmore
    · rw [passed_grid_iff hden hj, Nat.add_lt_add_iff_left]
    · obtain ⟨hlt, hpassed⟩ := passed_of_smaller_exponent hden (hlow.resolve_left he) hless
      exact iff_of_true hlt hpassed
    · obtain ⟨hlt, hpassed⟩ := not_passed_of_larger_exponent hden hhigh hmore
      exact iff_of_false hlt hpassed

theorem two_zpow_eq (d : ℤ) : (2 : ℚ) ^ d = 2 ^ d.toNat / 2 ^ (-d).toNat := by
  rcases le_total 0 d with h | h
  · rw [Int.toNat_of_nonpos (neg_nonpos.2 h), pow_zero, div_one, ← zpow_natCast,
      Int.toNat_of_nonneg h]
  · rw [Int.toNat_of_nonpos h, pow_zero, one_div, ← zpow_natCast,
      Int.toNat_of_nonneg (neg_nonneg.2 h), zpow_neg, inv_inv]

/-- Shifting either side of a quotient takes it to another exponent. -/
theorem scaled_eq (num den e : ℕ) (shift : ℤ) :
    (num / den * 2 ^ shift : ℚ) =
      (num <<< (shift - e).toNat : ℕ) / (den <<< (e - shift).toNat : ℕ) * 2 ^ e := by
  have hpow := two_zpow_eq (shift - e)
  rw [neg_sub] at hpow
  have hshift : (2 : ℚ) ^ shift = 2 ^ (shift - e).toNat / 2 ^ (e - shift).toNat * 2 ^ e := by
    rw [← hpow, ← zpow_natCast, ← zpow_add₀ two_ne_zero, sub_add_cancel]
  rw [hshift, Nat.shiftLeft_eq, Nat.shiftLeft_eq]
  push_cast
  field_simp

/-- **Rounding is to the nearest.** -/
theorem rounds_round {num den : ℕ} (hden : 0 < den) (hwhole : num = 0 ∨ den ≤ num) (shift : ℤ) :
    f.Rounds (num / den * 2 ^ shift) (f.round num den shift) := by
  by_cases hzero : num = 0
  · have hunits := rounds_units (f := f) (Nat.zero_le _)
    rw [units_zero] at hunits
    rw [round, if_pos hzero, hzero]
    simpa using hunits
  have hquotient : num / den ≠ 0 := Nat.ne_of_gt (Nat.div_pos (hwhole.resolve_left hzero) hden)
  rw [round, if_neg hzero]
  set k := (num / den).log2
  have hleast : 2 ^ k * den ≤ num := (Nat.le_div_iff_mul_le hden).1 (Nat.log2_self_le hquotient)
  have hmost : num < 2 ^ (k + 1) * den :=
    (Nat.div_lt_iff_lt_mul hden).1 ((Nat.log2_lt hquotient).1 (Nat.lt_succ_self _))
  set e := ((k : ℤ) + shift - f.fractionBits).toNat
  have hscaled := scaled_eq num den e shift
  set a := (shift - e).toNat
  set b := ((e : ℤ) - shift).toNat
  change f.Rounds _ (min (e * f.leading + nearestEven (num <<< a) (den <<< b)) f.infinity)
  rw [hscaled, Nat.shiftLeft_eq, Nat.shiftLeft_eq]
  refine rounds_of_grid (Nat.mul_pos hden (Nat.two_pow_pos b)) ?_ ?_
  · rcases Nat.eq_zero_or_pos e with he | he
    · exact Or.inl he
    · refine Or.inr ?_
      rw [leading_eq_two_pow]
      have hbits : f.fractionBits + b = k + a := by omega
      calc 2 ^ f.fractionBits * (den * 2 ^ b) = 2 ^ (f.fractionBits + b) * den := by ring
        _ = 2 ^ k * den * 2 ^ a := by rw [hbits]; ring
        _ ≤ num * 2 ^ a := Nat.mul_le_mul_right _ hleast
  · rw [leading_eq_two_pow]
    have hbits : k + 1 + a ≤ f.fractionBits + 1 + b := by omega
    calc num * 2 ^ a < 2 ^ (k + 1) * den * 2 ^ a :=
          Nat.mul_lt_mul_of_pos_right hmost (Nat.two_pow_pos a)
      _ = 2 ^ (k + 1 + a) * den := by ring
      _ ≤ 2 ^ (f.fractionBits + 1 + b) * den :=
        Nat.mul_le_mul_right _ (Nat.pow_le_pow_right Nat.two_pos hbits)
      _ = 2 * 2 ^ f.fractionBits * (den * 2 ^ b) := by ring

/-! ## Bounds by powers of two -/

/-- A power of two bounds what is rounded if it bounds the number. -/
theorem Rounds.units_le_two_pow (h : f.Rounds x p) {k : ℕ} (hx : x ≤ 2 ^ k) :
    f.units p ≤ 2 ^ k := by
  rw [← f.units_powerMagnitude k]
  apply f.units_strictMono.monotone
  rcases le_total (f.powerMagnitude k) f.infinity with hk | hk
  · refine h.le_of_le_units hk ?_
    rw [units_powerMagnitude]
    exact_mod_cast hx
  · exact h.le_infinity.trans hk

/-- **A power of two is not left by half a step.** The tie between it and the next number goes to
    the power of two, whose significand is even. -/
theorem Rounds.units_le_of_half_step (h : f.Rounds x p) (heven : f.leading % 2 = 0) {k : ℕ}
    (hx : x ≤ 2 ^ (f.fractionBits + 1 + k) + 2 ^ k) : f.units p ≤ 2 ^ (f.fractionBits + 1 + k) := by
  set q := f.powerMagnitude (f.fractionBits + 1 + k) with hq
  obtain ⟨hexponent, hsignificand⟩ :=
    exponent_powerMagnitude (f := f) (show f.fractionBits ≤ f.fractionBits + 1 + k by omega)
  have hmiddle : f.middle q = 2 ^ (f.fractionBits + 1 + k) + 2 ^ k := by
    rw [middle, units_succ, hq, units_powerMagnitude, hexponent,
      show f.fractionBits + 1 + k - f.fractionBits = k + 1 by omega]
    push_cast
    ring
  rw [← f.units_powerMagnitude, ← hq]
  apply f.units_strictMono.monotone
  rcases lt_or_ge q f.infinity with hfinite | hfinite
  · by_contra hlt
    rcases (h.lt_iff q hfinite).1 (not_le.1 hlt) with hpast | ⟨-, hodd⟩
    · exact absurd (hmiddle ▸ hpast) hx.not_gt
    · rw [hq, hsignificand, heven] at hodd
      exact absurd hodd zero_ne_one
  · exact h.le_infinity.trans hfinite

end Format

end ExactNeighbors
