import ExactNeighbors.Binary.Format
import Mathlib.Algebra.Order.Ring.Nat
import Mathlib.Order.Monotone.Basic
import Mathlib.Tactic.Ring

set_option autoImplicit false

/-! # The grid of magnitudes

Magnitudes count the numbers of a format from zero on. Each is a significand at an exponent
(`Format.IsGrid`), and at one exponent neighboring magnitudes stand one power of two apart, across
the first number of the next exponent too (`Format.units_grid`). So the values ascend with the
magnitudes, and every power of two is among them. Infinity is no exception here: its magnitude stands
for the power of two behind the largest finite number. -/

namespace ExactNeighbors.Format

variable {f : Format}

theorem leading_eq_two_pow (f : Format) : f.leading = 2 ^ f.fractionBits := f.leading_eq

/-! ## Significands at an exponent -/

/-- The significands that occur at an exponent: small ones at the least exponent only. -/
structure IsGrid (f : Format) (e m : ℕ) : Prop where
  low : e = 0 ∨ f.leading ≤ m
  high : m < 2 * f.leading

theorem IsGrid.significand_eq {e m : ℕ} (h : f.IsGrid e m) :
    f.significand (e * f.leading + m) = m := by
  have hpos := f.leading_pos
  obtain ⟨hlow, hhigh⟩ := h
  by_cases hsmall : m < f.leading
  · obtain rfl : e = 0 := hlow.resolve_right (Nat.not_le.2 hsmall)
    rw [Nat.zero_mul, Nat.zero_add, significand, if_pos hsmall]
  · obtain ⟨r, rfl⟩ := Nat.exists_eq_add_of_le (Nat.not_lt.1 hsmall)
    have hr : r < f.leading := by omega
    have hsplit : e * f.leading + (f.leading + r) = r + f.leading * (e + 1) := by ring
    have hlarge : ¬ r + f.leading * (e + 1) < f.leading := by
      have := Nat.le_mul_of_pos_right f.leading (Nat.succ_pos e)
      omega
    rw [hsplit, significand, if_neg hlarge, Nat.add_mul_mod_self_left, Nat.mod_eq_of_lt hr]

theorem IsGrid.exponent_eq {e m : ℕ} (h : f.IsGrid e m) : f.exponent (e * f.leading + m) = e := by
  have hpos := f.leading_pos
  obtain ⟨hlow, hhigh⟩ := h
  by_cases hsmall : m < f.leading
  · obtain rfl : e = 0 := hlow.resolve_right (Nat.not_le.2 hsmall)
    rw [Nat.zero_mul, Nat.zero_add, exponent, Nat.div_eq_of_lt hsmall]
  · obtain ⟨r, rfl⟩ := Nat.exists_eq_add_of_le (Nat.not_lt.1 hsmall)
    have hr : r < f.leading := by omega
    have hsplit : e * f.leading + (f.leading + r) = r + f.leading * (e + 1) := by ring
    rw [hsplit, exponent, Nat.add_mul_div_left _ _ hpos, Nat.div_eq_of_lt hr]
    omega

/-- Every magnitude is a significand at an exponent. -/
theorem isGrid_fields (f : Format) (p : ℕ) : f.IsGrid (f.exponent p) (f.significand p) ∧
    p = f.exponent p * f.leading + f.significand p := by
  have hpos := f.leading_pos
  by_cases hsmall : p < f.leading
  · have hexp : f.exponent p = 0 := by rw [exponent, Nat.div_eq_of_lt hsmall]
    have hsig : f.significand p = p := by rw [significand, if_pos hsmall]
    rw [hexp, hsig]
    exact ⟨⟨Or.inl rfl, by omega⟩, by rw [Nat.zero_mul, Nat.zero_add]⟩
  · have hsig : f.significand p = f.leading + p % f.leading := by rw [significand, if_neg hsmall]
    have hdiv : 1 ≤ p / f.leading := (Nat.one_le_div_iff hpos).2 (Nat.not_lt.1 hsmall)
    have hmod := Nat.mod_lt p hpos
    rw [hsig]
    refine ⟨⟨Or.inr (Nat.le_add_right _ _), by omega⟩, ?_⟩
    obtain ⟨d, hd⟩ := Nat.exists_eq_add_of_le hdiv
    rw [exponent, hd, Nat.add_sub_cancel_left]
    calc p = f.leading * (1 + d) + p % f.leading := by rw [← hd, Nat.div_add_mod]
      _ = d * f.leading + (f.leading + p % f.leading) := by ring

/-! ## Values -/

theorem units_of_isGrid {e m : ℕ} (h : f.IsGrid e m) : f.units (e * f.leading + m) = m * 2 ^ e := by
  rw [units, h.significand_eq, h.exponent_eq]
  rfl

/-- At one exponent the value is the significand scaled, for the first number after it too. -/
theorem units_grid {e m : ℕ} (low : e = 0 ∨ f.leading ≤ m) (high : m ≤ 2 * f.leading) :
    f.units (e * f.leading + m) = m * 2 ^ e := by
  have hpos := f.leading_pos
  rcases Nat.lt_or_eq_of_le high with hlt | rfl
  · exact units_of_isGrid ⟨low, hlt⟩
  · have hnext : f.IsGrid (e + 1) f.leading := ⟨Or.inr (Nat.le_refl _), by omega⟩
    have hsplit : e * f.leading + 2 * f.leading = (e + 1) * f.leading + f.leading := by ring
    rw [hsplit, units_of_isGrid hnext]
    ring

/-- The first full significand. -/
theorem units_leading (f : Format) : f.units f.leading = f.leading := by
  have h := units_grid (f := f) (e := 0) (m := f.leading) (Or.inl rfl) (by omega)
  rwa [Nat.zero_mul, Nat.zero_add, Nat.pow_zero, Nat.mul_one] at h

/-- The next number stands one power of two further. -/
theorem units_succ (f : Format) (p : ℕ) : f.units (p + 1) = f.units p + 2 ^ f.exponent p := by
  obtain ⟨⟨hlow, hhigh⟩, hp⟩ := f.isGrid_fields p
  have hnext := units_grid (hlow.imp_right fun h => Nat.le_succ_of_le h) (Nat.succ_le_of_lt hhigh)
  have hthis := units_grid hlow (Nat.le_of_lt hhigh)
  rw [← hp] at hthis
  rw [Nat.succ_eq_add_one, ← Nat.add_assoc, ← hp] at hnext
  rw [hnext, hthis]
  ring

theorem units_strictMono (f : Format) : StrictMono f.units :=
  strictMono_nat_of_lt_succ fun p => by
    rw [f.units_succ]
    exact Nat.lt_add_of_pos_right (Nat.two_pow_pos _)

theorem units_zero (f : Format) : f.units 0 = 0 := by
  have h := units_grid (f := f) (e := 0) (m := 0) (Or.inl rfl) (Nat.zero_le _)
  rwa [Nat.zero_mul, Nat.zero_mul] at h

/-! ## Powers of two -/

/-- The magnitude of `2 ^ k` units. -/
def powerMagnitude (f : Format) (k : ℕ) : ℕ :=
  if k < f.fractionBits then 2 ^ k else (k - f.fractionBits) * f.leading + f.leading

theorem units_powerMagnitude (f : Format) (k : ℕ) : f.units (f.powerMagnitude k) = 2 ^ k := by
  rw [powerMagnitude]
  split
  · next hk =>
      have hsmall : 2 ^ k ≤ 2 * f.leading := by
        have := Nat.pow_le_pow_right Nat.two_pos (Nat.le_of_lt hk)
        rw [leading_eq_two_pow]
        omega
      have h := units_grid (f := f) (e := 0) (Or.inl rfl) hsmall
      rwa [Nat.zero_mul, Nat.zero_add, Nat.pow_zero, Nat.mul_one] at h
  · next hk =>
      rw [units_grid (Or.inr (Nat.le_refl _)) (by omega), leading_eq_two_pow, ← Nat.pow_add]
      congr 1
      omega

/-- From the first full significand on, a power of two has the significand with no fraction. -/
theorem exponent_powerMagnitude {k : ℕ} (hk : f.fractionBits ≤ k) :
    f.exponent (f.powerMagnitude k) = k - f.fractionBits ∧
      f.significand (f.powerMagnitude k) = f.leading := by
  have hpos := f.leading_pos
  have hgrid : f.IsGrid (k - f.fractionBits) f.leading := ⟨Or.inr (Nat.le_refl _), by omega⟩
  rw [powerMagnitude, if_neg (Nat.not_lt.2 hk)]
  exact ⟨hgrid.exponent_eq, hgrid.significand_eq⟩

end ExactNeighbors.Format
