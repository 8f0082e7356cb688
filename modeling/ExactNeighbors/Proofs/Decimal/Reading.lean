import ExactNeighbors.Json.Numeral
import ExactNeighbors.Proofs.Binary.Error
import ExactNeighbors.Proofs.Binary.Sums
import ExactNeighbors.Proofs.Decimal.Shortest

set_option autoImplicit false

/-! # Decimals read as doubles

A decimal is read by one multiplication or division with a power of ten (`Numeral.timesTenTo`). Powers
that have no more bits than a significand are exact, and then the result is the decimal rounded once.
Larger powers are themselves rounded, and so is the product with them, and the two errors together are
still small (`Numeral.Reads.near`). The powers here are those with which components are written. -/

namespace ExactNeighbors.Numeral

variable {n : ℕ} {e : ℤ}

/-! ## Powers of ten -/

theorem tenTo_rounded (n : ℕ) : Binary.Rounded (10 ^ n : ℚ) (tenTo n) := by
  have h := Binary.ofNat_rounded (f := .double) (Nat.pow 10 n)
  rwa [Nat.pow_eq, Nat.cast_pow, Nat.cast_ofNat] at h

theorem abs_ten_pow_le (n : ℕ) : |(10 : ℚ) ^ n| ≤ 2 ^ (4 * n) := by
  rw [abs_of_pos (by positivity), pow_mul]
  exact pow_le_pow_left₀ (by norm_num) (by norm_num) n

theorem tenTo_isFinite (hn : n ≤ 45) : (tenTo n).isFinite = true := by
  have hrange : Format.double.range = 1024 := rfl
  exact ((tenTo_rounded n).bounded (by omega) (abs_ten_pow_le n)).finite

/-- The first powers of ten are exact. -/
theorem tenTo_value (hn : n ≤ 22) : (tenTo n).value = 10 ^ n := by
  have hrange : Format.double.range = 1024 := rfl
  have hfive : 5 ^ n ≤ 2 * Format.double.leading :=
    (Nat.pow_le_pow_right (by decide) hn).trans (by decide)
  refine ((tenTo_rounded n).exact (m := 5 ^ n) (t := n + Format.double.scale) ?_ hfive
    (by omega) (abs_ten_pow_le n)).2
  rw [abs_of_pos (by positivity), pow_add, ← mul_assoc]
  push_cast
  rw [← mul_pow]
  norm_num

/-- A double is closer than its precision to what was rounded, as nothing here is so small that a
    significand would be cut short. -/
theorem error_le {r : ℚ} {y : Double} (h : Binary.Rounded r y) (hy : y.isFinite = true)
    (hr : 1 ≤ r * 10 ^ 46) : |y.value - r| * 2 ^ 53 ≤ r := by
  have hsmall : Format.double.units Format.double.leading * 10 ^ 46 ≤ 2 ^ Format.double.scale := by
    decide +kernel
  have hsmall' : (Format.double.units Format.double.leading : ℚ) * 10 ^ 46 ≤
      2 ^ Format.double.scale := by
    exact_mod_cast hsmall
  have hten : (0 : ℚ) < 10 ^ 46 := by positivity
  have hpos : 0 < r := pos_of_mul_pos_left (zero_lt_one.trans_le hr) hten.le
  have hfull : (Format.double.units Format.double.leading : ℚ) ≤ r * 2 ^ Format.double.scale := by
    refine le_of_mul_le_mul_right (hsmall'.trans ?_) hten
    rw [mul_right_comm]
    exact le_mul_of_one_le_left (by positivity) hr
  have hleading : (2 * Format.double.leading : ℚ) = 2 ^ 53 := by norm_num [Format.double]
  rw [← hleading]
  exact h.error_le hy hpos hfull

theorem tenTo_near (hn : n ≤ 45) : |(tenTo n).value - 10 ^ n| * 2 ^ 53 ≤ 10 ^ n := by
  have hone : (1 : ℚ) ≤ 10 ^ n := one_le_pow₀ (by norm_num)
  exact error_le (tenTo_rounded n) (tenTo_isFinite hn)
    (one_le_mul_of_one_le_of_one_le hone (by norm_num))

/-! ## Factors -/

/-- What a number is multiplied by for a power of ten. -/
def factor (e : ℤ) : ℚ :=
  if 0 ≤ e then (tenTo e.natAbs).value else (tenTo e.natAbs).value⁻¹

theorem ten_zpow_of_nonneg (he : 0 ≤ e) : (10 : ℚ) ^ e = 10 ^ e.natAbs := by
  rw [← zpow_natCast, Int.natAbs_of_nonneg he]

theorem ten_zpow_of_neg (he : e < 0) : (10 : ℚ) ^ e = (10 ^ e.natAbs)⁻¹ := by
  rw [← zpow_natCast, ← zpow_neg, Int.ofNat_natAbs_of_nonpos he.le, neg_neg]

theorem factor_eq (he : e.natAbs ≤ 22) : factor e = 10 ^ e := by
  rw [factor, tenTo_value he]
  split
  · next hpos => exact (ten_zpow_of_nonneg hpos).symm
  · next hneg => exact (ten_zpow_of_neg (not_le.1 hneg)).symm

theorem factor_near (he : e.natAbs ≤ 45) : |factor e - 10 ^ e| * (2 ^ 53 - 1) ≤ 10 ^ e := by
  have hnear := tenTo_near he
  rw [factor]
  split
  · next hpos =>
      rw [ten_zpow_of_nonneg hpos]
      refine le_trans ?_ hnear
      gcongr
      exact sub_le_self _ zero_le_one
  · next hneg =>
      rw [ten_zpow_of_neg (not_le.1 hneg)]
      generalize (tenTo e.natAbs).value = t at *
      have hten : (0 : ℚ) < 10 ^ e.natAbs := by positivity
      generalize (10 : ℚ) ^ e.natAbs = power at *
      have hlow : power * (2 ^ 53 - 1) ≤ t * 2 ^ 53 := by
        have := neg_abs_le (t - power)
        linarith
      have ht : 0 < t := by linarith
      rw [inv_sub_inv ht.ne' hten.ne', abs_div, abs_of_pos (mul_pos ht hten), abs_sub_comm,
        div_mul_eq_mul_div, div_le_iff₀ (mul_pos ht hten), mul_comm t, inv_mul_cancel_left₀ hten.ne']
      linarith

theorem timesTenTo_of_neg (x : Double) (he : e.natAbs ≤ 45) (hneg : e < 0) :
    timesTenTo x e = some (x / tenTo e.natAbs) := by
  have hlimit : e.natAbs ≤ powerLimit := he.trans (by decide)
  rw [timesTenTo, if_pos hlimit, if_neg (not_le.2 hneg)]

/-- **A power of ten multiplies once**, whichever side it is on. -/
theorem timesTenTo_rounded {x : Double} (hx : x.isFinite = true) (he : e.natAbs ≤ 45) {k : ℕ}
    (hk : k < Format.double.range) (hbound : |x.value * factor e| ≤ 2 ^ k) :
    ∃ y, timesTenTo x e = some y ∧ y.isFinite = true ∧ Binary.Rounded (x.value * factor e) y := by
  have hten := tenTo_isFinite he
  rw [factor] at hbound ⊢
  split at hbound
  · next hpos =>
      have hproduct := Binary.mul_rounded hx hten
      have hfinite := (hproduct.bounded hk hbound).finite
      refine ⟨x * tenTo e.natAbs, ?_, hfinite, ?_⟩
      · have hlimit : e.natAbs ≤ powerLimit := he.trans (by decide)
        rw [timesTenTo, if_pos hlimit, if_pos hpos]
        dsimp only
        rw [Binary.isInfinite_of_isFinite hfinite, if_neg Bool.false_ne_true]
      · rwa [if_pos hpos]
  · next hneg =>
      have hzero : (tenTo e.natAbs).isZero = false := by
        refine Bool.eq_false_iff.2 fun hzero => ?_
        have hnear := tenTo_near he
        rw [Binary.value_eq_zero.2 hzero, zero_sub, abs_neg, abs_of_pos (by positivity)] at hnear
        have : (0 : ℚ) < 10 ^ e.natAbs := by positivity
        linarith
      have hquotient := Binary.div_rounded hx hten hzero
      rw [div_eq_mul_inv] at hquotient
      refine ⟨x / tenTo e.natAbs, timesTenTo_of_neg x he (not_le.1 hneg),
        (hquotient.bounded hk hbound).finite, ?_⟩
      rwa [if_neg hneg]

/-! ## Decimals -/

/-- A double that is close to a decimal of value `v`. -/
structure Reads (v : ℚ) (y : Double) : Prop where
  finite : y.isFinite = true
  pos : 0 < y.value
  near : |y.value - v| * 2 ^ 54 ≤ 5 * v

/-- Two errors of half a step each make one of less than three. -/
theorem near_of_near {a b z : ℚ} (hb : |b - a| * (2 ^ 53 - 1) ≤ a) (hz : |z - b| * 2 ^ 53 ≤ b) :
    |z - a| * 2 ^ 54 ≤ 5 * a := by
  have hsum : |z - a| ≤ |z - b| + |b - a| := abs_sub_le z b a
  have hle : b ≤ a + |b - a| := by linarith [le_abs_self (b - a)]
  have ha : 0 ≤ a := (mul_nonneg (abs_nonneg _) (by norm_num)).trans hb
  linarith

/-- **A decimal with few digits is read closely**, and rounded once if the power of ten is exact. -/
theorem exists_reads {c : ℕ} (hc : 0 < c) (short : c ≤ 2 ^ 53) (he : e.natAbs ≤ 45) :
    ∃ y, timesTenTo (.ofNat c) e = some y ∧ Reads (c * 10 ^ e) y ∧
      (e.natAbs ≤ 22 → Binary.Rounded (c * 10 ^ e : ℚ) y) := by
  have hwhole : Binary.Whole c (.ofNat c : Double) := Binary.whole_ofNat (by decide) short
  have hvalue : (.ofNat c : Double).value = c := hwhole.value_eq.trans (Int.cast_natCast c)
  have hc' : (1 : ℚ) ≤ c := by exact_mod_cast hc
  have hshort : (c : ℚ) ≤ 2 ^ 53 := by exact_mod_cast short
  have hnear := factor_near he
  have hlow : (10 : ℚ) ^ (-45 : ℤ) ≤ 10 ^ e := zpow_le_zpow_right₀ (by norm_num) (by omega)
  have hhigh : (10 : ℚ) ^ e ≤ 10 ^ (45 : ℤ) := zpow_le_zpow_right₀ (by norm_num) (by omega)
  have hexact (h : e.natAbs ≤ 22) : factor e = 10 ^ e := factor_eq h
  have hrounded := timesTenTo_rounded hwhole.finite he (k := 240) (by decide)
  rw [hvalue] at hrounded
  have hpower : (0 : ℚ) < 10 ^ e := zpow_pos (by norm_num) e
  generalize factor e = t at *
  generalize (10 : ℚ) ^ e = power at *
  have ht : power / 2 ≤ t := by linarith [neg_abs_le (t - power)]
  have ht' : t ≤ 2 * power := by linarith [le_abs_self (t - power)]
  have htpos : 0 < t := (half_pos hpower).trans_le ht
  have hpos : 0 < c * t := mul_pos (zero_lt_one.trans_le hc') htpos
  obtain ⟨y, hy, hfinite, hround⟩ := hrounded <| by
    rw [abs_of_pos hpos]
    calc c * t ≤ 2 ^ 53 * (2 * 10 ^ (45 : ℤ)) := by
          gcongr
          exact ht'.trans (mul_le_mul_of_nonneg_left hhigh two_pos.le)
      _ ≤ 2 ^ 240 := by norm_num
  refine ⟨y, hy, ?_, fun h => hexact h ▸ hround⟩
  have herror : |y.value - c * t| * 2 ^ 53 ≤ c * t := by
    refine error_le hround hfinite ?_
    calc (1 : ℚ) ≤ 1 * (10 ^ (-45 : ℤ) / 2) * 10 ^ 46 := by norm_num
      _ ≤ c * t * 10 ^ 46 := by
        gcongr
        exact (div_le_div_of_nonneg_right hlow two_pos.le).trans ht
  refine ⟨hfinite, ?_, near_of_near ?_ herror⟩
  · linarith [neg_abs_le (y.value - c * t)]
  · rw [← mul_sub, abs_mul, abs_of_pos (zero_lt_one.trans_le hc'), mul_assoc]
    gcongr

end ExactNeighbors.Numeral
