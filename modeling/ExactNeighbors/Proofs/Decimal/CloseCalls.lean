import ExactNeighbors.Proofs.Decimal.Shortest
import Mathlib.Tactic.LinearCombination
import Mathlib.Tactic.Zify

set_option autoImplicit false

/-! # Decimals that are close to a middle

A decimal that a reader meets with a small error is in danger if a middle between two numbers is about
as close to it as the error is large. In units of a power of two a middle of single precision is a
whole number of at most 25 bits. So the question is which fractions with such a numerator are close
to a power of ten, itself divided by a power of two, and it is asked once for every power of ten that
occurs.

Around a power of ten there is a window of fractions that are too close. Each of its ends lies between
two fractions that are `Bracket.Adjacent`, and between these there is none whose numerator is less
than both of theirs together (`Bracket.Adjacent.le_num`). If the two ends lie between the same
fractions, the window is empty; if one fraction stands between the two pairs, it is the only one. The
pairs are found by going from one to the next (`Bracket.narrow`), but that they are the right ones is
seen from the pairs themselves, which is how all powers are checked (`Decimal.examined`). Apart from
middles that a decimal hits exactly, three decimals are close (`Decimal.closeCalls`). -/

namespace ExactNeighbors

/-! ## Fractions between two others -/

/-- A fraction below and one above. -/
structure Bracket where
  lowNum : ℕ
  lowDen : ℕ
  highNum : ℕ
  highDen : ℕ
deriving DecidableEq

namespace Bracket

variable {b b₁ b₂ : Bracket} {m c : ℕ}

/-- The two fractions are as close as their denominators allow. -/
def Adjacent (b : Bracket) : Prop := b.highNum * b.lowDen = b.lowNum * b.highDen + 1

instance (b : Bracket) : Decidable b.Adjacent := inferInstanceAs (Decidable (_ = _))

theorem Adjacent.lowDen_pos (h : b.Adjacent) : 0 < b.lowDen := by
  refine Nat.pos_of_ne_zero fun hzero => ?_
  rw [Adjacent, hzero, Nat.mul_zero] at h
  exact Nat.succ_ne_zero _ h.symm

/-- **Between adjacent fractions numerators are large.** -/
theorem Adjacent.le_num (h : b.Adjacent) (above : b.lowNum * c < m * b.lowDen)
    (below : m * b.highDen < b.highNum * c) : b.lowNum + b.highNum ≤ m := by
  obtain ⟨x, hx⟩ := Nat.exists_eq_add_of_lt above
  obtain ⟨y, hy⟩ := Nat.exists_eq_add_of_lt below
  have hsplit : m = b.lowNum * (y + 1) + b.highNum * (x + 1) := by
    unfold Adjacent at h
    zify at h hx hy ⊢
    linear_combination (-m : ℤ) * h + b.highNum * hx + b.lowNum * hy
  rw [hsplit]
  exact Nat.add_le_add (Nat.le_mul_of_pos_right _ y.succ_pos) (Nat.le_mul_of_pos_right _ x.succ_pos)

/-- A window from `num₁ / den` to `num₂ / den` starts in one pair and ends in the other, which is the
    same or the next. -/
structure Isolate (bound num₁ num₂ den : ℕ) (b₁ b₂ : Bracket) : Prop where
  adjacent₁ : b₁.Adjacent
  adjacent₂ : b₂.Adjacent
  bound_le₁ : bound ≤ b₁.lowNum + b₁.highNum
  bound_le₂ : bound ≤ b₂.lowNum + b₂.highNum
  starts : b₁.lowNum * den < num₁ * b₁.lowDen
  ends : num₂ * b₂.highDen < b₂.highNum * den
  meet : b₁ = b₂ ∨ b₁.highNum = b₂.lowNum ∧ b₁.highDen = b₂.lowDen

instance (bound num₁ num₂ den : ℕ) (b₁ b₂ : Bracket) :
    Decidable (Isolate bound num₁ num₂ den b₁ b₂) :=
  decidable_of_iff (b₁.Adjacent ∧ b₂.Adjacent ∧ bound ≤ b₁.lowNum + b₁.highNum ∧
      bound ≤ b₂.lowNum + b₂.highNum ∧ b₁.lowNum * den < num₁ * b₁.lowDen ∧
      num₂ * b₂.highDen < b₂.highNum * den ∧
      (b₁ = b₂ ∨ b₁.highNum = b₂.lowNum ∧ b₁.highDen = b₂.lowDen))
    ⟨fun ⟨h₁, h₂, h₃, h₄, h₅, h₆, h₇⟩ => ⟨h₁, h₂, h₃, h₄, h₅, h₆, h₇⟩,
      fun ⟨h₁, h₂, h₃, h₄, h₅, h₆, h₇⟩ => ⟨h₁, h₂, h₃, h₄, h₅, h₆, h₇⟩⟩

/-- **A window has one fraction with a small numerator at most**, the one where the pairs meet. -/
theorem Isolate.eq {bound num₁ num₂ den : ℕ} (h : Isolate bound num₁ num₂ den b₁ b₂) (hc : 0 < c)
    (hm : m < bound) (starts : num₁ * c ≤ m * den) (ends : m * den ≤ num₂ * c) :
    b₁ ≠ b₂ ∧ m * b₂.lowDen = b₂.lowNum * c := by
  have hlow : b₁.lowNum * c < m * b₁.lowDen := by
    refine Nat.lt_of_mul_lt_mul_right (a := den) ?_
    calc b₁.lowNum * c * den = b₁.lowNum * den * c := Nat.mul_right_comm _ _ _
      _ < num₁ * b₁.lowDen * c := Nat.mul_lt_mul_of_pos_right h.starts hc
      _ = num₁ * c * b₁.lowDen := Nat.mul_right_comm _ _ _
      _ ≤ m * den * b₁.lowDen := Nat.mul_le_mul_right _ starts
      _ = m * b₁.lowDen * den := Nat.mul_right_comm _ _ _
  have hhigh : m * b₂.highDen < b₂.highNum * c := by
    refine Nat.lt_of_mul_lt_mul_right (a := den) ?_
    calc m * b₂.highDen * den = m * den * b₂.highDen := Nat.mul_right_comm _ _ _
      _ ≤ num₂ * c * b₂.highDen := Nat.mul_le_mul_right _ ends
      _ = num₂ * b₂.highDen * c := Nat.mul_right_comm _ _ _
      _ < b₂.highNum * den * c := Nat.mul_lt_mul_of_pos_right h.ends hc
      _ = b₂.highNum * c * den := Nat.mul_right_comm _ _ _
  -- Numbers with small numerators lie outside of both pairs.
  have hout₁ : ¬ m * b₁.highDen < b₁.highNum * c := fun hbelow =>
    absurd (h.bound_le₁.trans (h.adjacent₁.le_num hlow hbelow)) (Nat.not_le.2 hm)
  have hout₂ : ¬ b₂.lowNum * c < m * b₂.lowDen := fun habove =>
    absurd (h.bound_le₂.trans (h.adjacent₂.le_num habove hhigh)) (Nat.not_le.2 hm)
  rcases h.meet with rfl | ⟨hnum, hden⟩
  · exact absurd hhigh hout₁
  · rw [hnum, hden] at hout₁
    refine ⟨?_, Nat.le_antisymm (Nat.not_lt.1 hout₂) (Nat.not_lt.1 hout₁)⟩
    rintro rfl
    exact hout₂ hlow

/-! ## The search for a pair -/

/-- Brings both fractions nearer to `num / den` in turn, by as many steps as the bound and the side they
    are on allow. -/
def narrow (num den bound : ℕ) : ℕ → Bracket → Bracket
  | 0, b => b
  | fuel + 1, b =>
    let up := min ((num * b.lowDen - b.lowNum * den) / (b.highNum * den - num * b.highDen))
      ((bound - 1 - b.lowNum) / b.highNum)
    let lowNum := b.lowNum + up * b.highNum
    let lowDen := b.lowDen + up * b.highDen
    let down := min ((b.highNum * den - num * b.highDen) / (num * lowDen - lowNum * den))
      ((bound - 1 - b.highNum) / max 1 lowNum)
    narrow num den bound fuel ⟨lowNum, lowDen, b.highNum + down * lowNum, b.highDen + down * lowDen⟩

/-- The pair around `num / den`. -/
def around (num den bound : ℕ) : Bracket := narrow num den bound 40 ⟨0, 1, 1, 0⟩

end Bracket

namespace Decimal

/-! ## Powers of ten -/

/-- The step of a grid in half units of single precision, as a ratio. -/
def stepNum (k : ℤ) : ℕ := 10 ^ k.toNat * 2 ^ 150

def stepDen (k : ℤ) : ℕ := 10 ^ (-k).toNat

/-- The power of two at or below the step. -/
def stepBinade (k : ℤ) : ℕ := (stepNum k / stepDen k).log2

theorem stepDen_pos (k : ℤ) : 0 < stepDen k := Nat.pow_pos (by decide)

theorem gridStep_single (k : ℤ) : gridStep .single k = stepNum k / stepDen k := by
  have hscale : Format.single.scale + 1 = 150 := rfl
  rw [gridStep, ten_zpow_eq, hscale, stepNum, stepDen]
  push_cast
  ring

/-- How close is too close, in units of two to the -54. -/
def margin : ℕ := 5

def windowDen (k : ℤ) : ℕ := stepDen k * 2 ^ stepBinade k * 2 ^ 54

/-- The pairs in which the window around the step, divided by its power of two, starts and ends. -/
def windowStart (k : ℤ) : Bracket := .around (stepNum k * (2 ^ 54 - margin)) (windowDen k) (2 ^ 25)

def windowEnd (k : ℤ) : Bracket := .around (stepNum k * (2 ^ 54 + margin)) (windowDen k) (2 ^ 25)

/-- Fractions that are close without being equal. -/
def closeFractions : List (ℤ × ℕ × ℕ) :=
  [(-32, 22841339, 14077062), (-15, 28874659, 25645849), (32, 28154124, 22841339)]

/-- What is found out about one power of ten. -/
structure Examined (k : ℤ) : Prop where
  /-- The step is not just below the next power of two. -/
  lt_binade : stepNum k * 2 ^ 24 < stepDen k * 2 ^ (stepBinade k + 1) * (2 ^ 24 - margin)
  isolate : Bracket.Isolate (2 ^ 25) (stepNum k * (2 ^ 54 - margin)) (stepNum k * (2 ^ 54 + margin))
    (windowDen k) (windowStart k) (windowEnd k)
  /-- The window is empty, or it has one fraction, which is the step itself or one of those listed. -/
  fraction : windowStart k = windowEnd k ∨
    (windowEnd k).lowNum * (stepDen k * 2 ^ stepBinade k) = stepNum k * (windowEnd k).lowDen ∨
    (k, (windowEnd k).lowNum, (windowEnd k).lowDen) ∈ closeFractions

instance (k : ℤ) : Decidable (Examined k) :=
  decidable_of_iff
    (stepNum k * 2 ^ 24 < stepDen k * 2 ^ (stepBinade k + 1) * (2 ^ 24 - margin) ∧
      Bracket.Isolate (2 ^ 25) (stepNum k * (2 ^ 54 - margin)) (stepNum k * (2 ^ 54 + margin))
        (windowDen k) (windowStart k) (windowEnd k) ∧
      (windowStart k = windowEnd k ∨
        (windowEnd k).lowNum * (stepDen k * 2 ^ stepBinade k) = stepNum k * (windowEnd k).lowDen ∨
        (k, (windowEnd k).lowNum, (windowEnd k).lowDen) ∈ closeFractions))
    ⟨fun ⟨h₁, h₂, h₃⟩ => ⟨h₁, h₂, h₃⟩, fun ⟨h₁, h₂, h₃⟩ => ⟨h₁, h₂, h₃⟩⟩

/-- All powers of ten that occur have been examined. -/
theorem examined : ∀ n : ℕ, n < 84 → Examined (n - 45) := by
  decide +kernel

/-- The decimals that are close to a middle. -/
def closeCalls : List Decimal := [⟨14077062, -32⟩, ⟨7038531, -32⟩, ⟨25645849, -15⟩]

section

variable {k : ℤ} {c m e : ℕ}

theorem Examined.exponent_le (h : Examined k)
    (hstep : (2 : ℚ) ^ e * (2 ^ 24 - margin) ≤ gridStep .single k * 2 ^ 24) : e ≤ stepBinade k := by
  have hden : (0 : ℚ) < stepDen k := by exact_mod_cast stepDen_pos k
  rw [gridStep_single, div_mul_eq_mul_div, le_div_iff₀ hden] at hstep
  have hbinade : (stepNum k * 2 ^ 24 : ℚ) <
      stepDen k * 2 ^ (stepBinade k + 1) * (2 ^ 24 - margin) := by
    have hlt := Nat.cast_lt (α := ℚ) |>.2 h.lt_binade
    rw [Nat.cast_mul, Nat.cast_mul, Nat.cast_mul, Nat.cast_sub (by decide)] at hlt
    exact_mod_cast hlt
  have hlt : (2 : ℚ) ^ e < 2 ^ (stepBinade k + 1) := by
    refine lt_of_mul_lt_mul_right (a := (2 ^ 24 - margin : ℚ) * stepDen k) ?_ ?_
    · linarith
    · exact mul_nonneg (by norm_num [margin]) hden.le
  exact Nat.lt_succ_iff.1 ((pow_lt_pow_iff_right₀ one_lt_two).1 hlt)

/-- To be close is to be in the window. -/
theorem window_of_close {x y : ℕ} (h : |(x - y : ℚ)| * 2 ^ 54 ≤ margin * x) :
    x * (2 ^ 54 - margin) ≤ y * 2 ^ 54 ∧ y * 2 ^ 54 ≤ x * (2 ^ 54 + margin) := by
  have hunit : (0 : ℚ) < 2 ^ 54 := by positivity
  obtain ⟨habove, hbelow⟩ := abs_sub_le_iff.1 ((le_div_iff₀ hunit).2 h)
  rw [le_div_iff₀ hunit, sub_mul, sub_le_iff_le_add] at habove hbelow
  have habove' : x * 2 ^ 54 ≤ margin * x + y * 2 ^ 54 := by exact_mod_cast habove
  have hbelow' : y * 2 ^ 54 ≤ margin * x + x * 2 ^ 54 := by exact_mod_cast hbelow
  constructor
  · rw [Nat.mul_sub, Nat.mul_comm x margin]
    exact Nat.sub_le_iff_le_add'.2 habove'
  · rw [Nat.mul_add, Nat.mul_comm x margin, Nat.add_comm]
    exact hbelow'

/-- A multiple of the step that is close to a multiple of its power of two is equal to it, or they make
    up a fraction that is listed. -/
theorem Examined.eq_or_mem_closeFractions (h : Examined k) (hc : 0 < c) (hm : m < 2 ^ 25)
    (hclose : |((stepNum k * c : ℕ) - (m * (stepDen k * 2 ^ stepBinade k) : ℕ) : ℚ)| * 2 ^ 54 ≤
      margin * (stepNum k * c : ℕ)) :
    stepNum k * c = m * (stepDen k * 2 ^ stepBinade k) ∨
      ∃ num den, (k, num, den) ∈ closeFractions ∧ m * den = num * c := by
  obtain ⟨habove, hbelow⟩ := window_of_close hclose
  rw [Nat.mul_assoc m, Nat.mul_right_comm] at habove
  rw [Nat.mul_assoc m, Nat.mul_right_comm (stepNum k)] at hbelow
  obtain ⟨hne, hfraction⟩ := h.isolate.eq hc hm habove hbelow
  rcases h.fraction with hempty | hexact | hlisted
  · exact absurd hempty hne
  · left
    refine Nat.eq_of_mul_eq_mul_right h.isolate.adjacent₂.lowDen_pos ?_
    calc stepNum k * c * (windowEnd k).lowDen = stepNum k * (windowEnd k).lowDen * c :=
          Nat.mul_right_comm _ _ _
      _ = (windowEnd k).lowNum * c * (stepDen k * 2 ^ stepBinade k) := by
        rw [← hexact, Nat.mul_right_comm]
      _ = m * (stepDen k * 2 ^ stepBinade k) * (windowEnd k).lowDen := by
        rw [← hfraction, Nat.mul_right_comm]
  · exact .inr ⟨_, _, hlisted, hfraction⟩

/-- A numerator of less than twice that of a fraction in lowest terms is the same. -/
theorem eq_of_fraction {num den C : ℕ} (hcoprime : num.Coprime den) (hpos : 0 < m)
    (hm : m < 2 * num) (h : m * den = num * C) : m = num ∧ C = den := by
  obtain ⟨t, rfl⟩ : num ∣ m := hcoprime.dvd_of_dvd_mul_right ⟨C, h⟩
  have hnum : 0 < num := Nat.pos_of_mul_pos_right hpos
  have ht : 0 < t := Nat.pos_of_mul_pos_left hpos
  have hone : t = 1 := Nat.le_antisymm (by nlinarith) ht
  rw [hone, Nat.mul_one] at h ⊢
  exact ⟨rfl, (Nat.eq_of_mul_eq_mul_left hnum h).symm⟩

/-- The numerator of a fraction that is listed is all of the middle, and so its denominator is a
    coefficient, perhaps with a power of two. -/
theorem mem_closeCalls_of_fraction {num den j : ℕ} (hlisted : (k, num, den) ∈ closeFractions)
    (hm : m < 2 ^ 25) (hodd : m % 2 = 1) (h : m * den = num * (c * 2 ^ j)) : ⟨c, k⟩ ∈ closeCalls := by
  have hlowest : ∀ q ∈ closeFractions, q.2.1.Coprime q.2.2 ∧ 2 ^ 25 ≤ 2 * q.2.1 := by
    decide +kernel
  have hcoprime : num.Coprime den := (hlowest _ hlisted).1
  have hnum : 2 ^ 25 ≤ 2 * num := (hlowest _ hlisted).2
  have hpos : 0 < m := Nat.pos_of_ne_zero fun hzero => by simp [hzero] at hodd
  obtain ⟨rfl, hden⟩ := eq_of_fraction hcoprime hpos (hm.trans_le hnum) h
  simp only [closeFractions, List.mem_cons, List.not_mem_nil, or_false, Prod.mk.injEq] at hlisted
  simp only [closeCalls, List.mem_cons, List.not_mem_nil, or_false, Decimal.mk.injEq]
  rcases hlisted with ⟨rfl, -, rfl⟩ | ⟨rfl, -, rfl⟩ | ⟨-, rfl, -⟩
  · rcases j with _ | _ | j
    · omega
    · omega
    · rw [pow_succ, pow_succ, ← mul_assoc, ← mul_assoc] at hden
      omega
  · rcases j with _ | j
    · omega
    · rw [pow_succ, ← mul_assoc] at hden
      omega
  · exact absurd hodd (by decide)

/-- **A decimal that is close to a middle** is the middle or one of those listed. -/
theorem eq_or_mem_closeCalls (hk : -45 ≤ k ∧ k ≤ 38) (hc : 0 < c) (hm : m < 2 ^ 25) (hodd : m % 2 = 1)
    (hstep : (2 : ℚ) ^ e * (2 ^ 24 - margin) ≤ gridStep .single k * 2 ^ 24)
    (hclose : |c * gridStep .single k - m * 2 ^ e| * 2 ^ 54 ≤ margin * (c * gridStep .single k)) :
    c * gridStep .single k = m * 2 ^ e ∨ ⟨c, k⟩ ∈ closeCalls := by
  have hexamined : Examined k := by
    have h := examined (k + 45).toNat (by omega)
    rwa [Int.toNat_of_nonneg (by omega), add_sub_cancel_right] at h
  obtain ⟨j, hj⟩ := Nat.exists_eq_add_of_le (hexamined.exponent_le hstep)
  -- Both sides are brought to the power of two of the step.
  have hden : (0 : ℚ) < stepDen k := by exact_mod_cast stepDen_pos k
  have hscale : (0 : ℚ) < stepDen k * 2 ^ j := by positivity
  have hdecimal : (c * gridStep .single k) * (stepDen k * 2 ^ j) =
      (stepNum k * (c * 2 ^ j) : ℕ) := by
    rw [gridStep_single]
    push_cast
    field_simp
  have hmiddle : (m * 2 ^ e) * (stepDen k * 2 ^ j : ℚ) =
      (m * (stepDen k * 2 ^ stepBinade k) : ℕ) := by
    rw [hj, pow_add]
    push_cast
    ring
  rw [← mul_le_mul_iff_of_pos_right hscale, mul_right_comm, ← abs_of_pos hscale, ← abs_mul,
    sub_mul, abs_of_pos hscale, mul_assoc (margin : ℚ), hdecimal, hmiddle] at hclose
  rcases hexamined.eq_or_mem_closeFractions (Nat.mul_pos hc (Nat.two_pow_pos j)) hm hclose with
    heq | ⟨num, den, hlisted, hfraction⟩
  · left
    refine mul_right_cancel₀ hscale.ne' ?_
    rw [hdecimal, hmiddle, heq]
  · exact .inr (mem_closeCalls_of_fraction hlisted hm hodd hfraction)

end

end Decimal

end ExactNeighbors
