import ExactNeighbors.Decimal.Shortest
import ExactNeighbors.Proofs.Binary.Value

set_option autoImplicit false

/-! # What the shortest decimal is

Three things are said of the decimal that is written for a number (`Decimal.ShortestIn`). It is rounded
to the number. It is one of the two points of its grid beside the number, so no farther from it than a
step. And the next coarser grid, which was tried before, was too coarse: a step of it spans the
interval of all that is rounded to the number. The last bounds the coefficient, as the interval is not
narrow in comparison with the number.

All of it is shown along the search (`Decimal.shortestIn_search`), which keeps the third while it goes
from one grid to the next finer. -/

namespace ExactNeighbors

/-! ## Rounding, by the middles on either side -/

namespace Format

variable {f : Format} {x : ℚ} {p q : ℕ}

theorem middle_strictMono (f : Format) : StrictMono f.middle :=
  strictMono_nat_of_lt_succ fun q => (f.middle_lt_units q).trans (f.units_lt_middle (q + 1))

theorem Passed.anti {q' : ℕ} (h : f.Passed q x) (hq : q' ≤ q) : f.Passed q' x := by
  rcases hq.lt_or_eq with hlt | rfl
  · exact Or.inl ((f.middle_strictMono hlt).trans_le h.middle_le)
  · exact h

/-- Only the middles on either side of a magnitude decide whether a number is rounded to it. -/
theorem rounds_of_middles (hp : p ≤ f.infinity) (above : ∀ q, q + 1 = p → f.Passed q x)
    (below : p < f.infinity → ¬ f.Passed p x) : f.Rounds x p where
  le_infinity := hp
  lt_iff q hq := by
    constructor
    · intro hlt
      obtain ⟨j, rfl⟩ := Nat.exists_eq_add_of_lt hlt
      exact (above (q + j) rfl).anti (Nat.le_add_right q j)
    · intro hpassed
      by_contra hle
      exact below ((not_lt.1 hle).trans_lt hq) (hpassed.anti (not_lt.1 hle))

/-- A number that is nearer to another than that is to a middle is on the same side. -/
theorem passed_iff_of_near {y : ℚ} (h : |y - x| < |x - f.middle q|) :
    f.Passed q y ↔ f.Passed q x := by
  rcases lt_or_ge x (f.middle q) with hx | hx
  · rw [abs_of_neg (sub_neg.2 hx)] at h
    have hy : y < f.middle q := by linarith [le_abs_self (y - x)]
    exact iff_of_false (fun hp => hy.not_ge hp.middle_le) (fun hp => hx.not_ge hp.middle_le)
  · rw [abs_of_nonneg (sub_nonneg.2 hx)] at h
    have hy : f.middle q < y := by linarith [neg_abs_le (y - x)]
    have hx' : f.middle q < x := by linarith [abs_nonneg (y - x)]
    exact iff_of_true (.inl hy) (.inl hx')

/-- In half units a middle is an odd number of steps. -/
theorem two_mul_middle (f : Format) (p : ℕ) :
    2 * f.middle p = (2 * f.significand p + 1) * 2 ^ f.exponent p := by
  obtain ⟨hgrid, hfields⟩ := f.isGrid_fields p
  have hmiddle := middle_grid hgrid
  rw [← hfields] at hmiddle
  rw [hmiddle]
  ring

/-- Significands are even and odd in turn. -/
theorem significand_mod_two (heven : f.leading % 2 = 0) (p : ℕ) :
    f.significand p % 2 = p % 2 := by
  obtain ⟨-, hfields⟩ := f.isGrid_fields p
  obtain ⟨l, hl⟩ := Nat.dvd_of_mod_eq_zero heven
  rw [hl, Nat.mul_left_comm] at hfields
  omega

end Format

namespace Decimal

/-! ## The interval -/

namespace ReadBack

variable {r : ReadBack} {x : ℚ}

/-- Whether the interval has so many half units in it. -/
def Contains (r : ReadBack) (x : ℚ) : Prop :=
  if r.closed then r.low ≤ x ∧ x ≤ r.high else r.low < x ∧ x < r.high

theorem holds_iff {num den : ℕ} (hden : 0 < den) :
    r.holds num den = true ↔ r.Contains (num / den) := by
  have hden' : (0 : ℚ) < den := by exact_mod_cast hden
  rw [holds, Contains]
  split
  · rw [Bool.and_eq_true, decide_eq_true_iff, decide_eq_true_iff, le_div_iff₀ hden',
      div_le_iff₀ hden']
    norm_cast
  · rw [Bool.and_eq_true, decide_eq_true_iff, decide_eq_true_iff, lt_div_iff₀ hden',
      div_lt_iff₀ hden']
    norm_cast

theorem Contains.bounds (h : r.Contains x) : r.low ≤ x ∧ x ≤ r.high := by
  rw [Contains] at h
  split at h
  · exact h
  · exact ⟨h.1.le, h.2.le⟩

theorem contains_of_lt (hlow : r.low < x) (hhigh : x < r.high) : r.Contains x := by
  rw [Contains]
  split
  · exact ⟨hlow.le, hhigh.le⟩
  · exact ⟨hlow, hhigh⟩

theorem le_of_not_contains (h : ¬ r.Contains x) : x ≤ r.low ∨ r.high ≤ x := by
  by_contra hin
  rw [not_or, not_le, not_le] at hin
  exact h (contains_of_lt hin.1 hin.2)

end ReadBack

/-! ## The search -/

section Search

variable {f : Format} {tie : Tie} {r : ReadBack}

theorem ten_zpow_eq (k : ℤ) : (10 : ℚ) ^ k = 10 ^ k.toNat / 10 ^ (-k).toNat := by
  rcases le_total 0 k with h | h
  · rw [Int.toNat_of_nonpos (neg_nonpos.2 h), pow_zero, div_one, ← zpow_natCast,
      Int.toNat_of_nonneg h]
  · rw [Int.toNat_of_nonpos h, pow_zero, one_div, ← zpow_natCast,
      Int.toNat_of_nonneg (neg_nonneg.2 h), zpow_neg, inv_inv]

/-- The distance of neighboring points of a grid in half units. -/
def gridStep (f : Format) (exponent : ℤ) : ℚ := 10 ^ exponent * 2 ^ (f.scale + 1)

theorem gridStep_pos (f : Format) (exponent : ℤ) : 0 < gridStep f exponent :=
  mul_pos (zpow_pos (by norm_num) exponent) (by positivity)

/-- The search compares with the points of the grid on either side of the number. -/
theorem exists_points_beside (f : Format) (r : ReadBack) (exponent : ℤ) :
    ∃ below : ℕ, below * gridStep f exponent ≤ r.value ∧
      r.value < (below + 1 : ℕ) * gridStep f exponent ∧
      ∀ tie, match onGrid? f tie r exponent with
        | some c => (c = below ∨ c = below + 1) ∧ r.Contains (c * gridStep f exponent)
        | none => ¬ r.Contains (below * gridStep f exponent) ∧
          ¬ r.Contains ((below + 1 : ℕ) * gridStep f exponent) := by
  have hstep : gridStep f exponent =
      (Nat.pow 10 exponent.toNat <<< (f.scale + 1) : ℕ) / (Nat.pow 10 (-exponent).toNat : ℕ) := by
    rw [gridStep, ten_zpow_eq, Nat.shiftLeft_eq]
    push_cast [Nat.pow_eq]
    ring
  unfold onGrid?
  have hnum : 0 < Nat.pow 10 exponent.toNat <<< (f.scale + 1) := by
    rw [Nat.shiftLeft_eq]
    exact Nat.mul_pos (Nat.pow_pos (by decide)) (Nat.two_pow_pos _)
  have hden : 0 < Nat.pow 10 (-exponent).toNat := Nat.pow_pos (by decide)
  generalize Nat.pow 10 exponent.toNat <<< (f.scale + 1) = num at *
  generalize Nat.pow 10 (-exponent).toNat = den at *
  have hden' : (0 : ℚ) < den := by exact_mod_cast hden
  have hpoint (c : ℕ) : c * gridStep f exponent = (c * num : ℕ) / den := by
    rw [hstep, Nat.cast_mul, mul_div_assoc]
  have hholds (c : ℕ) : r.holds (c * num) den = true ↔ r.Contains (c * gridStep f exponent) := by
    rw [ReadBack.holds_iff hden, hpoint]
  refine ⟨r.value * den / num, ?_, ?_, fun tie => ?_⟩
  · rw [hpoint, div_le_iff₀ hden']
    exact_mod_cast Nat.div_mul_le_self _ _
  · rw [hpoint, lt_div_iff₀ hden']
    exact_mod_cast (Nat.div_lt_iff_lt_mul hnum).1 (Nat.lt_succ_self _)
  · dsimp only
    generalize r.value * den / num = below at *
    have hbelow := hholds below
    have habove := hholds (below + 1)
    generalize r.holds (below * num) den = b at *
    generalize r.holds ((below + 1) * num) den = a at *
    cases b with
    | false =>
        have hnotBelow := mt hbelow.2 Bool.false_ne_true
        cases a with
        | false => exact ⟨hnotBelow, mt habove.2 Bool.false_ne_true⟩
        | true => exact ⟨Or.inr rfl, habove.1 rfl⟩
    | true =>
        have hinBelow : (below = below ∨ below = below + 1) ∧ _ := ⟨Or.inl rfl, hbelow.1 rfl⟩
        cases a with
        | false => exact hinBelow
        | true =>
            have hinAbove : (below + 1 = below ∨ below + 1 = below + 1) ∧ _ :=
              ⟨Or.inr rfl, habove.1 rfl⟩
            cases compare (2 * (r.value * den - below * num)) num with
            | lt => exact hinBelow
            | gt => exact hinAbove
            | eq =>
                have hpick : (if tie = .toEven then below + below % 2 else below + 1) = below ∨
                    (if tie = .toEven then below + below % 2 else below + 1) = below + 1 := by
                  split <;> omega
                dsimp only
                generalize (if tie = .toEven then below + below % 2 else below + 1) = c at *
                rcases hpick with rfl | rfl
                · exact hinBelow
                · exact hinAbove

/-- What is found for the interval of a number. -/
structure ShortestIn (f : Format) (r : ReadBack) (d : Decimal) : Prop where
  /-- It reads back. -/
  contains : r.Contains (d.coefficient * gridStep f d.exponent)
  /-- It is one of the points beside the number. -/
  near : |d.coefficient * gridStep f d.exponent - r.value| ≤ gridStep f d.exponent
  /-- The next coarser grid has no point that reads back. -/
  coarse : (r.high : ℚ) - r.low ≤ gridStep f (d.exponent + 1)

theorem gridStep_succ (f : Format) (exponent : ℤ) :
    gridStep f (exponent + 1) = 10 * gridStep f exponent := by
  rw [gridStep, gridStep, zpow_add_one₀ (by norm_num)]
  ring

/-- The finest grid has the number itself. -/
theorem finest_eq (f : Format) {value : ℕ} (heven : value % 2 = 0) :
    ((value / 2 * Nat.pow 5 f.scale : ℕ) : ℚ) * gridStep f (-f.scale) = value := by
  obtain ⟨half, rfl⟩ := Nat.dvd_of_mod_eq_zero heven
  have hten : (10 : ℚ) ^ f.scale = 2 ^ f.scale * 5 ^ f.scale := by
    rw [← mul_pow]
    norm_num
  rw [Nat.mul_div_cancel_left half two_pos, gridStep, zpow_neg, zpow_natCast, hten, pow_succ]
  push_cast [Nat.pow_eq]
  field_simp

/-- **The search keeps to grids that the one before was too coarse for.** -/
theorem shortestIn_search (heven : r.value % 2 = 0) (hlow : r.low < r.value)
    (hhigh : r.value < r.high) {fuel : ℕ}
    (coarse : (r.high : ℚ) - r.low ≤ gridStep f ((fuel - f.scale : ℤ) + 1)) :
    ShortestIn f r (search f tie r fuel) := by
  have hlow' : (r.low : ℚ) < r.value := by exact_mod_cast hlow
  have hhigh' : (r.value : ℚ) < r.high := by exact_mod_cast hhigh
  induction fuel with
  | zero =>
      have hvalue := finest_eq f heven
      refine ⟨?_, ?_, ?_⟩
      · rw [search, hvalue]
        exact ReadBack.contains_of_lt hlow' hhigh'
      · rw [search, hvalue, sub_self, abs_zero]
        exact (gridStep_pos _ _).le
      · rwa [Nat.cast_zero, zero_sub] at coarse
  | succ n ih =>
      have hnext : ((n : ℕ) - f.scale : ℤ) + 1 = (n + 1 : ℕ) - f.scale := by
        push_cast
        ring
      rw [hnext] at ih
      rw [search]
      generalize ((n + 1 : ℕ) - f.scale : ℤ) = exponent at *
      obtain ⟨below, hle, hlt, hgrid⟩ := exists_points_beside f r exponent
      replace hgrid := hgrid tie
      have hstep := gridStep_pos f exponent
      rw [Nat.cast_succ] at hlt
      cases hfound : onGrid? f tie r exponent with
      | none =>
          rw [hfound, Nat.cast_succ] at hgrid
          have hbelow := (ReadBack.le_of_not_contains hgrid.1).resolve_right (by linarith)
          have habove := (ReadBack.le_of_not_contains hgrid.2).resolve_left (by linarith)
          exact ih (by linarith)
      | some c =>
          rw [hfound] at hgrid
          obtain ⟨hc, hcontains⟩ := hgrid
          refine ⟨hcontains, abs_le.2 ?_, coarse⟩
          dsimp only
          rcases hc with rfl | rfl
          · constructor <;> linarith
          · rw [Nat.cast_succ]
            constructor <;> linarith

/-- **The shortest decimal of a number** is found for its interval. -/
theorem shortestIn_shortest (f : Format) (tie : Tie) {p : ℕ} (hp : 0 < p) :
    ShortestIn f (.of f p) (shortest f tie p) := by
  have hbelow : f.units (p - 1) < f.units p := f.units_strictMono (Nat.sub_lt hp Nat.one_pos)
  have habove : f.units p < f.units (p + 1) := f.units_strictMono p.lt_succ_self
  rw [shortest, if_neg hp.ne']
  refine shortestIn_search (Nat.mul_mod_right 2 _) ?_ ?_ ?_
  · change f.units (p - 1) + f.units p < 2 * f.units p
    omega
  · change 2 * f.units p < f.units p + f.units (p + 1)
    omega
  · generalize ReadBack.of f p = r
    generalize hlog : (r.high >>> f.scale).log2 = log
    have hhigh : r.high < 2 ^ (log + 1) * 2 ^ f.scale := by
      have hlt : r.high >>> f.scale < 2 ^ (log + 1) := hlog ▸ Nat.lt_log2_self
      rwa [Nat.shiftRight_eq_div_pow, Nat.div_lt_iff_lt_mul (Nat.two_pow_pos _)] at hlt
    have hexponent : ((f.scale + log + 1 : ℕ) - f.scale : ℤ) + 1 = (log + 2 : ℕ) := by
      push_cast
      ring
    rw [hexponent, gridStep, zpow_natCast]
    calc (r.high : ℚ) - r.low ≤ r.high := sub_le_self _ (Nat.cast_nonneg _)
      _ ≤ 2 ^ (log + 1) * 2 ^ f.scale := by exact_mod_cast hhigh.le
      _ ≤ 10 ^ (log + 2) * 2 ^ (f.scale + 1) := by
        gcongr ?_ * ?_
        · exact (pow_le_pow_left₀ two_pos.le (by norm_num) _).trans
            (pow_le_pow_right₀ (by norm_num) (by omega))
        · exact pow_le_pow_right₀ one_le_two (by omega)

end Search

/-! ## What follows for the decimal -/

section Bounds

variable {f : Format} {p : ℕ} {x : ℚ}

theorem low_eq (f : Format) {p : ℕ} (hp : 0 < p) :
    ((ReadBack.of f p).low : ℚ) = 2 * f.middle (p - 1) := by
  rw [Format.middle, Nat.sub_add_cancel hp, mul_div_cancel₀ _ two_ne_zero]
  exact Nat.cast_add _ _

theorem high_eq (f : Format) (p : ℕ) : ((ReadBack.of f p).high : ℚ) = 2 * f.middle p := by
  rw [Format.middle, mul_div_cancel₀ _ two_ne_zero]
  exact Nat.cast_add _ _

/-- What the interval of a number has in it is rounded to the number. -/
theorem rounds_of_contains [f.Regular] (hp : 0 < p) (hfinite : p < f.infinity)
    (h : (ReadBack.of f p).Contains (2 * x)) : f.Rounds x p := by
  have hparity := f.significand_mod_two Format.Regular.leading_even
  have hpassed : f.Passed (p - 1) x ∧ ¬ f.Passed p x := by
    rw [ReadBack.Contains, low_eq f hp, high_eq] at h
    rw [Format.Passed, Format.Passed, hparity, hparity]
    have hclosed : (ReadBack.of f p).closed = decide (p % 2 = 0) := by rw [← hparity]; rfl
    rw [hclosed] at h
    by_cases hodd : p % 2 = 0
    · rw [if_pos (decide_eq_true hodd)] at h
      obtain ⟨hlow, hhigh⟩ := h
      refine ⟨(lt_or_eq_of_le (by linarith)).imp_right fun heq => ⟨heq, by omega⟩, ?_⟩
      rintro (hpast | ⟨-, hodd'⟩)
      · linarith
      · omega
    · rw [if_neg (by simpa using hodd)] at h
      obtain ⟨hlow, hhigh⟩ := h
      refine ⟨Or.inl (by linarith), ?_⟩
      rintro (hpast | ⟨heq, -⟩) <;> linarith
  refine Format.rounds_of_middles hfinite.le ?_ fun _ => hpassed.2
  rintro q rfl
  exact hpassed.1

variable {d : Decimal}

theorem ShortestIn.coefficient_pos (h : ShortestIn f (.of f p) d) (hp : 0 < p) :
    0 < d.coefficient := by
  have hlow : (0 : ℚ) < (ReadBack.of f p).low := by
    have hunits : 0 < f.units p := f.units_zero ▸ f.units_strictMono hp
    exact_mod_cast Nat.add_pos_right _ hunits
  refine Nat.pos_of_ne_zero fun hzero => ?_
  have hle := h.contains.bounds.1
  rw [hzero, Nat.cast_zero, zero_mul] at hle
  exact absurd hlow hle.not_gt

/-- The interval is wider than a step of the format, so the next coarser grid is coarser still. -/
theorem ShortestIn.step_lt (h : ShortestIn f (.of f p) d) (hp : 0 < p) :
    (2 : ℚ) ^ f.exponent p + 1 ≤ 10 * gridStep f d.exponent := by
  have hwidth : (2 : ℚ) ^ f.exponent p + 1 ≤ (ReadBack.of f p).high - (ReadBack.of f p).low := by
    have hbelow : f.units (p - 1) < f.units p := f.units_strictMono (Nat.sub_lt hp Nat.one_pos)
    have hnext := f.units_succ p
    rw [le_sub_iff_add_le]
    have hsum : 2 ^ f.exponent p + 1 + (f.units (p - 1) + f.units p) ≤
        f.units p + f.units (p + 1) := by
      omega
    exact_mod_cast hsum
  exact (hwidth.trans h.coarse).trans_eq (gridStep_succ f d.exponent)

/-- The coefficient has hardly more digits than the significand. -/
theorem ShortestIn.coefficient_le (h : ShortestIn f (.of f p) d) (hp : 0 < p) :
    d.coefficient ≤ 10 * (2 * f.significand p + 1) := by
  have hhigh : ((ReadBack.of f p).high : ℚ) = (2 * f.significand p + 1) * 2 ^ f.exponent p := by
    rw [high_eq, f.two_mul_middle]
  have hstep := gridStep_pos f d.exponent
  have hle : d.coefficient * gridStep f d.exponent ≤
      10 * (2 * f.significand p + 1) * gridStep f d.exponent := by
    calc d.coefficient * gridStep f d.exponent ≤ (2 * f.significand p + 1) * 2 ^ f.exponent p :=
          hhigh ▸ h.contains.bounds.2
      _ ≤ (2 * f.significand p + 1) * (10 * gridStep f d.exponent) := by
        gcongr
        exact (le_add_of_nonneg_right zero_le_one).trans (h.step_lt hp)
      _ = 10 * (2 * f.significand p + 1) * gridStep f d.exponent := by ring
  exact_mod_cast le_of_mul_le_mul_right hle hstep

/-- The decimal is within the range. -/
theorem ShortestIn.le_range [f.Regular] (h : ShortestIn f (.of f p) d) (hfinite : p < f.infinity) :
    d.coefficient * gridStep f d.exponent ≤ 2 ^ f.range * 2 ^ (f.scale + 1) := by
  have hunits : f.units (p + 1) ≤ 2 ^ (f.scale + f.range) := by
    rw [← f.units_infinity]
    exact f.units_strictMono.monotone hfinite
  calc d.coefficient * gridStep f d.exponent ≤ (ReadBack.of f p).high := h.contains.bounds.2
    _ = 2 * f.middle p := high_eq f p
    _ ≤ 2 * f.units (p + 1) := mul_le_mul_of_nonneg_left (f.middle_lt_units p).le two_pos.le
    _ ≤ 2 * 2 ^ (f.scale + f.range) :=
      mul_le_mul_of_nonneg_left (by exact_mod_cast hunits) two_pos.le
    _ = 2 ^ f.range * 2 ^ (f.scale + 1) := by ring

/-- Which powers of ten occur: no step passes the range, and one that is ten times as large reaches
    the least number. -/
theorem ShortestIn.exponent_bounds [f.Regular] (h : ShortestIn f (.of f p) d) (hp : 0 < p)
    (hfinite : p < f.infinity) :
    (2 : ℚ) ≤ 10 ^ (d.exponent + 1) * 2 ^ (f.scale + 1) ∧ (10 : ℚ) ^ d.exponent ≤ 2 ^ f.range := by
  constructor
  · have hle := h.step_lt hp
    have hone : (1 : ℚ) ≤ 2 ^ f.exponent p := one_le_pow₀ one_le_two
    rw [← gridStep_succ, gridStep] at hle
    linarith
  · have hone : (1 : ℚ) ≤ d.coefficient := by exact_mod_cast h.coefficient_pos hp
    have hstep := gridStep_pos f d.exponent
    have hle : gridStep f d.exponent ≤ 2 ^ f.range * 2 ^ (f.scale + 1) :=
      (le_mul_of_one_le_left hstep.le hone).trans (h.le_range hfinite)
    exact le_of_mul_le_mul_right hle (by positivity)

end Bounds

end Decimal

end ExactNeighbors
