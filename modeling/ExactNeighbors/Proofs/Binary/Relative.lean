import ExactNeighbors.Proofs.Binary.Error
import ExactNeighbors.Proofs.Binary.Sums
import Mathlib.Analysis.Real.Sqrt

set_option autoImplicit false

/-! # Relative errors

How far a result is from the exact one is told as a fraction of the exact one (`Near`). Such fractions
add up along a chain of operations, up to their products, and a root does not raise them. One
operation is off by half a step of a full significand (`Binary.Rounded.near`,
`Binary.NearRoot.near`).

A sum of terms of either sign has no such bound, for the terms may cancel. It is off by a fraction of
what they would add up to without their signs, once for each of them (`Binary.SumNear`). -/

namespace ExactNeighbors

/-- `x` is off from `y` by a fraction `ε` of it at most. -/
def Near (ε x y : ℝ) : Prop := |x - y| ≤ ε * y

namespace Near

variable {ε δ x y z x' y' : ℝ}

theorem le (h : Near ε x y) : x ≤ (1 + ε) * y := by
  linarith [(abs_le.1 h).2]

theorem ge (h : Near ε x y) : (1 - ε) * y ≤ x := by
  linarith [(abs_le.1 h).1]

theorem pos (h : Near ε x y) (hy : 0 < y) (hε : ε < 1) : 0 < x :=
  (mul_pos (sub_pos.2 hε) hy).trans_le h.ge

theorem pos_of_pos (h : Near ε x y) (hx : 0 < x) (hε : 0 ≤ ε) : 0 < y :=
  pos_of_mul_pos_right (hx.trans_le h.le) (by linarith)

theorem mono (h : Near ε x y) (hy : 0 ≤ y) (hle : ε ≤ δ) : Near δ x y :=
  h.trans (mul_le_mul_of_nonneg_right hle hy)

theorem trans (h : Near ε x y) (h' : Near δ y z) (hε : 0 ≤ ε) : Near (ε + δ + ε * δ) x z :=
  calc |x - z| ≤ |x - y| + |y - z| := abs_sub_le x y z
    _ ≤ ε * y + δ * z := add_le_add h h'
    _ ≤ ε * ((1 + δ) * z) + δ * z := by gcongr; exact h'.le
    _ = (ε + δ + ε * δ) * z := by ring

theorem mul (h : Near ε x y) (h' : Near δ x' y') (hε : 0 ≤ ε) (hy : 0 ≤ y) (hx' : 0 ≤ x') :
    Near (ε + δ + ε * δ) (x * x') (y * y') :=
  calc |x * x' - y * y'| = |(x - y) * x' + y * (x' - y')| := by ring_nf
    _ ≤ |(x - y) * x'| + |y * (x' - y')| := abs_add_le _ _
    _ = |x - y| * x' + y * |x' - y'| := by
      rw [abs_mul, abs_mul, abs_of_nonneg hx', abs_of_nonneg hy]
    _ ≤ ε * y * ((1 + δ) * y') + y * (δ * y') := by
      have hbound := mul_nonneg hε hy
      gcongr
      exacts [h, h'.le, h']
    _ = (ε + δ + ε * δ) * (y * y') := by ring

theorem sqrt (h : Near ε x y) (hx : 0 ≤ x) (hy : 0 ≤ y) : Near ε (√x) (√y) := by
  rcases hy.eq_or_lt with rfl | hpos
  · obtain rfl : x = 0 := by simpa [Near] using h
    simp [Near]
  · have hroot : 0 < √y := Real.sqrt_pos.2 hpos
    refine le_of_mul_le_mul_right ?_ hroot
    calc |√x - √y| * √y ≤ |√x - √y| * (√x + √y) := by
          gcongr
          exact le_add_of_nonneg_left (Real.sqrt_nonneg x)
      _ = |(√x - √y) * (√x + √y)| := by
          rw [abs_mul, abs_of_nonneg (add_nonneg (Real.sqrt_nonneg x) hroot.le)]
      _ = |x - y| := by
          rw [mul_comm, ← mul_self_sub_mul_self, Real.mul_self_sqrt hx, Real.mul_self_sqrt hy]
      _ ≤ ε * y := h
      _ = ε * √y * √y := by rw [mul_assoc, Real.mul_self_sqrt hy]

/-- A quotient whose dividend is off by a fraction of the exact divisor, and not above it. -/
theorem div_sub_div_le (h : Near δ x y) (hy : 0 < y) (hδ : δ < 1) (hx' : |x' - y'| ≤ ε * y)
    (hy' : |y'| ≤ y) : |x' / x - y' / y| ≤ (ε + δ) / (1 - δ) := by
  have hlow : (1 - δ) * y ≤ x := h.ge
  have hx : 0 < x := h.pos hy hδ
  have hcross : |x' * y - x * y'| ≤ (ε + δ) * y * y :=
    calc |x' * y - x * y'| = |(x' - y') * y - y' * (x - y)| := by ring_nf
      _ ≤ |(x' - y') * y| + |y' * (x - y)| := abs_sub _ _
      _ = |x' - y'| * y + |y'| * |x - y| := by rw [abs_mul, abs_mul, abs_of_pos hy]
      _ ≤ ε * y * y + y * (δ * y) := by gcongr; exact h
      _ = (ε + δ) * y * y := by ring
  have hsum : 0 ≤ ε + δ := by
    have hsquare := (abs_nonneg _).trans hcross
    rw [mul_assoc] at hsquare
    exact nonneg_of_mul_nonneg_left hsquare (mul_pos hy hy)
  rw [div_sub_div _ _ hx.ne' hy.ne', abs_div, abs_of_pos (mul_pos hx hy),
    div_le_div_iff₀ (mul_pos hx hy) (sub_pos.2 hδ)]
  calc |x' * y - x * y'| * (1 - δ) ≤ (ε + δ) * y * y * (1 - δ) := by
        have hrest := (sub_pos.2 hδ).le
        gcongr
    _ = (ε + δ) * (((1 - δ) * y) * y) := by ring
    _ ≤ (ε + δ) * (x * y) := by gcongr

end Near

/-! ## One operation -/

/-- Half a step of the least full significand, as a fraction of it. -/
noncomputable def Format.halfStep (f : Format) : ℝ := 1 / (2 * f.leading)

theorem Format.halfStep_pos (f : Format) : 0 < f.halfStep := by
  have hleading : (0 : ℝ) < f.leading := by exact_mod_cast f.leading_pos
  exact one_div_pos.2 (by linarith)

theorem Format.halfStep_single : Format.single.halfStep = 1 / 2 ^ 24 := by
  rw [Format.halfStep, Format.leading_eq_two_pow]
  norm_num [Format.single]

theorem Format.halfStep_double : Format.double.halfStep = 1 / 2 ^ 53 := by
  rw [Format.halfStep, Format.leading_eq_two_pow]
  norm_num [Format.double]

namespace Binary

variable {f : Format} {x y z : Binary f} {r : ℚ}

theorem Rounded.near (h : Rounded r z) (hz : z.isFinite = true) (hr : 0 < r)
    (full : f.units f.leading ≤ r * 2 ^ f.scale) : Near f.halfStep z.value r := by
  have hleading : (0 : ℝ) < 2 * f.leading := by exact_mod_cast Nat.mul_pos Nat.two_pos f.leading_pos
  have herror : |(z.value - r : ℝ)| * (2 * f.leading) ≤ r := by
    exact_mod_cast h.error_le hz hr full
  rwa [Near, Format.halfStep, one_div_mul_eq_div, le_div_iff₀ hleading]

/-- A small number is off by half a step of its own, or of one that is negligible. -/
theorem Rounded.close [f.Regular] (h : Rounded r z) (hr : |(r : ℝ)| ≤ 4) (hrange : 2 < f.range)
    (deep : 2 * f.fractionBits + 102 ≤ f.scale) :
    z.isFinite = true ∧ |(z.value - r : ℝ)| ≤ f.halfStep * (|(r : ℝ)| + 1 / 2 ^ 100) := by
  have hfinite : z.isFinite = true := by
    refine (h.bounded hrange ?_).finite
    have hcast : ((|r| : ℚ) : ℝ) ≤ (2 ^ 2 : ℚ) := by
      push_cast
      linarith
    exact_mod_cast hcast
  have hleading : (0 : ℝ) < 2 * f.leading := by exact_mod_cast Nat.mul_pos Nat.two_pos f.leading_pos
  have herror : |(z.value - r : ℝ)| * (2 * f.leading) ≤
      |(r : ℝ)| + 4 * (f.leading : ℝ) ^ 2 / 2 ^ f.scale := by
    have hcast := (Rat.cast_le (K := ℝ)).2 (h.error_le_add hfinite)
    push_cast at hcast
    exact hcast
  have hsmall : 4 * (f.leading : ℝ) ^ 2 / 2 ^ f.scale ≤ 1 / 2 ^ 100 := by
    rw [div_le_div_iff₀ (by positivity) (by positivity), f.leading_eq_two_pow, one_mul]
    calc 4 * ((2 ^ f.fractionBits : ℕ) : ℝ) ^ 2 * 2 ^ 100 = 2 ^ (2 * f.fractionBits + 102) := by
          push_cast
          ring
      _ ≤ 2 ^ f.scale := pow_le_pow_right₀ one_le_two deep
  refine ⟨hfinite, ?_⟩
  rw [Format.halfStep, one_div_mul_eq_div, le_div_iff₀ hleading]
  exact herror.trans (by gcongr)

/-- What a square root rounds is as near to the root as what is rounded once. -/
theorem NearRoot.near (h : NearRoot x r) : Near f.halfStep r √(x.value : ℝ) := by
  have hleading : (1 : ℝ) ≤ f.leading := by exact_mod_cast f.leading_pos
  have hr : (0 : ℝ) < r := by exact_mod_cast h.pos
  have hlower : (x.value * (2 * f.leading) ^ 2 : ℝ) ≤ (r * (2 * f.leading + 1)) ^ 2 := by
    rw [mul_pow (r : ℝ)]
    exact_mod_cast h.lower
  have hupper : ((r * (2 * f.leading)) ^ 2 : ℝ) ≤ x.value * (2 * f.leading + 1) ^ 2 := by
    rw [mul_pow (r : ℝ)]
    exact_mod_cast h.upper
  have hroot (c : ℝ) (hc : 0 ≤ c) : √(x.value * c ^ 2) = √(x.value : ℝ) * c := by
    rw [Real.sqrt_mul' _ (sq_nonneg c), Real.sqrt_sq hc]
  have hlow : √(x.value : ℝ) * (2 * f.leading) ≤ r * (2 * f.leading + 1) := by
    rw [← hroot _ (by linarith)]
    exact Real.sqrt_le_iff.2 ⟨by positivity, hlower⟩
  have hhigh : r * (2 * f.leading) ≤ √(x.value : ℝ) * (2 * f.leading + 1) := by
    rw [← hroot _ (by linarith)]
    exact Real.le_sqrt_of_sq_le hupper
  have hpos : (0 : ℝ) < 2 * f.leading := by linarith
  rw [Near, Format.halfStep, one_div_mul_eq_div, abs_sub_le_iff, le_div_iff₀ hpos, le_div_iff₀ hpos]
  refine ⟨by linarith, le_of_mul_le_mul_right ?_ hpos⟩
  -- The bound from below is a fraction of what is rounded and is turned into one of the root.
  have hscaled : √(x.value : ℝ) * (2 * f.leading) * (2 * f.leading - 1) ≤
      r * (2 * f.leading + 1) * (2 * f.leading - 1) := by
    gcongr
    linarith
  linarith

/-! ## Sums -/

/-- A sum of `n` terms that add up to `exact`, and to `weight` without their signs. -/
structure SumNear (n : ℕ) (exact weight : ℚ) (sum : Binary f) : Prop where
  error_le : |sum.value - exact| * f.leading ≤ n * weight
  exact_le : |exact| ≤ weight

theorem SumNear.zero (negative : Bool) : SumNear 0 0 0 (zero negative : Binary f) :=
  ⟨by simp, abs_zero.le⟩

variable [f.Regular] {n : ℕ} {exact weight : ℚ} {sum : Binary f}

theorem SumNear.add (h : SumNear n exact weight x) (short : n ≤ f.leading)
    (hx : x.isFinite = true) (hy : y.isFinite = true) (hsum : (x + y).isFinite = true) :
    SumNear (n + 1) (exact + y.value) (weight + y.size) (x + y) := by
  have hleading : (0 : ℚ) < f.leading := by exact_mod_cast f.leading_pos
  have hshort : (n : ℚ) ≤ f.leading := by exact_mod_cast short
  have hexact : |exact + y.value| ≤ weight + y.size :=
    (abs_add_le _ _).trans (add_le_add h.exact_le y.abs_value.le)
  have hweight : 0 ≤ weight := (abs_nonneg _).trans h.exact_le
  have hsize := y.size_nonneg
  -- What has been lost so far is no more than the weight of the terms.
  have hbefore : |x.value - exact| ≤ weight := by
    refine le_of_mul_le_mul_right (h.error_le.trans ?_) hleading
    rw [mul_comm weight]
    gcongr
  have hpartial : |x.value + y.value| ≤ 2 * (weight + y.size) :=
    calc |x.value + y.value| = |(exact + y.value) + (x.value - exact)| := by congr 1; ring
      _ ≤ |exact + y.value| + |x.value - exact| := abs_add_le _ _
      _ ≤ 2 * (weight + y.size) := by linarith
  refine ⟨?_, hexact⟩
  calc |(x + y).value - (exact + y.value)| * f.leading
      = |((x + y).value - (x.value + y.value)) + (x.value - exact)| * f.leading := by
        congr 2
        ring
    _ ≤ (|(x + y).value - (x.value + y.value)| + |x.value - exact|) * f.leading := by
        gcongr
        exact abs_add_le _ _
    _ = |(x + y).value - (x.value + y.value)| * (2 * f.leading) / 2 +
          |x.value - exact| * f.leading := by ring
    _ ≤ (weight + y.size) + n * weight := by
        have hlast := (add_error_le hx hy hsum).trans hpartial
        linarith [h.error_le]
    _ ≤ ((n + 1 : ℕ) : ℚ) * (weight + y.size) := by
        push_cast
        linarith [mul_nonneg (Nat.cast_nonneg n) hsize]

/-- **A sum is off by little for each of its terms**, whatever their signs. -/
theorem SumNear.foldl_add {k : ℕ} (hk : f.fractionBits + 1 + k < f.range) {terms : List (Binary f)}
    (hterms : ∀ t ∈ terms, Bounded k t) (hbounded : Bounded (f.fractionBits + 1 + k) sum)
    (h : SumNear n exact weight sum) (short : n + terms.length ≤ f.leading) :
    SumNear (n + terms.length) (exact + (terms.map value).sum) (weight + (terms.map size).sum)
      (terms.foldl (· + ·) sum) := by
  induction terms generalizing n exact weight sum with
  | nil => simpa using h
  | cons t ts ih =>
      obtain ⟨ht, hts⟩ := List.forall_mem_cons.1 hterms
      have hnext := hbounded.add hk ht
      rw [List.length_cons] at short
      have hstep := h.add (by omega) hbounded.finite ht.finite hnext.finite
      have hrest := ih hts hnext hstep (by omega)
      rw [List.map_cons, List.map_cons, List.sum_cons, List.sum_cons, ← add_assoc, ← add_assoc,
        List.length_cons, ← Nat.succ_add_eq_add_succ]
      exact hrest

end Binary

end ExactNeighbors
