import ExactNeighbors.Proofs.Binary.Relative
import ExactNeighbors.Proofs.Point.Scaling
import Mathlib.Algebra.BigOperators.Fin

set_option autoImplicit false

/-! # What the cosine distance is

The reference form of the cosine distance rounds each sum on its way to the inner product and the two
norms, and a few times after that. The result is one less the cosine all the same, but for half a step
of a single and a few steps of a double for each component (`Metric.distance_cosine_near`). Components
may be of any size, and their products may cancel: the inner product is off by a fraction of what its
terms add up to without their signs, and that is not above the product of the norms. -/

namespace ExactNeighbors

namespace Point

variable {a b : Point}

/-! ## The exact cosine -/

/-- The inner product without rounding. -/
def exactDot (a b : Point) : ℚ := (List.zipWith (fun x y => x.value * y.value) a b).sum

/-- What the terms of the inner product add up to without their signs. -/
def exactWeight (a b : Point) : ℚ := (List.zipWith (fun x y => x.size * y.size) a b).sum

/-- The cosine of the angle between two points. -/
noncomputable def cosine (a b : Point) : ℝ :=
  exactDot a b / (√(exactDot a a) * √(exactDot b b))

theorem exactDot_self (a : Point) : exactDot a a = (a.map fun x => x.size ^ 2).sum := by
  simp only [exactDot, List.zipWith_self, ← Binary.abs_value, sq_abs, ← sq]

theorem exactWeight_self (a : Point) : exactWeight a a = exactDot a a := by
  simp only [exactDot_self, exactWeight, List.zipWith_self, ← sq]

/-- **The terms of an inner product add up to no more than the product of the norms**, signs aside. -/
theorem exactWeight_sq_le (length : a.length = b.length) :
    exactWeight a b ^ 2 ≤ exactDot a a * exactDot b b := by
  obtain ⟨pairs, rfl, rfl⟩ : ∃ pairs : List (Single × Single),
      a = pairs.map Prod.fst ∧ b = pairs.map Prod.snd :=
    ⟨a.zip b, (List.map_fst_zip length.le).symm, (List.map_snd_zip length.ge).symm⟩
  simp only [exactDot_self, exactWeight, List.zipWith_map, List.zipWith_self, List.map_map,
    ← Fin.sum_univ_fun_getElem]
  exact Finset.sum_mul_sq_le_sq_mul_sq _ _ _

theorem exactDot_self_nonneg (a : Point) : (0 : ℝ) ≤ exactDot a a := by
  rw [exactDot_self]
  exact_mod_cast List.sum_nonneg (List.forall_mem_map.2 fun x _ => sq_nonneg (Binary.size x))

theorem exactWeight_le (length : a.length = b.length) :
    (exactWeight a b : ℝ) ≤ √(exactDot a a) * √(exactDot b b) := by
  rw [← Real.sqrt_mul (exactDot_self_nonneg a)]
  refine Real.le_sqrt_of_sq_le ?_
  exact_mod_cast exactWeight_sq_le length

/-! ## Inner products -/

/-- What an inner product of so many components is off by, as a fraction of the product of the
    norms. -/
noncomputable def drift (n : ℕ) : ℝ := n / Format.double.leading

theorem drift_eq (n : ℕ) : drift n = n / 2 ^ 52 := by
  rw [drift, Format.leading_eq_two_pow]
  norm_num [Format.double]

theorem drift_nonneg (n : ℕ) : 0 ≤ drift n := by
  rw [drift]
  positivity

/-- One rounding is off by no more than half of what a sum may be. -/
theorem halfStep_le_drift {n : ℕ} (hn : 0 < n) : Format.double.halfStep ≤ drift n / 2 := by
  have hcount : (1 : ℝ) ≤ n := by exact_mod_cast hn
  rw [Format.halfStep_double, drift_eq]
  linarith

theorem drift_le {n : ℕ} (short : n ≤ 2 ^ 45) : drift n ≤ 1 / 2 ^ 7 := by
  have hcount : (n : ℝ) ≤ 2 ^ 45 := by exact_mod_cast short
  rw [drift_eq, div_le_div_iff₀ (by positivity) (by positivity)]
  linarith

section Pair

variable (ha : ∀ x ∈ a, x.isFinite = true) (hb : ∀ y ∈ b, y.isFinite = true)
  (length : a.length = b.length) (short : a.length ≤ 2 ^ 45)

include ha hb length short

/-- **An inner product is finite and off by little for each component.** -/
theorem wideDot_near : (a.wideDot b).isFinite = true ∧
    Binary.SumNear a.length (exactDot a b) (exactWeight a b) (a.wideDot b) := by
  have hproduct : List.Forall₂ (fun x y => (x.widen * y.widen).value = x.value * y.value ∧
      (x.widen * y.widen).size = x.size * y.size) a b := by
    refine List.forall₂_iff_zip.2 ⟨length, fun {x y} hmem => ?_⟩
    obtain ⟨hx, hy⟩ := List.of_mem_zip hmem
    obtain ⟨-, hvalue⟩ := product_bounded (ha x hx) (hb y hy)
    exact ⟨hvalue, by simp only [← Binary.abs_value, hvalue, abs_mul]⟩
  have hterms : ∀ t ∈ List.zipWith (fun x y => x.widen * y.widen) a b, t.Bounded 256 :=
    forall_mem_zipWith fun x hx y hy => (product_bounded (ha x hx) (hb y hy)).1
  have hlength : (List.zipWith (fun x y => x.widen * y.widen) a b).length = a.length := by
    rw [List.length_zipWith, length, Nat.min_self]
  have hstart := Binary.bounded_zero (f := .double) true (Format.double.fractionBits + 1 + 256)
  have hsum := (Binary.SumNear.zero (f := .double) true).foldl_add (by decide) hterms hstart
    (by rw [hlength]; exact (Nat.zero_add _).trans_le (short.trans (by decide)))
  rw [List.map_zipWith, List.map_zipWith,
    List.zipWith_congr _ _ _ _ (hproduct.imp fun _ _ h => h.1),
    List.zipWith_congr _ _ _ _ (hproduct.imp fun _ _ h => h.2), hlength, zero_add, zero_add,
    zero_add] at hsum
  exact ⟨(Binary.Bounded.foldl_add (by decide) hterms hstart).finite, hsum⟩

theorem abs_wideDot_sub_le :
    |((a.wideDot b).value - exactDot a b : ℝ)| ≤ drift a.length * exactWeight a b := by
  obtain ⟨-, hnear⟩ := wideDot_near ha hb length short
  have hleading : (0 : ℝ) < Format.double.leading := by exact_mod_cast Format.double.leading_pos
  rw [drift, div_mul_eq_mul_div, le_div_iff₀ hleading]
  exact_mod_cast hnear.error_le

theorem abs_exactDot_le : |(exactDot a b : ℝ)| ≤ √(exactDot a a) * √(exactDot b b) := by
  obtain ⟨-, hnear⟩ := wideDot_near ha hb length short
  refine le_trans ?_ (exactWeight_le length)
  exact_mod_cast hnear.exact_le

theorem abs_cosine_le_one : |cosine a b| ≤ 1 := by
  have hroots : 0 ≤ √(exactDot a a : ℝ) * √(exactDot b b : ℝ) := by positivity
  rw [cosine, abs_div, abs_of_nonneg hroots]
  exact div_le_one_of_le₀ (abs_exactDot_le ha hb length short) hroots

end Pair

/-! ## Norms -/

theorem exists_isZero_eq_false (hzero : a.isZero = false) : ∃ x ∈ a, x.isZero = false := by
  simpa [isZero] using hzero

theorem length_pos_of_isZero_eq_false (hzero : a.isZero = false) : 0 < a.length := by
  obtain ⟨x, hx, -⟩ := exists_isZero_eq_false hzero
  exact List.length_pos_of_mem hx

/-- **A norm is off by a small fraction of it.** -/
theorem wideNorm_near (ha : ∀ x ∈ a, x.isFinite = true) (hzero : a.isZero = false)
    (short : a.length ≤ 2 ^ 45) : Near (3 * drift a.length) a.wideNorm.value √(exactDot a a) := by
  obtain ⟨r, hrounded, hnear, hbounded, hle⟩ :=
    exists_nearRoot_wideNorm ha (isZero_wideDot_self ha hzero)
  obtain ⟨x, hx, hnonzero⟩ := exists_isZero_eq_false hzero
  have hfull : Format.double.units Format.double.leading ≤ r * 2 ^ Format.double.scale := by
    rw [Format.units_leading]
    refine Double.Coarse.full ?_
    calc (1 : ℚ) ≤ x.size * 2 ^ 149 := Single.one_le_size_mul hnonzero
      _ ≤ r * 2 ^ 298 := by
        gcongr
        exacts [hnear.pos.le, hle x hx, one_le_two, by norm_num]
  have hsum : Near (drift a.length) (a.wideDot a).value (exactDot a a) := by
    have herror := abs_wideDot_sub_le ha ha rfl short
    rwa [exactWeight_self] at herror
  have hstep := halfStep_le_drift (List.length_pos_of_mem hx)
  have hpos := Format.halfStep_pos .double
  have hdrift := drift_le short
  -- The sum is off by one drift, and the root and its rounding together by little more than another.
  have hroot := (hrounded.near hbounded.finite hnear.pos hfull).trans hnear.near hpos.le
  have hnorm := hroot.trans (hsum.sqrt ?_ (exactDot_self_nonneg a)) (by positivity)
  · refine hnorm.mono (Real.sqrt_nonneg _) ?_
    generalize drift a.length = ν at *
    generalize Format.double.halfStep = u at *
    nlinarith
  · exact_mod_cast (wideDot_self_spec ha).2.1

theorem wideNorm_ge (ha : ∀ x ∈ a, x.isFinite = true) (hzero : a.isZero = false) :
    1 ≤ a.wideNorm.value * 2 ^ 149 := by
  obtain ⟨x, hx, hnonzero⟩ := exists_isZero_eq_false hzero
  obtain ⟨-, -, hle⟩ := wideNorm_spec ha
  rw [Binary.value_of_positive (wideNorm_positive ha hzero).2]
  refine (Single.one_le_size_mul hnonzero).trans ?_
  gcongr
  exact hle x hx

theorem wideNorm_pos (ha : ∀ x ∈ a, x.isFinite = true) (hzero : a.isZero = false) :
    0 < a.wideNorm.value :=
  pos_of_mul_pos_left (one_pos.trans_le (wideNorm_ge ha hzero)) (by positivity)

theorem sqrt_exactDot_pos (ha : ∀ x ∈ a, x.isFinite = true) (hzero : a.isZero = false)
    (short : a.length ≤ 2 ^ 45) : 0 < √(exactDot a a : ℝ) := by
  have hpos : (0 : ℝ) < a.wideNorm.value := by exact_mod_cast wideNorm_pos ha hzero
  have hdrift := drift_nonneg a.length
  exact (wideNorm_near ha hzero short).pos_of_pos hpos (by linarith)

/-! ## The quotient -/

section Directions

variable (ha : ∀ x ∈ a, x.isFinite = true) (hb : ∀ y ∈ b, y.isFinite = true)
  (hazero : a.isZero = false) (hbzero : b.isZero = false)

include ha hb hazero hbzero

/-- The product of two norms does not leave the range at either end. -/
theorem norms_bounded : (a.wideNorm * b.wideNorm).isFinite = true ∧
    1 ≤ a.wideNorm.value * b.wideNorm.value * 2 ^ 298 := by
  obtain ⟨-, -, -, hanorm, -⟩ := exists_nearRoot_wideNorm ha (isZero_wideDot_self ha hazero)
  obtain ⟨-, -, -, hbnorm, -⟩ := exists_nearRoot_wideNorm hb (isZero_wideDot_self hb hbzero)
  have hmul := Binary.mul_rounded hanorm.finite hbnorm.finite
  refine ⟨(hmul.bounded (k := 156 + 156) (by decide) ?_).finite, ?_⟩
  · rw [abs_mul, pow_add]
    exact mul_le_mul hanorm.abs_le hbnorm.abs_le (abs_nonneg _) (by positivity)
  · calc (1 : ℚ) ≤ (a.wideNorm.value * 2 ^ 149) * (b.wideNorm.value * 2 ^ 149) :=
          one_le_mul_of_one_le_of_one_le (wideNorm_ge ha hazero) (wideNorm_ge hb hbzero)
      _ = a.wideNorm.value * b.wideNorm.value * 2 ^ 298 := by rw [mul_mul_mul_comm, ← pow_add]

variable (length : a.length = b.length) (short : a.length ≤ 2 ^ 45)

include length short

theorem norms_near : Near (8 * drift a.length) (a.wideNorm * b.wideNorm).value
    (√(exactDot a a) * √(exactDot b b)) := by
  obtain ⟨hfinite, hlarge⟩ := norms_bounded ha hb hazero hbzero
  have hproduct : Near Format.double.halfStep (a.wideNorm * b.wideNorm).value
      (a.wideNorm.value * b.wideNorm.value) := by
    have hmul := Binary.mul_rounded (wideNorm_spec ha).1 (wideNorm_spec hb).1
    have hpos : 0 < a.wideNorm.value * b.wideNorm.value :=
      pos_of_mul_pos_left (one_pos.trans_le hlarge) (by positivity)
    have hfull : Format.double.units Format.double.leading ≤
        a.wideNorm.value * b.wideNorm.value * 2 ^ Format.double.scale := by
      rw [Format.units_leading]
      exact Double.Coarse.full hlarge
    exact_mod_cast hmul.near hfinite hpos hfull
  have hanorm := wideNorm_near ha hazero short
  have hbnorm := wideNorm_near hb hbzero (length ▸ short)
  rw [← length] at hbnorm
  have hbpos : (0 : ℝ) ≤ b.wideNorm.value := by exact_mod_cast (wideNorm_pos hb hbzero).le
  have hstep := halfStep_le_drift (length_pos_of_isZero_eq_false hazero)
  have hstepPos := Format.halfStep_pos .double
  have hdrift := drift_le short
  generalize drift a.length = ν at *
  generalize Format.double.halfStep = u at *
  have hnorms := hanorm.mul hbnorm (by linarith) (Real.sqrt_nonneg _) hbpos
  exact (hproduct.trans hnorms hstepPos.le).mono (by positivity) (by nlinarith)

/-- The product of the norms is not zero, and the quotient is near the cosine. -/
theorem quotient_near : (a.wideNorm * b.wideNorm).isZero = false ∧
    |((a.wideDot b).value / (a.wideNorm * b.wideNorm).value - cosine a b : ℝ)| ≤
      10 * drift a.length := by
  have hroots := mul_pos (sqrt_exactDot_pos ha hazero short)
    (sqrt_exactDot_pos hb hbzero (length ▸ short))
  have hdrift := drift_le short
  have hnonneg := drift_nonneg a.length
  have hdivisor := norms_near ha hb hazero hbzero length short
  constructor
  · refine Bool.eq_false_iff.2 fun hzero => ?_
    have hpos := hdivisor.pos hroots (by linarith)
    rw [Binary.value_eq_zero.2 hzero, Rat.cast_zero] at hpos
    exact lt_irrefl _ hpos
  · have hdot := (abs_wideDot_sub_le ha hb length short).trans
      (mul_le_mul_of_nonneg_left (exactWeight_le length) hnonneg)
    refine (hdivisor.div_sub_div_le hroots (by linarith) hdot
      (abs_exactDot_le ha hb length short)).trans ?_
    rw [div_le_iff₀ (by linarith)]
    nlinarith

/-- Rounding the quotient takes it little further. -/
theorem rounded_quotient_near : (a.wideDot b / (a.wideNorm * b.wideNorm)).isFinite = true ∧
    |((a.wideDot b / (a.wideNorm * b.wideNorm)).value - cosine a b : ℝ)| ≤
      11 * drift a.length := by
  obtain ⟨hnonzero, hquotient⟩ := quotient_near ha hb hazero hbzero length short
  obtain ⟨hnorms, -⟩ := norms_bounded ha hb hazero hbzero
  obtain ⟨hdot, -⟩ := wideDot_near ha hb length short
  have hrounded := Binary.div_rounded hdot hnorms hnonzero
  rw [← Rat.cast_div] at hquotient
  generalize (a.wideDot b).value / (a.wideNorm * b.wideNorm).value = r at hquotient hrounded
  have hcosine := abs_cosine_le_one ha hb length short
  have hdrift := drift_le short
  have hstep := halfStep_le_drift (length_pos_of_isZero_eq_false hazero)
  have hr : |(r : ℝ)| ≤ 1 + 10 * drift a.length := by
    linarith [abs_sub_abs_le_abs_sub (r : ℝ) (cosine a b)]
  obtain ⟨hfinite, hnear⟩ := hrounded.close (by linarith) (by decide) (by decide)
  have hlast : Format.double.halfStep * (|(r : ℝ)| + 1 / 2 ^ 100) ≤ drift a.length / 2 * 2 :=
    mul_le_mul hstep (by linarith) (by positivity) (by linarith [Format.halfStep_pos .double])
  refine ⟨hfinite, ?_⟩
  linarith [abs_sub_le ((a.wideDot b / (a.wideNorm * b.wideNorm)).value : ℝ) r (cosine a b)]

end Directions

end Point

namespace Metric

variable {a b : Point}

/-- One less a double near the cosine, rounded to a double and then to a single. -/
theorem narrow_one_sub_near {q : Double} {c ν : ℝ} (hfinite : q.isFinite = true) (hc : |c| ≤ 1)
    (hq : |(q.value - c : ℝ)| ≤ 11 * ν) (hstep : Format.double.halfStep ≤ ν / 2)
    (hν : ν ≤ 1 / 2 ^ 7) :
    (Double.narrow (.one - q)).isFinite = true ∧
      |((Double.narrow (.one - q)).value - (1 - c) : ℝ)| ≤ 1 / 2 ^ 23 + 16 * ν := by
  have hpos : 0 ≤ ν := by linarith [Format.halfStep_pos .double]
  obtain ⟨hone, honeValue⟩ := Binary.one_exact (f := .double)
  have hsub := Binary.sub_rounded hone hfinite
  rw [honeValue] at hsub
  have hexact : |1 - c| ≤ 2 := (abs_sub _ _).trans (by rw [abs_one]; linarith)
  have hdifference : |(1 - q.value : ℝ) - (1 - c)| ≤ 11 * ν := by
    rwa [sub_sub_sub_cancel_left, abs_sub_comm]
  have hrounded : |(1 - q.value : ℝ)| ≤ 2 + 11 * ν := by
    linarith [abs_sub_abs_le_abs_sub (1 - q.value : ℝ) (1 - c)]
  obtain ⟨hwide, hwideNear⟩ := hsub.close (by push_cast; linarith) (by decide) (by decide)
  push_cast at hwideNear
  generalize Binary.one - q = e at *
  have hdistance : |(e.value - (1 - c) : ℝ)| ≤ 13 * ν := by
    have hlast : Format.double.halfStep * (|(1 - q.value : ℝ)| + 1 / 2 ^ 100) ≤ ν / 2 * 4 := by
      gcongr
      linarith
    linarith [abs_sub_le (e.value : ℝ) (1 - q.value) (1 - c)]
  have hnarrow : Binary.Rounded e.value (Double.narrow e) := Binary.convert_rounded hwide
  have hwideLe : |(e.value : ℝ)| ≤ 2 + 13 * ν := by
    linarith [abs_sub_abs_le_abs_sub (e.value : ℝ) (1 - c)]
  obtain ⟨hsingle, hsingleNear⟩ := hnarrow.close (by linarith) (by decide) (by decide)
  refine ⟨hsingle, ?_⟩
  have hlast : Format.single.halfStep * (|(e.value : ℝ)| + 1 / 2 ^ 100) ≤ 1 / 2 ^ 23 + ν := by
    rw [Format.halfStep_double] at hstep
    rw [Format.halfStep_single]
    linarith
  linarith [abs_sub_le ((Double.narrow e).value : ℝ) e.value (1 - c)]

/-- **The reference form of the cosine distance is one less the cosine**, of any two finite points of
    a dimension that both have a direction, up to what the roundings add: one to a component for the
    result, and a little for each component. -/
theorem distance_cosine_near (ha : a.isFinite = true) (hb : b.isFinite = true)
    (length : a.length = b.length) (short : a.length ≤ 2 ^ 45) (hazero : a.isZero = false)
    (hbzero : b.isZero = false) :
    ∃ d, distance .cosine a b = .ok d ∧ d.isFinite = true ∧
      |(d.value - (1 - Point.cosine a b) : ℝ)| ≤ 1 / 2 ^ 23 + a.length / 2 ^ 48 := by
  rw [Point.isFinite, List.all_eq_true] at ha hb
  obtain ⟨hquotient, hnear⟩ := Point.rounded_quotient_near ha hb hazero hbzero length short
  obtain ⟨hfinite, hresult⟩ := narrow_one_sub_near hquotient
    (Point.abs_cosine_le_one ha hb length short) hnear
    (Point.halfStep_le_drift (Point.length_pos_of_isZero_eq_false hazero)) (Point.drift_le short)
  have hbound : 16 * Point.drift a.length = a.length / 2 ^ 48 := by
    rw [Point.drift_eq]
    ring
  refine ⟨_, ?_, hfinite, hbound ▸ hresult⟩
  rw [distance, Point.checkDimension, if_pos length.symm]
  refine congrArg Except.ok ?_
  rw [cosineDistance, Point.isZero_wideNorm ha, Point.isZero_wideNorm hb, hazero, hbzero]
  rfl

/-- Opposed directions, with nothing lost. -/
example : distance .cosine [.ofNat 3, .ofNat 4] [-.ofNat 6, -.ofNat 8] = .ok (.ofNat 2) := by
  decide +kernel

end Metric

end ExactNeighbors
