import ExactNeighbors.Proofs.Binary.Scaling
import ExactNeighbors.Proofs.Point.Zero

set_option autoImplicit false

/-! # Scaled points

A point whose components are all multiplied by one power of two is normalized to the same components,
bit for bit, however large or small they are (`Point.normalize_eq_of_scaled`). The range of doubles is
what this rests on. No square of a component, and so no sum of squares but zero, is below two to
the -298 (`Double.Coarse`), and none is above two to the 309. In between, significands are full and
rounding moves with the numbers, so the sum is scaled by the square of the power, the norm by the
power, and the quotients not at all. -/

namespace ExactNeighbors

/-! ## Sums of squares -/

namespace Double

variable {e : ℤ} {x y z : Double}

/-- Zero, or as large as the least square of a component that is not. -/
def Coarse (r : ℚ) : Prop := r = 0 ∨ 1 ≤ r * 2 ^ 298

theorem Coarse.add {r s : ℚ} (hr : Coarse r) (hs : Coarse s) : Coarse (r + s) := by
  rcases hr with rfl | hr
  · rwa [zero_add]
  · refine .inr ?_
    rcases hs with rfl | hs
    · rwa [add_zero]
    · rw [add_mul]
      exact hr.trans (le_add_of_nonneg_right (zero_le_one.trans hs))

theorem Coarse.full {r : ℚ} (h : 1 ≤ r * 2 ^ 298) :
    Format.double.leading ≤ r * 2 ^ Format.double.scale := by
  have hleading {k : ℕ} (hk : 52 ≤ k) : Format.double.leading ≤ 2 ^ k := by
    rw [Format.leading_eq_two_pow]
    exact Nat.pow_le_pow_right Nat.two_pos hk
  have hscale : Format.double.scale = 298 + 776 := rfl
  calc (Format.double.leading : ℚ) ≤ 2 ^ 776 := by exact_mod_cast hleading (show 52 ≤ 776 by decide)
    _ ≤ r * 2 ^ 298 * 2 ^ 776 := le_mul_of_one_le_left (by positivity) h
    _ = r * 2 ^ Format.double.scale := by rw [hscale, pow_add, mul_assoc]

theorem Coarse.rounded {r : ℚ} (hr : Coarse r) (h : z.Rounded r) : Coarse z.value := by
  rcases hr with rfl | hr
  · exact .inl (h.value_eq (c := .zero false) (Nat.zero_le _) (Binary.value_zero false))
  · have hscale : Format.double.scale = 298 + 776 := rfl
    obtain ⟨c, hfinite, hc⟩ : ∃ c : Double, c.isFinite = true ∧ c.value = 1 / 2 ^ 298 := by
      refine Binary.exists_value_eq (m := 1) (t := 776) (k := 0) ?_ (by decide) (by decide) ?_
      · rw [abs_of_pos (by positivity), hscale, pow_add, ← mul_assoc,
          div_mul_cancel₀ _ (by positivity), Nat.cast_one]
      · rw [abs_of_pos (by positivity), pow_zero]
        exact div_le_one_of_le₀ (one_le_pow₀ one_le_two) (by positivity)
    have hle := h.le_value (Binary.magnitude_le_of_isFinite hfinite)
      (by rwa [hc, div_le_iff₀ (by positivity)])
    refine .inr ?_
    rwa [hc, div_le_iff₀ (by positivity)] at hle

/-- Coarse bounded numbers of which one is the other times two to the `e`. -/
structure ScaledSum (e : ℤ) (k : ℕ) (x y : Double) : Prop where
  left : x.Bounded k
  right : y.Bounded k
  coarse_left : Coarse x.value
  coarse_right : Coarse y.value
  value_eq : y.value = x.value * 2 ^ e

theorem ScaledSum.scaled {k : ℕ} (h : ScaledSum e k x y) : Binary.Scaled e x y :=
  ⟨h.left.finite, h.right.finite, h.value_eq⟩

/-- **One more term keeps the sums scaled.** -/
theorem ScaledSum.add {s s' t t' : Double} (hs : ScaledSum e 309 s s') (ht : ScaledSum e 256 t t') :
    ScaledSum e 309 (s + t) (s' + t') := by
  have hsum := Binary.add_rounded hs.left.finite ht.left.finite
  have hsum' := Binary.add_rounded hs.right.finite ht.right.finite
  have hcoarse := hs.coarse_left.add ht.coarse_left
  have hcoarse' := hs.coarse_right.add ht.coarse_right
  have hbounded : (s + t).Bounded 309 := Binary.Bounded.add (by decide) hs.left ht.left
  have hbounded' : (s' + t').Bounded 309 := Binary.Bounded.add (by decide) hs.right ht.right
  have hmultiple : s'.value + t'.value = (s.value + t.value) * 2 ^ e := by
    rw [hs.value_eq, ht.value_eq, add_mul]
  refine ⟨hbounded, hbounded', hcoarse.rounded hsum, hcoarse'.rounded hsum', ?_⟩
  rw [hmultiple] at hsum' hcoarse'
  refine (hsum.scaled hsum' hbounded.finite hbounded'.finite ?_).value_eq
  rcases hcoarse with hzero | hlarge
  · exact .inl hzero
  · rcases hcoarse' with hzero' | hlarge'
    · exact .inl ((mul_eq_zero.1 hzero').resolve_right (zpow_pos two_pos e).ne')
    · exact .inr ⟨Coarse.full hlarge, Coarse.full hlarge'⟩

theorem ScaledSum.foldl {terms terms' : List Double}
    (h : List.Forall₂ (ScaledSum e 256) terms terms') {s s' : Double} (hs : ScaledSum e 309 s s') :
    ScaledSum e 309 (terms.foldl (· + ·) s) (terms'.foldl (· + ·) s') := by
  induction h generalizing s s' with
  | nil => exact hs
  | cons ht _ ih => exact ih (hs.add ht)

/-- A coarse number that is not zero has a full significand and no sign. -/
theorem Coarse.normal (h : Coarse x.value) (hzero : x.isZero = false) :
    Format.double.leading ≤ x.magnitude ∧ x.negative = false := by
  have hlarge : 1 ≤ x.value * 2 ^ 298 := by
    refine h.resolve_left fun hvalue => ?_
    rw [Binary.value_eq_zero.1 hvalue] at hzero
    cases hzero
  have hpos : 0 < x.value := pos_of_mul_pos_left (one_pos.trans_le hlarge) (by positivity)
  have hsign := Binary.positive_of_value_pos hpos
  refine ⟨?_, hsign⟩
  have hfull := Coarse.full hlarge
  rw [Binary.value_of_positive hsign, Binary.size, div_mul_cancel₀ _ (by positivity)] at hfull
  rw [← Format.double.units_strictMono.le_iff_le, Format.units_leading]
  exact_mod_cast hfull

end Double

namespace Single

variable {e : ℤ} {x y : Single}

/-- No component but zero is below the unit. -/
theorem one_le_size_mul {x : Single} (h : x.isZero = false) : 1 ≤ x.size * 2 ^ 149 := by
  have hunits : x.size * 2 ^ 149 = Format.single.units x.magnitude :=
    div_mul_cancel₀ _ (by positivity)
  have hpos : 0 < x.size := x.size_nonneg.lt_of_ne' (mt Binary.size_eq_zero.1 (by simp [h]))
  have hunitspos : (0 : ℚ) < Format.single.units x.magnitude :=
    hunits ▸ mul_pos hpos (by positivity)
  rw [hunits]
  exact_mod_cast hunitspos

theorem coarse_sq (x : Single) : Double.Coarse (x.value ^ 2) := by
  cases hzero : x.isZero with
  | true => exact .inl (by rw [Binary.value_eq_zero.2 hzero, zero_pow two_ne_zero])
  | false =>
      refine .inr ?_
      calc (1 : ℚ) ≤ (x.size * 2 ^ 149) ^ 2 := one_le_pow₀ (one_le_size_mul hzero)
        _ = x.value ^ 2 * 2 ^ 298 := by rw [mul_pow, ← pow_mul, ← Binary.abs_value, sq_abs]

/-- Squares of scaled components are scaled by the square of the power. -/
theorem scaledSum_square (h : Binary.Scaled e x y) :
    Double.ScaledSum (2 * e) 256 (x.widen * x.widen) (y.widen * y.widen) := by
  obtain ⟨hx, hxvalue⟩ := Point.square_bounded h.left
  obtain ⟨hy, hyvalue⟩ := Point.square_bounded h.right
  refine ⟨hx, hy, hxvalue ▸ x.coarse_sq, hyvalue ▸ y.coarse_sq, ?_⟩
  rw [hxvalue, hyvalue, h.value_eq, mul_pow, two_mul, zpow_add₀ two_ne_zero, ← sq]

theorem scaled_widen (h : Binary.Scaled e x y) : Binary.Scaled e x.widen y.widen := by
  obtain ⟨hx, hxvalue⟩ := widen_exact h.left
  obtain ⟨hy, hyvalue⟩ := widen_exact h.right
  exact ⟨hx, hy, by rw [hxvalue, hyvalue, h.value_eq]⟩

end Single

/-! ## Points -/

namespace Point

variable {e : ℤ} {a b : Point}

/-- The second point is the first with every component multiplied by two to the `e`, without
    rounding; zeros keep their signs. -/
def Scaled (e : ℤ) : Point → Point → Prop :=
  List.Forall₂ fun x y => Binary.Scaled e x y ∧ x.negative = y.negative

theorem Scaled.finite_left (h : Scaled e a b) : ∀ x ∈ a, x.isFinite = true := by
  intro x hx
  obtain ⟨i, hi, rfl⟩ := List.getElem_of_mem hx
  exact (h.get hi (h.length_eq ▸ hi)).1.left

theorem Scaled.symm (h : Scaled e a b) : Scaled (-e) b a :=
  h.flip.imp fun _ _ h => ⟨h.1.symm, h.2.symm⟩

/-- Zeros are not scaled. -/
theorem Scaled.eq_of_isZero (h : Scaled e a b) (hzero : a.isZero = true) : a = b := by
  rw [isZero_iff] at hzero
  rw [← List.forall₂_eq_eq_eq]
  induction h with
  | nil => exact .nil
  | cons hxy _ ih =>
      obtain ⟨hx, hzero⟩ := List.forall_mem_cons.1 hzero
      refine .cons (Binary.eq_of_value_eq ?_ hxy.2) (ih hzero)
      rw [hxy.1.value_eq, Binary.value_eq_zero.2 hx, zero_mul]

theorem Scaled.isZero_eq (h : Scaled e a b) : a.isZero = b.isZero := by
  rw [Bool.eq_iff_iff]
  exact ⟨fun hzero => h.eq_of_isZero hzero ▸ hzero, fun hzero => h.symm.eq_of_isZero hzero ▸ hzero⟩

/-- **The norm is scaled with the point.** -/
theorem Scaled.wideNorm (h : Scaled e a b) (hzero : a.isZero = false) :
    Binary.Scaled e a.wideNorm b.wideNorm := by
  have hsum : Double.ScaledSum (2 * e) 309 (a.wideDot a) (b.wideDot b) := by
    have hstart : Double.ScaledSum (2 * e) 309 (.zero true) (.zero true) := by
      have hbounded := Binary.bounded_zero (f := .double) true 309
      have hvalue : (Binary.zero true : Double).value = 0 := Binary.value_zero true
      exact ⟨hbounded, hbounded, .inl hvalue, .inl hvalue, by rw [hvalue, zero_mul]⟩
    rw [wideDot_self, wideDot_self]
    refine Double.ScaledSum.foldl ?_ hstart
    rw [List.forall₂_map_left_iff, List.forall₂_map_right_iff]
    exact h.imp fun x y hxy => Single.scaledSum_square hxy.1
  have hnormal {c : Point} (hc : ∀ x ∈ c, x.isFinite = true) (hzero : c.isZero = false)
      (hcoarse : Double.Coarse (c.wideDot c).value) :
      Format.double.leading ≤ (c.wideDot c).magnitude ∧ (c.wideDot c).negative = false :=
    hcoarse.normal (isZero_wideDot_self hc hzero)
  obtain ⟨ha, hasign⟩ := hnormal h.finite_left hzero hsum.coarse_left
  obtain ⟨hb, hbsign⟩ := hnormal h.symm.finite_left (h.isZero_eq ▸ hzero) hsum.coarse_right
  exact hsum.scaled.sqrt ha hb hasign hbsign (wideNorm_spec h.finite_left).1
    (wideNorm_spec h.symm.finite_left).1 (by decide)

theorem wideNorm_positive (ha : ∀ x ∈ a, x.isFinite = true) (hzero : a.isZero = false) :
    a.wideNorm.isZero = false ∧ a.wideNorm.negative = false := by
  have hnonzero : a.wideNorm.isZero = false := by rw [isZero_wideNorm ha, hzero]
  exact ⟨hnonzero, (wideNorm_spec ha).2.1.resolve_left (by simp [hnonzero])⟩

/-- **Scaled points are normalized to the same components.** -/
theorem normalize_eq_of_scaled (h : Scaled e a b) : a.normalize = b.normalize := by
  cases hzero : a.isZero with
  | true => rw [h.eq_of_isZero hzero]
  | false =>
      have hzero' : b.isZero = false := h.isZero_eq ▸ hzero
      have hnorm := h.wideNorm hzero
      obtain ⟨hanonzero, hasign⟩ := wideNorm_positive h.finite_left hzero
      obtain ⟨hbnonzero, hbsign⟩ := wideNorm_positive h.symm.finite_left hzero'
      rw [normalize_eq h.finite_left, normalize_eq h.symm.finite_left, hzero, hzero',
        if_neg Bool.false_ne_true, if_neg Bool.false_ne_true, ← List.forall₂_eq_eq_eq,
        List.forall₂_map_left_iff, List.forall₂_map_right_iff]
      refine h.imp fun x y hxy => congrArg Double.narrow ?_
      have hsign : x.widen.negative = y.widen.negative := by
        rw [Single.widen, Single.widen, Binary.negative_convert (Binary.isNaN_of_isFinite hxy.1.left),
          Binary.negative_convert (Binary.isNaN_of_isFinite hxy.1.right), hxy.2]
      exact (Single.scaled_widen hxy.1).div_eq hnorm hsign (hasign.trans hbsign.symm) hanonzero
        hbnonzero

end Point

end ExactNeighbors
