import ExactNeighbors.Proofs.Binary.Sign
import ExactNeighbors.Proofs.Point.LaneSum

set_option autoImplicit false

/-! # Norms and normalized points

The squares of components are exact as doubles, their rounded sum is finite and not below any of
them, and neither is its root below the component. So a norm is a finite number, zero for points of
zeros only, and dividing by it gives components that are at most one, before rounding and after. -/

namespace ExactNeighbors.Point

variable {a : Point}

/-! ## The sum of squares -/

theorem wideDot_self (a : Point) :
    a.wideDot a = (a.map fun x => x.widen * x.widen).foldl (· + ·) (.zero true) := by
  rw [wideDot, List.zipWith_self]

/-- The products of components, as doubles. -/
theorem product_bounded {x y : Single} (hx : x.isFinite = true) (hy : y.isFinite = true) :
    (x.widen * y.widen).Bounded 256 ∧ (x.widen * y.widen).value = x.value * y.value := by
  obtain ⟨hfinite, hvalue⟩ := Single.widen_mul_exact hx hy
  refine ⟨⟨hfinite, ?_⟩, hvalue⟩
  rw [hvalue, abs_mul]
  calc |x.value| * |y.value| ≤ 2 ^ 128 * 2 ^ 128 :=
        mul_le_mul (Single.abs_value_le hx) (Single.abs_value_le hy) (abs_nonneg _) (by positivity)
    _ = 2 ^ 256 := by norm_num

theorem square_bounded {x : Single} (hx : x.isFinite = true) :
    (x.widen * x.widen).Bounded 256 ∧ (x.widen * x.widen).value = x.value ^ 2 := by
  rw [sq]
  exact product_bounded hx hx

/-- The sum of squares is finite, has no sign, and is not below any of them. -/
theorem wideDot_self_spec (ha : ∀ x ∈ a, x.isFinite = true) :
    (a.wideDot a).Bounded 309 ∧ 0 ≤ (a.wideDot a).value ∧
      ∀ x ∈ a, x.value ^ 2 ≤ (a.wideDot a).value := by
  have hterms : ∀ t ∈ a.map fun x => x.widen * x.widen, t.Bounded 256 :=
    List.forall_mem_map.2 fun x hx => (square_bounded (ha x hx)).1
  have hnonneg : ∀ t ∈ a.map fun x => x.widen * x.widen, 0 ≤ t.value := by
    rw [List.forall_mem_map]
    intro x hx
    rw [(square_bounded (ha x hx)).2]
    positivity
  have hzero : (Binary.zero true : Double).value = 0 := Binary.value_zero true
  have hstart : (Binary.zero true : Double).Bounded (Format.double.fractionBits + 1 + 256) :=
    Binary.bounded_zero _ _
  obtain ⟨hle, hall⟩ := Binary.Bounded.le_foldl_add (by decide) hterms hnonneg hstart hzero.ge
  rw [wideDot_self]
  refine ⟨Binary.Bounded.foldl_add (by decide) hterms hstart, hzero ▸ hle, ?_⟩
  intro x hx
  rw [← (square_bounded (ha x hx)).2]
  exact hall _ (List.mem_map_of_mem hx)

/-! ## The norm -/

/-- The norm rounds a number near the root of the sum of squares, if that is not zero. -/
theorem exists_nearRoot_wideNorm (ha : ∀ x ∈ a, x.isFinite = true)
    (hzero : (a.wideDot a).isZero = false) :
    ∃ r, Binary.Rounded r a.wideNorm ∧ Binary.NearRoot (a.wideDot a) r ∧
      a.wideNorm.Bounded 156 ∧ ∀ x ∈ a, x.size ≤ r := by
  obtain ⟨hbounded, hnonneg, hsquare⟩ := wideDot_self_spec ha
  rw [wideNorm]
  generalize a.wideDot a = s at *
  have hpos : s.negative = false := by
    refine Binary.positive_of_value_pos (hnonneg.lt_of_ne' fun hvalue => ?_)
    rw [Binary.value_eq_zero.1 hvalue] at hzero
    exact Bool.noConfusion hzero
  obtain ⟨r, hrounded, hnear⟩ := Binary.sqrt_rounded hbounded.finite hzero hpos
  have hlimit : |r| ≤ 2 ^ 156 := by
    rw [abs_of_pos hnear.pos]
    refine hnear.le_two_pow 155 ?_
    calc s.value ≤ 2 ^ 309 := (le_abs_self _).trans hbounded.abs_le
      _ ≤ 2 ^ (155 * 2) := pow_le_pow_right₀ one_le_two (by norm_num)
      _ = (2 ^ 155) ^ 2 := pow_mul 2 155 2
  refine ⟨r, hrounded, hnear, hrounded.bounded (by decide) hlimit, fun x hx => ?_⟩
  obtain ⟨-, hvalue⟩ := Single.widen_exact (ha x hx)
  have hsize : x.widen.size = x.size := by rw [← Binary.abs_value, hvalue, Binary.abs_value]
  rw [← hsize]
  refine hnear.size_le _ ?_
  rw [hsize, ← Binary.abs_value, sq_abs]
  exact hsquare x hx

/-- **A norm is finite, has no sign unless it is zero, and is not below any component.** -/
theorem wideNorm_spec (ha : ∀ x ∈ a, x.isFinite = true) :
    a.wideNorm.isFinite = true ∧ (a.wideNorm.isZero = true ∨ a.wideNorm.negative = false) ∧
      ∀ x ∈ a, x.size ≤ a.wideNorm.size := by
  obtain ⟨hbounded, -, hsquare⟩ := wideDot_self_spec ha
  cases hzero : (a.wideDot a).isZero with
  | true =>
      -- The root of a zero is that zero, and all components are zero.
      rw [wideNorm, Binary.sqrt_of_isZero hzero]
      refine ⟨hbounded.finite, Or.inl hzero, ?_⟩
      intro x hx
      have hx' := hsquare x hx
      rw [Binary.value_eq_zero.2 hzero] at hx'
      have hvalue : x.value = 0 := pow_eq_zero_iff two_ne_zero |>.1 (le_antisymm hx' (sq_nonneg _))
      rw [← Binary.abs_value, hvalue, abs_zero]
      exact Binary.size_nonneg _
  | false =>
      obtain ⟨r, hrounded, hnear, hnorm, hle⟩ := exists_nearRoot_wideNorm ha hzero
      refine ⟨hnorm.finite, Or.inr (hrounded.positive hnear.pos), ?_⟩
      intro x hx
      obtain ⟨hfinite, hvalue⟩ := Single.widen_exact (ha x hx)
      have hsize : x.widen.size = x.size := by rw [← Binary.abs_value, hvalue, Binary.abs_value]
      rw [← hsize]
      refine hrounded.le_size (Binary.magnitude_le_of_isFinite hfinite) ?_
      rw [hsize, abs_of_pos hnear.pos]
      exact hle x hx

/-! ## Normalized points -/

/-- A norm is above zero unless it is zero. -/
theorem zero_lt_wideNorm (ha : ∀ x ∈ a, x.isFinite = true) :
    (Binary.zero false).lt a.wideNorm = !a.wideNorm.isZero := by
  obtain ⟨hfinite, hsign, -⟩ := wideNorm_spec ha
  generalize a.wideNorm = n at *
  have hlt : (Binary.zero false).lt n = decide (0 < n.signedMagnitude) := by
    rw [Binary.lt, Binary.isNaN_of_isFinite hfinite]
    rfl
  rw [hlt, Binary.isZero, ← decide_not, decide_eq_decide, Binary.signedMagnitude]
  rcases hsign with hzero | hpos
  · have hmagnitude : n.magnitude = 0 := of_decide_eq_true hzero
    simp [hmagnitude]
  · rw [hpos, if_neg Bool.false_ne_true]
    omega

/-- **Normalizing leaves components that are at most one.** -/
theorem bounded_normalize (ha : ∀ x ∈ a, x.isFinite = true) : ∀ x ∈ a.normalize, x.Bounded 0 := by
  obtain ⟨hfinite, hsign, hle⟩ := wideNorm_spec ha
  rw [normalize, zero_lt_wideNorm ha]
  generalize a.wideNorm = n at *
  cases hzero : n.isZero with
  | true =>
      -- All components are zero and stay.
      intro x hx
      have hsize := hle x hx
      rw [Binary.size_eq_zero.2 hzero] at hsize
      exact ⟨ha x hx, by rw [Binary.abs_value]; exact hsize.trans (by positivity)⟩
  | false =>
      rw [if_pos (Bool.not_false), List.forall_mem_map]
      intro x hx
      obtain ⟨hwide, hvalue⟩ := Single.widen_exact (ha x hx)
      have hquotient : (x.widen / n).Bounded 0 := by
        refine (Binary.div_rounded hwide hfinite hzero).bounded (by decide) ?_
        rw [pow_zero, abs_div, Binary.abs_value n, hvalue, Binary.abs_value]
        exact div_le_one_of_le₀ (hle x hx) n.size_nonneg
      exact (Binary.convert_rounded hquotient.finite).bounded (by decide) hquotient.abs_le

end ExactNeighbors.Point
