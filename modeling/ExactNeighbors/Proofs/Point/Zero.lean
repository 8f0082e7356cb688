import ExactNeighbors.Metric
import ExactNeighbors.Proofs.Binary.Sign
import ExactNeighbors.Proofs.Point.Normalize

set_option autoImplicit false

/-! # Points of zeros

Zeros are told apart by their signs, and every sum here starts from one. A sum in lanes of zeros is
nevertheless always the zero without a sign (`laneSum_of_isZero`): the lanes start from it and no zero
takes them elsewhere. So the inner product with a point of zeros is that zero, and so is the squared
distance of a point from itself.

A norm is zero for points of zeros only. The reference form of the cosine distance asks for that norm;
the scan does not ask, and comes to the distance one by way of the inner product. -/

namespace ExactNeighbors

/-- A sum in lanes of zeros has no sign. -/
theorem laneSum_of_isZero {terms : List Single} (h : ∀ t ∈ terms, t.isZero = true) :
    laneSum terms = .zero false := by
  have hadd (s t : Single) (hs : s = .zero false) (ht : t.isZero = true) : s + t = .zero false := by
    rw [hs, Binary.zero_add_of_isZero ht]
  have hlane (s l : Single) (hs : s = .zero false) (hl : l = .zero false) : s + l = .zero false :=
    hadd s l hs (hl ▸ rfl)
  have hfirst (l : Single) (hl : l = .zero false) : .zero true + l = .zero false := by
    rw [hl, Binary.zero_add_zero, Bool.and_false]
  exact laneSum_induction (· = .zero false) (·.isZero = true) (· = .zero false) rfl hadd hfirst hlane
    hadd h

namespace Point

variable {a b : Point}

/-- Every component is a zero, of either sign. -/
def isZero (a : Point) : Bool := a.all (·.isZero)

theorem isZero_iff : a.isZero = true ↔ ∀ x ∈ a, x.isZero = true := List.all_eq_true

/-! ## Kernels -/

/-- **A point is at no distance from itself.** -/
theorem squaredDistance_self (ha : ∀ x ∈ a, x.isFinite = true) :
    a.squaredDistance a = .zero false := by
  rw [squaredDistance, List.zipWith_self]
  refine laneSum_of_isZero (List.forall_mem_map.2 fun x hx => ?_)
  rw [Binary.sub_self (ha x hx)]
  exact Binary.isZero_mul (Binary.isFinite_of_isZero rfl) (Binary.isFinite_of_isZero rfl) (.inl rfl)

/-- The inner product with a point of zeros is zero without a sign. -/
theorem dot_of_isZero (ha : ∀ x ∈ a, x.isFinite = true) (hb : ∀ y ∈ b, y.isFinite = true)
    (h : a.isZero = true ∨ b.isZero = true) : a.dot b = .zero false := by
  refine laneSum_of_isZero (forall_mem_zipWith fun x hx y hy => ?_)
  refine Binary.isZero_mul (ha x hx) (hb y hy) ?_
  rcases h with h | h
  · exact .inl (isZero_iff.1 h x hx)
  · exact .inr (isZero_iff.1 h y hy)

/-! ## Norms -/

/-- Squares of zeros add up to a zero, and its root is one. -/
theorem isZero_wideNorm_of_isZero (h : a.isZero = true) : a.wideNorm.isZero = true := by
  have hsum : (a.wideDot a).isZero = true := by
    rw [wideDot_self]
    refine Binary.isZero_foldl_add (List.forall_mem_map.2 fun x hx => ?_) rfl
    have hwide : x.widen.isZero = true := Binary.isZero_convert (isZero_iff.1 h x hx)
    have hfinite := Binary.isFinite_of_isZero hwide
    exact Binary.isZero_mul hfinite hfinite (.inl hwide)
  rw [wideNorm, Binary.sqrt_of_isZero hsum]
  exact hsum

/-- **A norm is zero for points of zeros only.** -/
theorem isZero_wideNorm (ha : ∀ x ∈ a, x.isFinite = true) : a.wideNorm.isZero = a.isZero := by
  rw [Bool.eq_iff_iff]
  refine ⟨fun h => isZero_iff.2 fun x hx => ?_, isZero_wideNorm_of_isZero⟩
  obtain ⟨-, -, hle⟩ := wideNorm_spec ha
  have hsize := hle x hx
  rw [Binary.size_eq_zero.2 h] at hsize
  exact Binary.size_eq_zero.1 (hsize.antisymm x.size_nonneg)

/-- So is the sum of squares that it is the root of. -/
theorem isZero_wideDot_self (ha : ∀ x ∈ a, x.isFinite = true) (h : a.isZero = false) :
    (a.wideDot a).isZero = false := by
  refine Bool.eq_false_iff.2 fun hsquares => ?_
  have hnorm : a.wideNorm.isZero = true := by rwa [wideNorm, Binary.sqrt_of_isZero hsquares]
  rw [isZero_wideNorm ha, h] at hnorm
  cases hnorm

/-! ## Normalized points -/

theorem normalize_eq (ha : ∀ x ∈ a, x.isFinite = true) :
    a.normalize = if a.isZero then a else a.map fun x => (x.widen / a.wideNorm).narrow := by
  simp only [normalize, zero_lt_wideNorm ha, isZero_wideNorm ha]
  cases a.isZero <;> rfl

theorem normalize_of_isZero (ha : ∀ x ∈ a, x.isFinite = true) (h : a.isZero = true) :
    a.normalize = a := by
  rw [normalize_eq ha, if_pos h]

/-- Dividing by the norm keeps the sign of a component, also where it becomes zero. -/
theorem negative_div_wideNorm (ha : ∀ x ∈ a, x.isFinite = true) (h : a.isZero = false) {x : Single}
    (hx : x.isFinite = true) : (x.widen / a.wideNorm).narrow.negative = x.negative := by
  obtain ⟨hnorm, hsign, -⟩ := wideNorm_spec ha
  have hzero : a.wideNorm.isZero = false := by rw [isZero_wideNorm ha, h]
  have hpos : a.wideNorm.negative = false := hsign.resolve_left (by simp [hzero])
  obtain ⟨hwide, -⟩ := Single.widen_exact hx
  calc (x.widen / a.wideNorm).narrow.negative = (x.widen / a.wideNorm).negative :=
        Binary.negative_convert (Binary.div_rounded hwide hnorm hzero).isNaN_eq
    _ = x.widen.negative := by rw [Binary.negative_div hwide hnorm hzero, hpos, Bool.bne_false]
    _ = x.negative := Binary.negative_convert (Binary.isNaN_of_isFinite hx)

/-- **Normalizing bounds every component and keeps its sign.** -/
theorem forall₂_normalize (ha : ∀ x ∈ a, x.isFinite = true) :
    List.Forall₂ (fun x y => y.Bounded 0 ∧ y.negative = x.negative) a a.normalize := by
  have hbounded := bounded_normalize ha
  rw [normalize_eq ha] at hbounded ⊢
  cases h : a.isZero with
  | true =>
      rw [h] at hbounded
      exact List.forall₂_same.2 fun x hx => ⟨hbounded x hx, rfl⟩
  | false =>
      rw [h] at hbounded
      rw [if_neg Bool.false_ne_true, List.forall₂_map_right_iff]
      refine List.forall₂_same.2 fun x hx => ⟨hbounded _ (List.mem_map_of_mem hx), ?_⟩
      exact negative_div_wideNorm ha h (ha x hx)

end Point

namespace Metric

variable {a b : Point}

/-! ## Distance one -/

theorem one_sub_zero : (.one - .zero false : Single) = .one := by decide

/-- In the scan a point of zeros is at distance one from every point. -/
theorem kernel_of_isZero (ha : ∀ x ∈ a, x.isFinite = true) (hb : ∀ y ∈ b, y.isFinite = true)
    (h : a.isZero = true ∨ b.isZero = true) : kernel .cosine a b = .one := by
  rw [kernel, Point.dot_of_isZero ha hb h, one_sub_zero]

/-- In the reference form too. -/
theorem cosineDistance_of_isZero (h : a.isZero = true ∨ b.isZero = true) :
    cosineDistance a b = .one := by
  rw [cosineDistance]
  refine if_pos (Bool.or_eq_true_iff.2 ?_)
  exact h.imp Point.isZero_wideNorm_of_isZero Point.isZero_wideNorm_of_isZero

end Metric

end ExactNeighbors
