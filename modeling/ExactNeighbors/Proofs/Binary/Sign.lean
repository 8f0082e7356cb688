import ExactNeighbors.Proofs.Binary.Order
import ExactNeighbors.Proofs.Binary.Sums

set_option autoImplicit false

/-! # Signs and zeros

The exact result decides the rounded one except for the sign of a zero, which no value shows. That
sign comes from the operands. A quotient and a change of format have it by the rule of signs, also
where they round to zero (`negative_div`, `negative_convert`). A sum of zeros is negative only if both
are (`zero_add_zero`), so a sum that has once reached the zero without a sign keeps it, whichever zeros
are added; and a number less itself is that zero (`sub_self`). -/

namespace ExactNeighbors.Binary

variable {f g : Format} {x y : Binary f}

/-! ## Values with signs -/

theorem eq_of_magnitude_eq (hmagnitude : x.magnitude = y.magnitude)
    (hsign : x.negative = y.negative) : x = y := by
  obtain ⟨negative, magnitude, hx⟩ := x
  obtain ⟨negative', magnitude', hy⟩ := y
  obtain rfl : negative = negative' := hsign
  obtain rfl : magnitude = magnitude' := hmagnitude
  rfl

/-- Value and sign tell numbers apart. -/
theorem eq_of_value_eq (hvalue : x.value = y.value) (hsign : x.negative = y.negative) : x = y := by
  have hsize : x.size = y.size := by rw [← abs_value, ← abs_value, hvalue]
  exact eq_of_magnitude_eq
    (le_antisymm (size_le_size.1 hsize.le) (size_le_size.1 hsize.ge)) hsign

/-! ## Zeros -/

theorem isZero_iff : x.isZero = true ↔ ∃ negative, x = zero negative := by
  constructor
  · intro h
    obtain ⟨negative, magnitude, hmagnitude⟩ := x
    obtain rfl : magnitude = 0 := of_decide_eq_true h
    exact ⟨negative, rfl⟩
  · rintro ⟨negative, rfl⟩
    rfl

theorem isFinite_of_isZero [f.Regular] (h : x.isZero = true) : x.isFinite = true := by
  obtain ⟨negative, rfl⟩ := isZero_iff.1 h
  exact (bounded_zero negative 0).finite

theorem significand_zero (negative : Bool) : (zero negative : Binary f).significand = 0 :=
  if_pos f.leading_pos

theorem signedSignificand_zero (negative : Bool) (e : ℕ) :
    (zero negative : Binary f).signedSignificand e = 0 := by
  simp [signedSignificand, significand_zero]

theorem round_zero (negative : Bool) (den : ℕ) (shift : ℤ) :
    (round negative 0 den shift : Binary f) = zero negative := by
  simp [round, zero, Format.round]

/-! ## Sums -/

/-- A sum of zeros is negative only if both are. -/
theorem zero_add_zero [f.Regular] (s t : Bool) : (zero s + zero t : Binary f) = zero (s && t) := by
  have hinfinite (u : Bool) : (zero u : Binary f).isInfinite = false :=
    isInfinite_of_isFinite (isFinite_of_isZero rfl)
  change add _ _ = _
  simp only [add, isNaN_zero, hinfinite, signedSignificand_zero]
  rfl

theorem isZero_add [f.Regular] (hx : x.isZero = true) (hy : y.isZero = true) :
    (x + y).isZero = true := by
  obtain ⟨s, rfl⟩ := isZero_iff.1 hx
  obtain ⟨t, rfl⟩ := isZero_iff.1 hy
  rw [zero_add_zero]
  rfl

theorem isZero_foldl_add [f.Regular] {terms : List (Binary f)}
    (hterms : ∀ t ∈ terms, t.isZero = true) {sum : Binary f} (hsum : sum.isZero = true) :
    (terms.foldl (· + ·) sum).isZero = true := by
  induction terms generalizing sum with
  | nil => exact hsum
  | cons t ts ih =>
      obtain ⟨ht, hts⟩ := List.forall_mem_cons.1 hterms
      exact ih hts (isZero_add hsum ht)

/-- No zero takes the zero without a sign elsewhere. -/
theorem zero_add_of_isZero [f.Regular] (hy : y.isZero = true) : zero false + y = zero false := by
  obtain ⟨t, rfl⟩ := isZero_iff.1 hy
  rw [zero_add_zero, Bool.false_and]

theorem signedSignificand_neg (x : Binary f) (e : ℕ) :
    (-x).signedSignificand e = -x.signedSignificand e := by
  have hnegative : (-x).negative = !x.negative := rfl
  have hsignificand : (-x).significand = x.significand := rfl
  have hexponent : (-x).exponent = x.exponent := rfl
  simp only [signedSignificand, hnegative, hsignificand, hexponent]
  cases x.negative <;> simp

/-- **A number less itself is zero without a sign.** -/
theorem sub_self (hx : x.isFinite = true) : x - x = zero false := by
  have hneg := isFinite_neg hx
  have hsign : (x.negative && (-x).negative) = false := Bool.and_not_self x.negative
  change add x (-x) = zero false
  simp only [add, isNaN_of_isFinite hx, isNaN_of_isFinite hneg, isInfinite_of_isFinite hx,
    isInfinite_of_isFinite hneg, signedSignificand_neg, add_neg_cancel, hsign]
  rfl

/-! ## Products and quotients -/

/-- A product with a zero is a zero. -/
theorem isZero_mul (hx : x.isFinite = true) (hy : y.isFinite = true)
    (h : x.isZero = true ∨ y.isZero = true) : (x * y).isZero = true := by
  have hsignificand : x.significand * y.significand = 0 := by
    rcases h with h | h
    · obtain ⟨negative, rfl⟩ := isZero_iff.1 h
      rw [significand_zero, Nat.zero_mul]
    · obtain ⟨negative, rfl⟩ := isZero_iff.1 h
      rw [significand_zero, Nat.mul_zero]
  change (mul x y).isZero = true
  simp only [mul, isNaN_of_isFinite hx, isNaN_of_isFinite hy, isInfinite_of_isFinite hx,
    isInfinite_of_isFinite hy, hsignificand, round_zero]
  rfl

/-- The sign of a quotient, by the rule of signs. -/
theorem negative_div (hx : x.isFinite = true) (hy : y.isFinite = true) (hzero : y.isZero = false) :
    (x / y).negative = (x.negative != y.negative) := by
  change (div x y).negative = _
  simp only [div, isNaN_of_isFinite hx, isNaN_of_isFinite hy, isInfinite_of_isFinite hx,
    isInfinite_of_isFinite hy, hzero]
  rfl

/-! ## Roots and changes of format -/

/-- The root of a zero is that zero. -/
theorem sqrt_of_isZero (h : x.isZero = true) : x.sqrt = x := by
  rw [sqrt, isNaN_of_isZero h, if_neg Bool.false_ne_true, if_pos h]

/-- A change of format keeps the sign. -/
theorem negative_convert (h : x.isNaN = false) : (x.convert g).negative = x.negative := by
  rw [convert, h, if_neg Bool.false_ne_true]
  split <;> rfl

/-- The sign does not matter to the magnitude. -/
theorem magnitude_convert_neg (x : Binary f) :
    ((-x).convert g).magnitude = (x.convert g).magnitude := by
  change (if x.isNaN then notANumber else if x.isInfinite then infinite (!x.negative) else
    round (!x.negative) x.significand 1 (x.exponent + g.scale - f.scale : ℤ) : Binary g).magnitude = _
  rw [convert]
  split
  · rfl
  · split <;> rfl

/-- A zero stays a zero in every format. -/
theorem isZero_convert [f.Regular] (h : x.isZero = true) : (x.convert g).isZero = true := by
  obtain ⟨negative, rfl⟩ := isZero_iff.1 h
  have hinfinite := isInfinite_of_isFinite (isFinite_of_isZero h)
  simp only [convert, isNaN_zero, hinfinite, significand_zero, round_zero]
  rfl

end ExactNeighbors.Binary
