import ExactNeighbors.Binary.Order

set_option autoImplicit false

/-! # The two orders of numbers, and of their patterns

The total order is an order of bit patterns: once the bits below a set sign bit are flipped,
patterns are compared as signed integers (`totalKey_ofBits`).

It agrees with the order of values as far as values go. A lesser value has an earlier place
(`totalKey_lt_of_lt`), and an earlier place is that of no greater value
(`signedMagnitude_le_of_totalKey_le`); the second is not strict, as the zeros have places of their
own but one value. So a test of values against a bound is passed by all numbers that precede one
that passes it (`le_of_totalKey_le`).

As a bound, zero leaves the zeros and what is below them (`le_zero_iff`), and infinity leaves all
numbers (`le_infinite`). -/

namespace ExactNeighbors.Binary

variable {f : Format} {x y z : Binary f}

/-! ## Bit patterns -/

theorem toBits_inj : x.toBits = y.toBits ↔ x = y := by
  refine ⟨fun h => ?_, fun h => h ▸ rfl⟩
  rw [← ofBits_toBits x, ← ofBits_toBits y, h]

/-- A pattern of 32 bits with those below a set sign bit flipped. The first shift spreads the sign
    over all bits, the second takes it out of its own place. -/
def flipBelowSign (v : BitVec 32) : BitVec 32 := v ^^^ (v.sshiftRight 31 >>> 1)

theorem flipBelowSign_cons (sign : Bool) (m : BitVec 31) :
    flipBelowSign (.cons sign m) = .cons sign (if sign then ~~~m else m) := by
  have hmask : (BitVec.cons sign m).sshiftRight 31 >>> 1 =
      .cons false (if sign then BitVec.allOnes 31 else 0#31) := by
    cases sign with
    | false =>
        rw [BitVec.sshiftRight_eq_of_msb_false BitVec.msb_cons]
        ext i hi
        simp
    | true =>
        ext i hi
        rw [BitVec.getElem_ushiftRight, BitVec.getLsbD_sshiftRight, BitVec.msb_cons,
          BitVec.getElem_cons, if_neg (by omega : ¬ 31 + (1 + i) < 32)]
        by_cases hlast : i = 31
        · simp [hlast]
        · rw [dif_neg hlast, if_pos rfl, BitVec.getElem_allOnes]
          simp
          omega
  rw [flipBelowSign, hmask, BitVec.cons_xor_cons, Bool.xor_false]
  cases sign with
  | false => simp only [Bool.false_eq_true, if_false, BitVec.xor_zero]
  | true => simp only [if_true, BitVec.xor_allOnes]

/-- **The place of a pattern in the total order** is the signed integer that it reads as once the
    bits below a set sign are flipped. -/
theorem totalKey_ofBits (v : BitVec 32) :
    (ofBits .single v.toNat).totalKey = (flipBelowSign v).toInt := by
  obtain ⟨sign, m, rfl⟩ : ∃ sign m, v = BitVec.cons sign m := ⟨v.msb, v.setWidth 31, by simp⟩
  have hspan : Format.single.span = 2147483648 := by decide
  have hm := m.isLt
  have htoNat (m : BitVec 31) :
      (BitVec.cons sign m).toNat = sign.toNat * 2147483648 + m.toNat := by
    rw [BitVec.toNat_cons', Nat.shiftLeft_eq]
  rw [flipBelowSign_cons, BitVec.toInt_eq_msb_cond, BitVec.msb_cons, htoNat, htoNat, totalKey]
  cases sign with
  | false =>
      simp [ofBits, hspan]
      omega
  | true =>
      simp [ofBits, hspan]
      omega

/-! ## The total order -/

theorem totalCompare_eq_lt : x.totalCompare y = .lt ↔ x.totalKey < y.totalKey :=
  Int.compare_eq_lt

theorem totalCompare_eq_gt : x.totalCompare y = .gt ↔ y.totalKey < x.totalKey :=
  Int.compare_eq_gt

theorem totalCompare_ne_gt : x.totalCompare y ≠ .gt ↔ x.totalKey ≤ y.totalKey := by
  rw [Ne, totalCompare_eq_gt, Int.not_lt]

/-! ## Values -/

theorem lt_iff :
    x.lt y = true ↔ x.isNaN = false ∧ y.isNaN = false ∧ x.signedMagnitude < y.signedMagnitude := by
  simp [lt, and_assoc]

theorem le_iff :
    x.le y = true ↔ x.isNaN = false ∧ y.isNaN = false ∧ x.signedMagnitude ≤ y.signedMagnitude := by
  simp [le, and_assoc]

theorem le_of_le_of_le (hxy : x.le y = true) (hyz : y.le z = true) : x.le z = true := by
  rw [le_iff] at *
  exact ⟨hxy.1, hyz.2.1, Int.le_trans hxy.2.2 hyz.2.2⟩

/-- Of two numbers one is less if the other is not less or the same. -/
theorem lt_of_le_eq_false (hx : x.isNaN = false) (hy : y.isNaN = false) (h : x.le y = false) :
    y.lt x = true := by
  rw [lt_iff]
  refine ⟨hy, hx, Int.not_le.1 fun hle => ?_⟩
  rw [le_iff.2 ⟨hx, hy, hle⟩] at h
  cases h

/-! ## The orders compared -/

/-- A lesser value has an earlier place. -/
theorem totalKey_lt_of_lt (h : x.lt y = true) : x.totalKey < y.totalKey := by
  have hvalue := (lt_iff.1 h).2.2
  unfold signedMagnitude at hvalue
  unfold totalKey
  cases hx : x.negative <;> cases hy : y.negative <;> simp [hx, hy] at hvalue ⊢ <;> omega

/-- An earlier place is that of no greater value. -/
theorem signedMagnitude_le_of_totalKey_le (h : x.totalKey ≤ y.totalKey) :
    x.signedMagnitude ≤ y.signedMagnitude := by
  unfold totalKey at h
  unfold signedMagnitude
  cases hx : x.negative <;> cases hy : y.negative <;> simp [hx, hy] at h ⊢ <;> omega

/-- Among numbers, what precedes one that is not above a bound is not above it either. -/
theorem le_of_totalKey_le (number : x.isNaN = false) (h : x.totalKey ≤ y.totalKey)
    (hy : y.le z = true) : x.le z = true := by
  rw [le_iff] at *
  exact ⟨number, hy.2.1, Int.le_trans (signedMagnitude_le_of_totalKey_le h) hy.2.2⟩

/-! ## Zero and infinity -/

theorem isNaN_zero (negative : Bool) : (zero negative : Binary f).isNaN = false :=
  decide_eq_false (Nat.not_lt_zero _)

theorem signedMagnitude_eq_zero : x.signedMagnitude = 0 ↔ x.isZero = true := by
  rw [isZero, decide_eq_true_iff, signedMagnitude]
  split <;> omega

theorem isNaN_of_isZero (h : x.isZero = true) : x.isNaN = false := by
  have hmagnitude : x.magnitude = 0 := of_decide_eq_true h
  exact decide_eq_false (hmagnitude ▸ Nat.not_lt_zero _)

theorem eq_zero_iff : x = zero false ↔ x.isZero = true ∧ x.negative = false := by
  constructor
  · rintro rfl
    exact ⟨rfl, rfl⟩
  · rintro ⟨hzero, hsign⟩
    obtain ⟨negative, magnitude, hmagnitude⟩ := x
    obtain rfl : magnitude = 0 := of_decide_eq_true hzero
    obtain rfl : negative = false := hsign
    rfl

theorem lt_zero_iff : x.lt (zero false) = true ↔ x.isNaN = false ∧ x.signedMagnitude < 0 := by
  rw [lt_iff, isNaN_zero]
  simp [signedMagnitude, zero]

/-- What is not above zero is zero or below it. -/
theorem le_zero_iff : x.le (zero false) = true ↔ x.isZero = true ∨ x.lt (zero false) = true := by
  have hle : x.le (zero false) = true ↔ x.isNaN = false ∧ x.signedMagnitude ≤ 0 := by
    rw [le_iff, isNaN_zero]
    simp [signedMagnitude, zero]
  rw [hle, lt_zero_iff]
  constructor
  · rintro ⟨hnumber, hvalue⟩
    rcases Int.lt_or_eq_of_le hvalue with hlt | heq
    · exact Or.inr ⟨hnumber, hlt⟩
    · exact Or.inl (signedMagnitude_eq_zero.1 heq)
  · rintro (hzero | ⟨hnumber, hlt⟩)
    · exact ⟨isNaN_of_isZero hzero, Int.le_of_eq (signedMagnitude_eq_zero.2 hzero)⟩
    · exact ⟨hnumber, Int.le_of_lt hlt⟩

theorem lt_zero_of_isZero (h : x.isZero = true) : x.lt (zero false) = false := by
  rw [Bool.eq_false_iff, Ne, lt_zero_iff, signedMagnitude_eq_zero.2 h]
  simp

/-- A number without a sign is not below zero. -/
theorem lt_zero_of_positive (h : x.negative = false) : x.lt (zero false) = false := by
  rw [Bool.eq_false_iff, Ne, lt_zero_iff, signedMagnitude, h, if_neg Bool.false_ne_true]
  omega

theorem isInfinite_or_isFinite (h : x.isNaN = false) : x.isInfinite = true ∨ x.isFinite = true := by
  have hle : x.magnitude ≤ f.infinity := Nat.not_lt.1 (of_decide_eq_false h)
  exact (Nat.lt_or_eq_of_le hle).symm.imp decide_eq_true decide_eq_true

/-- Every number is within infinity. -/
theorem le_infinite (h : x.isNaN = false) : x.le (infinite false) = true := by
  have hle : x.magnitude ≤ f.infinity := Nat.not_lt.1 (of_decide_eq_false h)
  refine le_iff.2 ⟨h, decide_eq_false (Nat.lt_irrefl _), ?_⟩
  change (if x.negative then _ else _) ≤ (f.infinity : Int)
  split <;> omega

end ExactNeighbors.Binary
