import ExactNeighbors.Proofs.Binary.Exact
import Mathlib.Data.List.Basic

set_option autoImplicit false

/-! # Sums of any length

Adding up rounded sums does not grow without limit. Once a sum has reached a power of two that is as
many bits above the terms as a significand has, a further term is at most half a step of it, and a sum
at the power of two stays there (`Binary.Bounded.add`). So terms below a bound have a sum below a
bound that does not depend on how many there are, and nothing overflows.

Sums of numbers without a sign are simpler: they may overflow, but they can neither turn negative nor
stop being numbers (`Binary.Plain.add`). -/

namespace ExactNeighbors.Binary

variable {f : Format} {x y : Binary f}

/-! ## Bounded sums -/

/-- A finite number within a power of two. -/
structure Bounded (k : ℕ) (x : Binary f) : Prop where
  finite : x.isFinite = true
  abs_le : |x.value| ≤ 2 ^ k

theorem Bounded.mono {k l : ℕ} (h : Bounded k x) (hkl : k ≤ l) : Bounded l x :=
  ⟨h.finite, h.abs_le.trans (pow_le_pow_right₀ one_le_two hkl)⟩

theorem infinity_pos (f : Format) [f.Regular] : 0 < f.infinity := by
  rw [← f.units_strictMono.lt_iff_lt, f.units_zero, f.units_infinity]
  exact Nat.two_pow_pos _

theorem bounded_zero [f.Regular] (negative : Bool) (k : ℕ) :
    Bounded k (zero negative : Binary f) where
  finite := decide_eq_true (infinity_pos f)
  abs_le := by
    rw [value_zero, abs_zero]
    positivity

theorem Rounded.bounded [f.Regular] {r : ℚ} (h : Rounded r x) {k : ℕ} (hk : k < f.range)
    (hr : |r| ≤ 2 ^ k) : Bounded k x :=
  ⟨isFinite_of_abs_value_le h.magnitude_le hk (h.abs_value_le hr), h.abs_value_le hr⟩

/-- **A sum at its limit takes up no more.** -/
theorem Bounded.add [f.Regular] {k : ℕ} (hk : f.fractionBits + 1 + k < f.range)
    (hx : Bounded (f.fractionBits + 1 + k) x) (hy : Bounded k y) :
    Bounded (f.fractionBits + 1 + k) (x + y) := by
  have hsum := add_rounded hx.finite hy.finite
  have hle := hsum.abs_value_le_of_half_step
    ((abs_add_le _ _).trans (add_le_add hx.abs_le hy.abs_le))
  exact ⟨isFinite_of_abs_value_le hsum.magnitude_le hk hle, hle⟩

theorem Bounded.foldl_add [f.Regular] {k : ℕ} (hk : f.fractionBits + 1 + k < f.range)
    {terms : List (Binary f)} (hterms : ∀ t ∈ terms, Bounded k t) {sum : Binary f}
    (hsum : Bounded (f.fractionBits + 1 + k) sum) :
    Bounded (f.fractionBits + 1 + k) (terms.foldl (· + ·) sum) :=
  List.foldlRecOn terms (· + ·) hsum fun _ hs t ht => hs.add hk (hterms t ht)

/-- Terms that are not negative do not lower a sum, and none of them is above it. -/
theorem Bounded.le_foldl_add [f.Regular] {k : ℕ} (hk : f.fractionBits + 1 + k < f.range)
    {terms : List (Binary f)} (hterms : ∀ t ∈ terms, Bounded k t)
    (hnonneg : ∀ t ∈ terms, 0 ≤ t.value) {sum : Binary f}
    (hsum : Bounded (f.fractionBits + 1 + k) sum) (hpos : 0 ≤ sum.value) :
    sum.value ≤ (terms.foldl (· + ·) sum).value ∧
      ∀ t ∈ terms, t.value ≤ (terms.foldl (· + ·) sum).value := by
  induction terms generalizing sum with
  | nil => exact ⟨le_rfl, nofun⟩
  | cons t ts ih =>
      obtain ⟨ht, hts⟩ := List.forall_mem_cons.1 hterms
      obtain ⟨htpos, htspos⟩ := List.forall_mem_cons.1 hnonneg
      have hadd := add_rounded hsum.finite ht.finite
      have hsumle : sum.value ≤ (sum + t).value :=
        hadd.le_value (magnitude_le_of_isFinite hsum.finite) (le_add_of_nonneg_right htpos)
      have htle : t.value ≤ (sum + t).value :=
        hadd.le_value (magnitude_le_of_isFinite ht.finite) (le_add_of_nonneg_left hpos)
      obtain ⟨hle, hall⟩ := ih hts htspos (hsum.add hk ht) (hpos.trans hsumle)
      exact ⟨hsumle.trans hle, List.forall_mem_cons.2 ⟨htle.trans hle, hall⟩⟩

/-! ## Sums without a sign -/

/-- A number, perhaps infinite, whose sign bit is clear. -/
structure Plain (x : Binary f) : Prop where
  number : x.isNaN = false
  clear : x.negative = false

theorem signedSignificand_nonneg (hx : x.Plain ∨ x = zero true) (e : ℕ) :
    0 ≤ x.signedSignificand e := by
  rcases hx with hx | rfl
  · rw [signedSignificand, hx.clear, if_neg Bool.false_ne_true]
    exact Int.natCast_nonneg _
  · have hzero : (zero true : Binary f).significand = 0 := if_pos f.leading_pos
    rw [signedSignificand, hzero, Nat.zero_shiftLeft]
    exact (if_pos rfl).ge

/-- **Adding a plain number leaves a plain number.** A sum that starts from negative zero is plain
    from the first term on. -/
theorem Plain.add [f.Regular] (hx : x.Plain ∨ x = zero true) (hy : y.Plain) : (x + y).Plain := by
  have hnumber : x.isNaN = false := by
    rcases hx with hx | rfl
    · exact hx.number
    · exact decide_eq_false (Nat.not_lt_zero _)
  have hinfinite (h : x.isInfinite = true) : x.Plain := by
    rcases hx with hx | rfl
    · exact hx
    · exact absurd (of_decide_eq_true h) (infinity_pos f).ne
  have hsum (e : ℕ) : ¬ x.signedSignificand e + y.signedSignificand e < 0 :=
    not_lt.2 (add_nonneg (signedSignificand_nonneg hx e) (signedSignificand_nonneg (Or.inl hy) e))
  change (Binary.add x y).Plain
  unfold Binary.add
  rw [hnumber, hy.number]
  simp only [Bool.or_self, Bool.false_eq_true, if_false]
  split
  · next h =>
      have hsame : (x.negative != y.negative) = false := by rw [(hinfinite h).clear, hy.clear]; rfl
      rw [hsame, Bool.and_false, if_neg Bool.false_ne_true]
      exact hinfinite h
  · split
    · exact hy
    · split
      · exact ⟨decide_eq_false (Nat.not_lt_zero _), by rw [zero, hy.clear, Bool.and_false]⟩
      · exact ⟨decide_eq_false (Nat.not_lt.2 (f.round_le_infinity _ _ _)),
          decide_eq_false (hsum _)⟩

/-- A square is plain. -/
theorem Plain.mul_self [f.Regular] (hx : x.isNaN = false) : (x * x).Plain := by
  change (Binary.mul x x).Plain
  unfold Binary.mul
  rw [hx, bne_self_eq_false]
  simp only [Bool.or_self, Bool.false_eq_true, if_false]
  split
  · next h =>
      -- An infinity is not zero.
      have hzero : x.isZero = false :=
        decide_eq_false fun hzero => (infinity_pos f).ne' ((of_decide_eq_true h).symm.trans hzero)
      rw [hzero, if_neg Bool.false_ne_true]
      exact ⟨decide_eq_false (Nat.lt_irrefl _), rfl⟩
  · exact ⟨decide_eq_false (Nat.not_lt.2 (f.round_le_infinity _ _ _)), rfl⟩

/-- A difference of finite numbers may be infinite but is a number. -/
theorem isNaN_sub (hx : x.isFinite = true) (hy : y.isFinite = true) : (x - y).isNaN = false :=
  (sub_rounded hx hy).isNaN_eq

end ExactNeighbors.Binary
