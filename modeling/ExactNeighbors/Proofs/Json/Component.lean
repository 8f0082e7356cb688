import ExactNeighbors.Proofs.Decimal.RoundTrip
import ExactNeighbors.Proofs.Json.Shape

set_option autoImplicit false

/-! # Reading back components

A component is written with the digits of its shortest decimal, laid out in one of several ways. Whichever
it is, the reader gathers all digits and counts the same power of ten (`Numeral.Shows`), so it meets
the decimal again, and with it the component (`Json.toSingle?_numeralOfFinite`). A component that is
not finite is written as null, which is none. -/

namespace ExactNeighbors

namespace Digit

/-! ## Values of digits -/

/-- What the digits make of the number before them. -/
def appendTo (n : ℕ) (ds : List Digit) : ℕ := ds.foldl (fun n d => 10 * n + d.val) n

theorem toNat_append (ds es : List Digit) : toNat (ds ++ es) = appendTo (toNat ds) es :=
  List.foldl_append

theorem appendTo_eq (n : ℕ) (ds : List Digit) : appendTo n ds = n * 10 ^ ds.length + toNat ds := by
  induction ds using List.reverseRecOn generalizing n with
  | nil => simp [appendTo, toNat]
  | append_singleton ds d ih =>
      have hlast (m : ℕ) : appendTo m (ds ++ [d]) = 10 * appendTo m ds + d.val := List.foldl_append
      rw [hlast, ih, toNat_append_singleton, List.length_append, List.length_singleton]
      ring

theorem le_appendTo (n : ℕ) (ds : List Digit) : n ≤ appendTo n ds := by
  rw [appendTo_eq]
  exact (Nat.le_mul_of_pos_right n (Nat.pow_pos (by decide))).trans (Nat.le_add_right _ _)

theorem toNat_replicate_zero (n : ℕ) : toNat (List.replicate n .zero) = 0 := by
  induction n with
  | zero => rfl
  | succ n ih => rw [List.replicate_succ', toNat_append_singleton, ih, Nat.mul_zero]; rfl

theorem toNat_lt (ds : List Digit) : toNat ds < 10 ^ ds.length := by
  induction ds using List.reverseRecOn with
  | nil => exact Nat.one_pos
  | append_singleton ds d ih =>
      rw [toNat_append_singleton, List.length_append, List.length_singleton, pow_succ]
      omega

end Digit

namespace Numeral

/-! ## Gathering -/

/-- Digits that fit are all read. -/
theorem gather_eq {n : ℕ} {ds : List Digit} (fits : Digit.appendTo n ds < UInt64.size) :
    gather n ds = (Digit.appendTo n ds, 0) := by
  induction ds generalizing n with
  | nil => rfl
  | cons d ds ih =>
      have hfirst : 10 * n + d.val < UInt64.size := (Digit.le_appendTo _ ds).trans_lt fits
      rw [gather, if_pos hfirst]
      exact ih fits

/-- A numeral with few digits is the number of all its digits, times a power of ten. -/
theorem toDouble?_eq {n : Numeral} (fits : Digit.toNat (n.whole ++ n.fraction) < UInt64.size) :
    n.toDouble? =
      let magnitude := timesTenTo (.ofNat (Digit.toNat (n.whole ++ n.fraction)))
        (n.writtenPower - n.fraction.length)
      if n.negative then magnitude.map (-·) else magnitude := by
  rw [Digit.toNat_append] at fits ⊢
  have hwhole : gather 0 n.whole = (Digit.toNat n.whole, 0) :=
    gather_eq ((Digit.le_appendTo _ n.fraction).trans_lt fits)
  have hpower : ((0 : ℕ) : ℤ) - (n.fraction.length - 0 : ℕ) + n.writtenPower =
      n.writtenPower - n.fraction.length := by
    omega
  rw [toDouble?, hwhole]
  dsimp only
  rw [gather_eq fits]
  dsimp only
  rw [hpower]

/-! ## Layouts -/

/-- The numeral has the digits of a decimal, and a point or an exponent. -/
structure Shows (n : Numeral) (d : Decimal) : Prop where
  wellFormed : n.WellFormed
  not_whole : n.isWhole = false
  given : d.Given (Digit.toNat (n.whole ++ n.fraction)) (n.writtenPower - n.fraction.length)
  short : Digit.toNat (n.whole ++ n.fraction) ≤ 2 ^ 53

theorem ne_zero_cons {c : ℕ} (hc : 0 < c) {front back rest : List Digit}
    (h : front ++ back = Digit.ofNat c ++ rest) (ds : List Digit) : front ≠ .zero :: ds := by
  rintro rfl
  obtain ⟨first, others, hfirst⟩ := List.exists_cons_of_ne_nil (Digit.ofNat_ne_nil c)
  rw [hfirst, List.cons_append, List.cons_append] at h
  refine head_ofNat hc others ?_
  rw [hfirst, (List.cons.inj h).1]

/-- An exponent is written with its sign. -/
theorem writtenPower_signed {n : Numeral} {exponent : ℤ}
    (h : n.power = some ⟨false, some (exponent < 0), Digit.ofNat exponent.natAbs⟩) :
    n.writtenPower = exponent := by
  rw [writtenPower, h]
  simp only [Digit.toNat_ofNat, Option.some.injEq, decide_eq_true_eq]
  split <;> omega

section Layouts

variable {d : Decimal} (negative : Bool) (hc : 0 < d.coefficient) (short : d.coefficient < 2 ^ 29)

include hc

/-- A whole number, with a zero behind the point. -/
theorem shows_whole (hlead : d.leadingExponent < 13) (hexponent : 0 ≤ d.exponent) :
    Shows ⟨negative, Digit.ofNat d.coefficient ++ List.replicate d.exponent.toNat .zero, [.zero],
      none⟩ d := by
  have hdigits : Digit.toNat (Digit.ofNat d.coefficient ++ List.replicate d.exponent.toNat .zero ++
      [.zero]) = d.coefficient * 10 ^ (d.exponent.toNat + 1) := by
    rw [List.append_assoc, ← List.replicate_succ', Digit.toNat_append, Digit.appendTo_eq,
      Digit.toNat_ofNat, Digit.toNat_replicate_zero, List.length_replicate, Nat.add_zero]
  refine ⟨⟨?_, fun ds hds => ?_, nofun⟩, rfl, ?_, ?_⟩
  · exact List.append_ne_nil_of_left_ne_nil (Digit.ofNat_ne_nil _) _
  · exact absurd hds (ne_zero_cons hc (List.append_nil _) ds)
  · dsimp only
    rw [hdigits]
    exact .whole hexponent
  · dsimp only
    rw [hdigits]
    have hlt := Digit.toNat_lt (Digit.ofNat d.coefficient)
    rw [Digit.toNat_ofNat] at hlt
    rw [Decimal.leadingExponent] at hlead
    calc d.coefficient * 10 ^ (d.exponent.toNat + 1)
        ≤ 10 ^ (Digit.ofNat d.coefficient).length * 10 ^ (d.exponent.toNat + 1) :=
          Nat.mul_le_mul_right _ hlt.le
      _ = 10 ^ ((Digit.ofNat d.coefficient).length + (d.exponent.toNat + 1)) := (pow_add 10 _ _).symm
      _ ≤ 10 ^ 14 := Nat.pow_le_pow_right (by decide) (by omega)
      _ ≤ 2 ^ 53 := by decide

include short

/-- The digits of the coefficient, parted by the point. -/
theorem shows_split {front back : List Digit} {power : Option Power}
    (hdigits : front ++ back = Digit.ofNat d.coefficient) (hfront : front ≠ [])
    (hpower : ∀ p, power = some p → p.digits ≠ []) (hpoint : back ≠ [] ∨ power ≠ none)
    (hexponent : writtenPower ⟨negative, front, back, power⟩ - back.length = d.exponent) :
    Shows ⟨negative, front, back, power⟩ d where
  wellFormed :=
    ⟨hfront, fun ds hds => absurd hds (ne_zero_cons hc (hdigits.trans (List.append_nil _).symm) ds),
      hpower⟩
  not_whole := by
    rw [isWhole, Bool.and_eq_false_iff]
    refine hpoint.imp (fun h => ?_) (fun h => ?_)
    · exact Bool.eq_false_iff.2 (mt List.isEmpty_iff.1 h)
    · exact Bool.eq_false_iff.2 (mt Option.isNone_iff_eq_none.1 h)
  given := by
    dsimp only
    rw [hdigits, Digit.toNat_ofNat, hexponent]
    exact .self
  short := by
    dsimp only
    rw [hdigits, Digit.toNat_ofNat]
    omega

/-- A fraction below one, with a zero before the point. -/
theorem shows_small {zeros : ℕ}
    (hexponent : ((zeros + (Digit.ofNat d.coefficient).length : ℕ) : ℤ) = -d.exponent) :
    Shows ⟨negative, [.zero], List.replicate zeros .zero ++ Digit.ofNat d.coefficient, none⟩ d := by
  have hdigits : Digit.toNat ([.zero] ++ (List.replicate zeros .zero ++ Digit.ofNat d.coefficient)) =
      d.coefficient := by
    rw [← List.append_assoc, Digit.toNat_append, ← List.replicate_one, ← List.replicate_add,
      Digit.toNat_replicate_zero, Digit.appendTo_eq, Nat.zero_mul, Nat.zero_add, Digit.toNat_ofNat]
  refine ⟨⟨nofun, fun ds hds => (List.cons.inj hds).2.symm, nofun⟩, ?_, ?_, ?_⟩
  · have hne : List.replicate zeros .zero ++ Digit.ofNat d.coefficient ≠ [] :=
      List.append_ne_nil_of_right_ne_nil _ (Digit.ofNat_ne_nil _)
    rw [isWhole, Bool.and_eq_false_iff]
    exact .inl (Bool.eq_false_iff.2 (mt List.isEmpty_iff.1 hne))
  · dsimp only
    rw [hdigits, List.length_append, List.length_replicate, hexponent, writtenPower, zero_sub, neg_neg]
    exact .self
  · dsimp only
    rw [hdigits]
    omega

/-- The positional layout. -/
theorem shows_positional (hlead : d.leadingExponent < 13) :
    Shows ⟨negative, d.positional.1, if d.positional.2.isEmpty then [.zero] else d.positional.2,
      none⟩ d := by
  have hne := Digit.ofNat_ne_nil d.coefficient
  rw [Decimal.positional]
  dsimp only
  by_cases hk : 0 ≤ d.exponent
  · rw [if_pos hk]
    exact shows_whole negative hc hlead hk
  · rw [if_neg hk]
    by_cases hplaces : (-d.exponent).toNat < (Digit.ofNat d.coefficient).length
    · rw [if_pos hplaces, List.splitAt_eq]
      dsimp only
      have hback : ((Digit.ofNat d.coefficient).drop
          ((Digit.ofNat d.coefficient).length - (-d.exponent).toNat)).length =
            (-d.exponent).toNat := by
        rw [List.length_drop]
        omega
      have hback_ne := List.ne_nil_of_length_pos (hback.symm ▸ (by omega : 0 < (-d.exponent).toNat))
      rw [if_neg (mt List.isEmpty_iff.1 hback_ne)]
      refine shows_split negative hc short (List.take_append_drop _ _) ?_ nofun (.inl hback_ne) ?_
      · rw [Ne, List.take_eq_nil_iff, not_or]
        exact ⟨by omega, hne⟩
      · rw [hback, writtenPower]
        dsimp only
        omega
    · have hsmall_ne : List.replicate ((-d.exponent).toNat - (Digit.ofNat d.coefficient).length) .zero ++
          Digit.ofNat d.coefficient ≠ [] := List.append_ne_nil_of_right_ne_nil _ hne
      rw [if_neg hplaces]
      dsimp only
      rw [if_neg (mt List.isEmpty_iff.1 hsmall_ne)]
      exact shows_small negative hc short (by omega)

/-- The layout with an exponent. -/
theorem shows_scientific :
    Shows ⟨negative, (Digit.ofNat d.coefficient).take 1, (Digit.ofNat d.coefficient).drop 1,
      some ⟨false, some (d.leadingExponent < 0), Digit.ofNat d.leadingExponent.natAbs⟩⟩ d := by
  have hne := Digit.ofNat_ne_nil d.coefficient
  have hlength := List.length_pos_of_ne_nil hne
  refine shows_split negative hc short (List.take_append_drop 1 _) ?_ ?_ (.inr nofun) ?_
  · rw [Ne, List.take_eq_nil_iff, not_or]
    exact ⟨one_ne_zero, hne⟩
  · rintro p ⟨⟩
    exact Digit.ofNat_ne_nil _
  · rw [writtenPower_signed rfl, List.length_drop, Decimal.leadingExponent]
    omega

end Layouts

/-! ## Reading -/

/-- **A numeral that shows the shortest decimal of a number is read as the number**, with the sign of
    the numeral. -/
theorem Shows.toSingle?_eq {n : Numeral} {x : Single} {d : Decimal} (shows : n.Shows d)
    (hd : Decimal.ShortestIn .single (.of .single x.magnitude) d) (hx : x.isFinite = true)
    (hp : 0 < x.magnitude) (hsign : n.negative = x.negative) : n.toSingle? = some x := by
  obtain ⟨y, hy, hpos, hfinite, hmagnitude⟩ :=
    hd.exists_narrow hp (of_decide_eq_true hx) shows.given shows.short
  have hclear : y.negative = false := Binary.positive_of_value_pos hpos
  rw [toSingle?, shows.not_whole, Bool.false_and, if_neg Bool.false_ne_true,
    toDouble?_eq (shows.short.trans_lt (by decide)), hy]
  dsimp only
  split
  · next hneg =>
      have hnumber : (-y).isNaN = false := Binary.isNaN_of_isFinite (Binary.isFinite_neg hfinite)
      have hnegative : (-y).negative = true := congrArg (!·) hclear
      refine congrArg some (Binary.eq_of_magnitude_eq ?_ ?_)
      · exact (Binary.magnitude_convert_neg y).trans hmagnitude
      · rw [← hsign, hneg, ← hnegative]
        exact Binary.negative_convert hnumber
  · next hneg =>
      have hnumber : y.isNaN = false := Binary.isNaN_of_isFinite hfinite
      refine congrArg some (Binary.eq_of_magnitude_eq hmagnitude ?_)
      rw [← hsign, Bool.eq_false_iff.2 hneg, ← hclear]
      exact Binary.negative_convert hnumber

end Numeral

namespace Json

open Numeral

/-- However it is laid out, the numeral of a component shows its shortest decimal. -/
theorem shows_numeralOfFinite {x : Single} (hp : 0 < x.magnitude) :
    (numeralOfFinite x).Shows (.shortest .single .toEven x.magnitude) := by
  have hshortest := Decimal.shortestIn_shortest .single .toEven hp
  have hc := hshortest.coefficient_pos hp
  have hshort := hshortest.coefficient_lt hp
  rw [numeralOfFinite]
  dsimp only
  split
  · next hposition => exact shows_positional x.negative hc hshort hposition.2
  · exact shows_scientific x.negative hc hshort

theorem numeralOfFinite_zero (negative : Bool) :
    numeralOfFinite (.zero negative) = ⟨negative, [.zero], [.zero], none⟩ := by
  cases negative <;> decide +kernel

theorem toSingle?_zero (negative : Bool) :
    (⟨negative, [.zero], [.zero], none⟩ : Numeral).toSingle? = some (.zero negative) := by
  have hpower : (⟨negative, [.zero], [.zero], none⟩ : Numeral).writtenPower - [Digit.zero].length = -1 :=
    rfl
  have hfits : Digit.toNat ([.zero] ++ [.zero]) < UInt64.size := by decide
  have hnarrow : (.ofNat 0 / tenTo 1 : Double).narrow = .zero false ∧
      (-(.ofNat 0 / tenTo 1) : Double).narrow = .zero true := by
    decide +kernel
  rw [Numeral.toSingle?, toDouble?_eq hfits]
  dsimp only
  rw [hpower, timesTenTo_of_neg _ (by decide) (by decide)]
  cases negative with
  | false => exact congrArg some hnarrow.1
  | true => exact congrArg some hnarrow.2

theorem eq_zero_or_pos (x : Single) : x = .zero x.negative ∨ 0 < x.magnitude :=
  (Nat.eq_zero_or_pos x.magnitude).imp_left fun h => Binary.eq_of_magnitude_eq h rfl

/-- **A finite component is read back from its numeral.** -/
theorem toSingle?_numeralOfFinite {x : Single} (hx : x.isFinite = true) :
    (numeralOfFinite x).toSingle? = some x := by
  rcases eq_zero_or_pos x with hzero | hp
  · rw [hzero, numeralOfFinite_zero, toSingle?_zero]
  · have hsign : (numeralOfFinite x).negative = x.negative := by
      rw [numeralOfFinite]
      dsimp only
      split <;> rfl
    exact (shows_numeralOfFinite hp).toSingle?_eq (Decimal.shortestIn_shortest _ _ hp) hx hp hsign

theorem wellFormed_numeralOfFinite (x : Single) : (numeralOfFinite x).WellFormed := by
  rcases eq_zero_or_pos x with hzero | hp
  · rw [hzero, numeralOfFinite_zero]
    exact ⟨nofun, fun ds hds => (List.cons.inj hds).2.symm, nofun⟩
  · exact (shows_numeralOfFinite hp).wellFormed

theorem clean_ofSingle (x : Single) : (ofSingle x).Clean := by
  rw [ofSingle]
  split
  · exact List.forall_mem_singleton.2 (Token.clean_number (wellFormed_numeralOfFinite x))
  · exact clean_null

/-- A component is read back if it is finite, and not at all otherwise. -/
theorem toSingle?_ofSingle (x : Single) :
    (ofSingle x).toSingle? = if x.isFinite then some x else none := by
  rw [ofSingle]
  split
  · next hx => exact toSingle?_numeralOfFinite hx
  · rfl

end Json

end ExactNeighbors
