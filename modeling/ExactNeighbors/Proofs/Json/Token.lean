import ExactNeighbors.Json.Token
import Mathlib.Data.List.Basic

set_option autoImplicit false

/-! # Scanning what was written

A token that the grammar knows is scanned again as it was written, up to what follows it: a numeral
goes on as far as it can, so it must not stand before a character that would continue it
(`Numeral.Ends`). Every other token knows its own end. What the grammar knows is said apart from the
scanners (`Numeral.WellFormed`, `Quoted.WellFormed`), and it is more than is ever written here:
numerals may be of any length, and an escape need not stand for a text.

From one token to a text: `Token.Spells` says that a text is made of tokens and of blanks anywhere
between them, each numeral standing where it ends, and such a text is cut into these
tokens (`Token.Spells.scan_eq`). -/

namespace ExactNeighbors

namespace Numeral

/-! ## Digits -/

/-- No digit starts this text, so that a run of digits may end before it. -/
def NoDigit (cs : List Char) : Prop := ∀ c ∈ cs.head?, Digit.ofChar? c = none

theorem scanDigits_append (ds : List Digit) {rest : List Char} (h : NoDigit rest) :
    scanDigits (ds.map Digit.toChar ++ rest) = (ds, rest) := by
  induction ds with
  | nil =>
      cases rest with
      | nil => rfl
      | cons c cs => rw [List.map_nil, List.nil_append, scanDigits, h c rfl]
  | cons d ds ih => rw [List.map_cons, List.cons_append, scanDigits, Digit.ofChar?_toChar, ih]

theorem toChar_ne_zero {d : Digit} (h : d ≠ .zero) : d.toChar ≠ '0' := by
  revert d
  decide

theorem toChar_ne_sign (d : Digit) : d.toChar ≠ '+' ∧ d.toChar ≠ '-' := by
  revert d
  decide

/-! ## Numerals -/

/-- A numeral may end before this text. -/
def Ends (cs : List Char) : Prop :=
  ∀ c ∈ cs.head?, Digit.ofChar? c = none ∧ c ≠ '.' ∧ c ≠ 'e' ∧ c ≠ 'E'

theorem Ends.noDigit {cs : List Char} (h : Ends cs) : NoDigit cs := fun c hc => (h c hc).1

theorem ends_nil : Ends [] := by
  intro c hc
  cases hc

theorem ends_cons {c : Char} (cs : List Char)
    (h : Digit.ofChar? c = none ∧ c ≠ '.' ∧ c ≠ 'e' ∧ c ≠ 'E') : Ends (c :: cs) := by
  intro c' hc'
  cases hc'
  exact h

/-- The numerals that the grammar knows: a zero in front stands alone, and an exponent has
    digits. -/
structure WellFormed (n : Numeral) : Prop where
  whole_ne_nil : n.whole ≠ []
  zero_alone : ∀ ds, n.whole = .zero :: ds → ds = []
  power_digits : ∀ p, n.power = some p → p.digits ≠ []

theorem scanWhole_append {n : Numeral} (wf : n.WellFormed) {rest : List Char} (h : NoDigit rest) :
    scanWhole (n.whole.map Digit.toChar ++ rest) = some (n.whole, rest) := by
  obtain ⟨d, ds, hwhole⟩ := List.exists_cons_of_ne_nil wf.whole_ne_nil
  have hscan := scanDigits_append n.whole h
  rw [hwhole, List.map_cons, List.cons_append] at hscan ⊢
  by_cases hzero : d = .zero
  · subst hzero
    rw [wf.zero_alone ds hwhole]
    rfl
  · have hne := toChar_ne_zero hzero
    rw [scanWhole, hscan]
    rintro cs h
    exact hne (List.cons.inj h).1

/-- The point and the digits behind it. -/
def fractionChars (ds : List Digit) : List Char :=
  if ds.isEmpty then [] else '.' :: ds.map Digit.toChar

theorem scanFraction_append (ds : List Digit) {rest : List Char}
    (h : ∀ c ∈ rest.head?, Digit.ofChar? c = none ∧ c ≠ '.') :
    scanFraction (fractionChars ds ++ rest) = some (ds, rest) := by
  cases ds with
  | nil =>
      cases rest with
      | nil => rfl
      | cons c cs =>
          rw [fractionChars, List.isEmpty_nil, if_pos rfl, List.nil_append, scanFraction]
          rintro cs' hcs'
          exact (h c rfl).2 (List.cons.inj hcs').1
  | cons d ds =>
      rw [fractionChars, List.isEmpty_cons, if_neg Bool.false_ne_true, List.cons_append,
        scanFraction, scanDigits_append _ fun c hc => (h c hc).1]

theorem noDigit_fractionChars (ds : List Digit) {rest : List Char} (h : NoDigit rest) :
    NoDigit (fractionChars ds ++ rest) := by
  cases ds with
  | nil => exact h
  | cons d ds =>
      intro c hc
      cases hc
      decide

/-- The characters of a sign that may stand in an exponent. -/
def signChars : Option Bool → List Char
  | none => []
  | some true => ['-']
  | some false => ['+']

theorem scanSign_append (sign : Option Bool) {ds : List Digit} (hdigits : ds ≠ [])
    (rest : List Char) :
    scanSign (signChars sign ++ (ds.map Digit.toChar ++ rest)) =
      (sign, ds.map Digit.toChar ++ rest) := by
  obtain ⟨d, ds, rfl⟩ := List.exists_cons_of_ne_nil hdigits
  rcases sign with _ | _ | _
  · obtain ⟨hplus, hminus⟩ := toChar_ne_sign d
    rw [signChars, List.nil_append, List.map_cons, List.cons_append, scanSign]
    · rintro cs h
      exact hplus (List.cons.inj h).1
    · rintro cs h
      exact hminus (List.cons.inj h).1
  · rfl
  · rfl

theorem scanPower_append (c : Char) (sign : Option Bool) {ds : List Digit} (hdigits : ds ≠ [])
    {rest : List Char} (h : NoDigit rest) :
    scanPower c (signChars sign ++ (ds.map Digit.toChar ++ rest)) =
      some (⟨c = 'E', sign, ds⟩, rest) := by
  rw [scanPower, scanSign_append sign hdigits rest]
  simp only [scanDigits_append ds h]

/-- The exponent, if there is one. -/
def powerChars : Option Power → List Char
  | none => []
  | some p => p.chars

theorem scanPower?_append {power : Option Power} (hdigits : ∀ p, power = some p → p.digits ≠ [])
    {rest : List Char} (h : Ends rest) :
    scanPower? (powerChars power ++ rest) = some (power, rest) := by
  cases power with
  | none =>
      cases rest with
      | nil => rfl
      | cons c cs =>
          obtain ⟨-, -, he, hE⟩ := h c rfl
          rw [powerChars, List.nil_append, scanPower?, if_neg (not_or.2 ⟨he, hE⟩)]
  | some p =>
      obtain ⟨capital, sign, ds⟩ := p
      have hscan (c : Char) := scanPower_append c sign (hdigits _ rfl) h.noDigit
      have hchars : powerChars (some ⟨capital, sign, ds⟩) ++ rest =
          (if capital then 'E' else 'e') :: (signChars sign ++ (ds.map Digit.toChar ++ rest)) := by
        rw [← List.append_assoc]
        rfl
      rw [hchars, scanPower?, hscan]
      cases capital <;> rfl

/-- What stands behind the fraction does not continue it. -/
theorem head_powerChars (power : Option Power) {rest : List Char} (h : Ends rest) :
    ∀ c ∈ (powerChars power ++ rest).head?, Digit.ofChar? c = none ∧ c ≠ '.' := by
  intro c hc
  cases power with
  | none => exact ⟨(h c hc).1, (h c hc).2.1⟩
  | some p =>
      have hletter : c = 'E' ∨ c = 'e' := by
        obtain ⟨capital, sign, ds⟩ := p
        cases capital <;> cases hc <;> simp
      rcases hletter with rfl | rfl <;> decide

theorem chars_append (n : Numeral) (rest : List Char) :
    n.chars ++ rest = (if n.negative then ['-'] else []) ++ (n.whole.map Digit.toChar ++
      (fractionChars n.fraction ++ (powerChars n.power ++ rest))) := by
  simp only [chars, fractionChars, List.append_assoc]
  cases n.power <;> rfl

/-- **A numeral is scanned back**, up to where it ends. -/
theorem WellFormed.scan_append {n : Numeral} (wf : n.WellFormed) {rest : List Char}
    (h : Ends rest) : scan (n.chars ++ rest) = some (n, rest) := by
  have hbehind := head_powerChars n.power h
  have hpower := scanPower?_append wf.power_digits h
  have hfraction := scanFraction_append n.fraction hbehind
  have hwhole := scanWhole_append wf
    (noDigit_fractionChars n.fraction fun c hc => (hbehind c hc).1)
  have hunsigned : scanUnsigned n.negative (n.whole.map Digit.toChar ++
      (fractionChars n.fraction ++ (powerChars n.power ++ rest))) = some (n, rest) := by
    simp only [scanUnsigned, hwhole, hfraction, hpower, Option.bind_eq_bind, Option.bind_some]
    rfl
  rw [chars_append]
  cases hneg : n.negative with
  | true =>
      rw [hneg] at hunsigned
      exact hunsigned
  | false =>
      obtain ⟨d, ds, hcons⟩ := List.exists_cons_of_ne_nil wf.whole_ne_nil
      rw [hneg, hcons] at hunsigned
      rw [hcons, if_neg Bool.false_ne_true, List.nil_append, ← hunsigned, List.map_cons,
        List.cons_append, scan]
      rintro cs hcs
      exact (toChar_ne_sign d).2 (List.cons.inj hcs).1

theorem head_ofNat {n : Nat} (hpos : 0 < n) (ds : List Digit) :
    Digit.ofNat n ≠ .zero :: ds := by
  induction n using Nat.strongRecOn generalizing ds with
  | ind n ih =>
      unfold Digit.ofNat
      split
      · intro h
        have hlast := congrArg Fin.val (List.cons.inj h).1
        simp only [Digit.zero] at hlast
        omega
      · obtain ⟨d, front, hfront⟩ := List.exists_cons_of_ne_nil (Digit.ofNat_ne_nil (n / 10))
        rw [hfront, List.cons_append]
        intro h
        refine ih (n / 10) (by omega) (by omega) front ?_
        rw [hfront, (List.cons.inj h).1]

theorem wellFormed_ofNat (n : Nat) : (ofNat n).WellFormed where
  whole_ne_nil := Digit.ofNat_ne_nil n
  zero_alone ds hds := by
    rcases Nat.eq_zero_or_pos n with rfl | hpos
    · have hzero : Digit.ofNat 0 = [.zero] := by
        unfold Digit.ofNat
        rfl
      rw [ofNat, hzero] at hds
      exact (List.cons.inj hds).2.symm
    · exact absurd hds (head_ofNat hpos ds)
  power_digits p hp := by cases hp

/-- A count is read back from its numeral. -/
theorem toUInt64?_ofNat (n : UInt64) : (ofNat n.toNat).toUInt64? = some n := by
  have hlt := n.toNat_lt_size
  simp [toUInt64?, ofNat, isWhole, Digit.toNat_ofNat, hlt]

end Numeral

/-! ## Strings -/

namespace Quoted

/-- The characters that the grammar allows between quotes. All stand for themselves but quotes,
    backslashes and control characters; escapes are of one letter or of four hexadecimal digits. -/
inductive WellFormedBody : List Char → Prop
  | nil : WellFormedBody []
  | plain {c : Char} {cs : List Char} (unescaped : isControl c = false ∧ c ≠ '"' ∧ c ≠ '\\')
      (others : WellFormedBody cs) : WellFormedBody (c :: cs)
  | letter {e : Char} {cs : List Char} (known : (escaped? e).isSome = true)
      (others : WellFormedBody cs) : WellFormedBody ('\\' :: e :: cs)
  | code {a b c d : Char} {cs : List Char} (hex : (hexCode? a b c d).isSome = true)
      (others : WellFormedBody cs) : WellFormedBody ('\\' :: 'u' :: a :: b :: c :: d :: cs)

/-- The strings that the grammar knows. -/
def WellFormed (s : Quoted) : Prop := WellFormedBody s.body

/-- **A string is scanned back**, up to its closing quote. -/
theorem WellFormedBody.scan_append {cs : List Char} (wf : WellFormedBody cs) (rest : List Char) :
    scan (cs ++ '"' :: rest) = some (cs, rest) := by
  induction wf with
  | nil => rfl
  | @plain c cs unescaped _ ih =>
      obtain ⟨hcontrol, hquote, hslash⟩ := unescaped
      rw [List.cons_append, scan, ih, hcontrol]
      · simp [hslash]
      · exact hquote
      · rintro a b c d rest h
        exact absurd h hslash
      · rintro e rest h
        exact absurd h hslash
  | @letter e cs known _ ih =>
      rw [List.cons_append, List.cons_append, scan, ih, if_pos known]
      · rfl
      · -- four digits follow this letter only, and it is no escape by itself
        rintro a b c d rest rfl
        cases known
  | code hex _ ih => simp [scan, hex, ih]

/-! ## Texts -/

theorem hexCode?_control :
    ∀ n, n < 0x20 → hexCode? '0' '0' (hexChar (n / 16)) (hexChar (n % 16)) = some n := by
  decide

/-- A character is written in one of three ways. -/
theorem encodeChar_cases (c : Char) :
    (∃ e, encodeChar c = ['\\', e] ∧ e ≠ 'u' ∧ escaped? e = some c) ∨
    (c.toNat < 0x20 ∧ encodeChar c =
      ['\\', 'u', '0', '0', hexChar (c.toNat / 16), hexChar (c.toNat % 16)]) ∨
    (encodeChar c = [c] ∧ isControl c = false ∧ c ≠ '"' ∧ c ≠ '\\') := by
  unfold encodeChar
  split
  case h_8 hquote hslash _ _ _ _ _ =>
    split
    · next hcontrol => exact Or.inr (Or.inl ⟨of_decide_eq_true hcontrol, rfl⟩)
    · next hcontrol =>
        exact Or.inr (Or.inr ⟨rfl, Bool.eq_false_iff.2 hcontrol, hquote, hslash⟩)
  all_goals exact Or.inl ⟨_, rfl, by decide, rfl⟩

theorem decode_encodeChar (c : Char) (cs : List Char) :
    decode (encodeChar c ++ cs) = (decode cs).map (c :: ·) := by
  obtain ⟨e, henc, hu, hescaped⟩ | ⟨hlt, henc⟩ | ⟨henc, hcontrol, hquote, hslash⟩ :=
    encodeChar_cases c
  · rw [henc, List.cons_append, List.cons_append, List.nil_append, decode, hescaped]
    rintro a b c d rest h
    exact absurd h hu
  · rw [henc]
    simp only [List.cons_append, List.nil_append, decode, hexCode?_control c.toNat hlt]
    -- A control character is no surrogate.
    rw [if_neg (by omega), if_neg (by omega), Char.ofNat_toNat]
  · rw [henc, List.cons_append, List.nil_append, decode]
    · rintro a b c d rest h
      exact absurd h hslash
    · rintro e rest h
      exact absurd h hslash

theorem wellFormedBody_encodeChar (c : Char) {cs : List Char} (wf : WellFormedBody cs) :
    WellFormedBody (encodeChar c ++ cs) := by
  obtain ⟨e, henc, -, hescaped⟩ | ⟨hlt, henc⟩ | ⟨henc, hunescaped⟩ := encodeChar_cases c
  · rw [henc]
    exact .letter (by rw [hescaped]; rfl) wf
  · rw [henc]
    exact .code (by rw [hexCode?_control c.toNat hlt]; rfl) wf
  · rw [henc]
    exact .plain hunescaped wf

/-- The string of a text is well formed. -/
theorem wellFormed_ofText (s : String) : (ofText s).WellFormed := by
  rw [WellFormed, ofText]
  induction s.toList with
  | nil => exact .nil
  | cons c cs ih => exact wellFormedBody_encodeChar c ih

/-- The string of a text stands for it. -/
theorem text?_ofText (s : String) : (ofText s).text? = some s := by
  have hdecode (cs : List Char) : decode (cs.flatMap encodeChar) = some cs := by
    induction cs with
    | nil => rfl
    | cons c cs ih =>
        rw [List.flatMap_cons, decode_encodeChar, ih]
        rfl
  rw [text?, ofText, hdecode, Option.map_some, String.ofList_toList]

end Quoted

/-! ## Tokens -/

namespace Json.Token

/-- A token may stand before this text without running on into it. -/
def Precedes (t : Token) (cs : List Char) : Prop := ∀ n, t = .number n → Numeral.Ends cs

/-- The tokens that are scanned back wherever they may stand. -/
def Clean (t : Token) : Prop := ∀ rest, t.Precedes rest → scanOne (t.chars ++ rest) = some (t, rest)

/-- A minus or a digit starts a numeral and no other token. -/
theorem scanOne_number {c : Char} (h : c = '-' ∨ ∃ d, c = Digit.toChar d) (cs : List Char) :
    scanOne (c :: cs) = (Numeral.scan (c :: cs)).map fun (n, rest) => (.number n, rest) := by
  have hothers : c ∉ ['[', ']', '\x7b', '\x7d', ',', ':', 'n', 't', 'f', '"'] := by
    rcases h with rfl | ⟨d, rfl⟩
    · decide
    · revert d
      decide
  unfold scanOne
  split <;> simp_all

theorem clean_number {n : Numeral} (wf : n.WellFormed) : (number n).Clean := by
  intro rest h
  have hscan := wf.scan_append (h n rfl)
  obtain ⟨c, cs, hfirst, hchars⟩ : ∃ c cs, (c = '-' ∨ ∃ d, c = Digit.toChar d) ∧
      n.chars ++ rest = c :: cs := by
    obtain ⟨d, ds, hwhole⟩ := List.exists_cons_of_ne_nil wf.whole_ne_nil
    rw [Numeral.chars_append, hwhole]
    cases n.negative with
    | true => exact ⟨_, _, Or.inl rfl, rfl⟩
    | false => exact ⟨_, _, Or.inr ⟨d, rfl⟩, rfl⟩
  rw [chars, hchars, scanOne_number hfirst, ← hchars, hscan]
  rfl

theorem clean_string {s : Quoted} (wf : s.WellFormed) : (string s).Clean := by
  intro rest h
  have hscan := wf.scan_append rest
  simp only [chars, Quoted.chars, List.cons_append, List.append_assoc, List.nil_append, scanOne,
    hscan]
  rfl

/-- The tokens whose characters are fixed. -/
theorem clean_fixed {t : Token} (h : ∀ n, t ≠ .number n) (h' : ∀ s, t ≠ .string s) :
    t.Clean := by
  intro rest _
  cases t with
  | number n => exact absurd rfl (h n)
  | string s => exact absurd rfl (h' s)
  | bool b => cases b <;> rfl
  | _ => rfl

/-- The tokens that the grammar knows. -/
def WellFormed : Token → Prop
  | number n => n.WellFormed
  | string s => s.WellFormed
  | _ => True

theorem WellFormed.clean {t : Token} (wf : t.WellFormed) : t.Clean := by
  cases t with
  | number n => exact clean_number wf
  | string s => exact clean_string wf
  | _ => exact clean_fixed nofun nofun

/-- A text that is made of these tokens, with blanks anywhere between them. -/
inductive Spells : List Token → List Char → Prop
  | nil : Spells [] []
  | blank {ts : List Token} {cs : List Char} {c : Char} (blank : isBlank c)
      (others : Spells ts cs) : Spells ts (c :: cs)
  | token {t : Token} {ts : List Token} {cs : List Char} (clean : t.Clean)
      (precedes : t.Precedes cs) (others : Spells ts cs) : Spells (t :: ts) (t.chars ++ cs)

theorem scanOne_nil : scanOne [] = none := rfl

theorem scanOne_blank {c : Char} (blank : isBlank c) (cs : List Char) :
    scanOne (c :: cs) = none := by
  simp only [isBlank, Bool.or_eq_true, decide_eq_true_eq] at blank
  rcases blank with ((rfl | rfl) | rfl) | rfl <;> rfl

/-- A token that is scanned back has characters, the first of them no blank. -/
theorem Clean.chars_cons {t : Token} (clean : t.Clean) :
    ∃ c cs, t.chars = c :: cs ∧ isBlank c = false := by
  have hscan := clean [] fun _ _ => Numeral.ends_nil
  rw [List.append_nil] at hscan
  cases hchars : t.chars with
  | nil =>
      rw [hchars, scanOne_nil] at hscan
      cases hscan
  | cons c cs =>
      refine ⟨c, cs, rfl, Bool.eq_false_iff.2 fun hblank => ?_⟩
      rw [hchars, scanOne_blank hblank] at hscan
      cases hscan

theorem Spells.scanWithin_eq {ts : List Token} {cs : List Char} (h : Spells ts cs) {fuel : Nat}
    (enough : cs.length ≤ fuel) : scanWithin fuel cs = some ts := by
  induction h generalizing fuel with
  | nil => cases fuel <;> rfl
  | blank hblank _ ih =>
      cases fuel with
      | zero => exact absurd enough (Nat.not_succ_le_zero _)
      | succ fuel =>
          rw [scanWithin, if_pos hblank]
          exact ih (Nat.le_of_succ_le_succ enough)
  | token clean precedes _ ih =>
      have hscan := clean _ precedes
      obtain ⟨c, cs, hchars, hblank⟩ := clean.chars_cons
      rw [hchars, List.cons_append] at hscan enough ⊢
      cases fuel with
      | zero => exact absurd enough (Nat.not_succ_le_zero _)
      | succ fuel =>
          rw [List.length_cons, List.length_append] at enough
          rw [scanWithin, hblank, if_neg Bool.false_ne_true, hscan]
          simp only [ih (show _ ≤ fuel by omega), Option.map_some]

/-- A text is cut into the tokens that spell it. -/
theorem Spells.scan_eq {ts : List Token} {cs : List Char} (h : Spells ts cs) :
    scan cs = some ts := h.scanWithin_eq (Nat.le_refl _)

end Json.Token

end ExactNeighbors
