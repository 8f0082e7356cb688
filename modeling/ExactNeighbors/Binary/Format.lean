set_option autoImplicit false

/-! # Binary floating-point numbers

A number of a binary format is a sign and a *magnitude*: the exponent and fraction fields read as
one natural number. Magnitudes are in the order of the values they stand for, so that

* the finite numbers are those below `Format.infinity`, the not-a-numbers those above it;
* the next magnitude is the next larger number, also across a power of two and into infinity.

Finite values are whole multiples of the format's *unit*, its least positive number. The magnitude
`p` stands for `significand p * 2 ^ exponent p` units, and a unit is `2 ^ -scale`. Nothing of a bit
pattern is forgotten: two numbers that differ only in the sign or the payload of a not-a-number are
different, which the total order of `ExactNeighbors.Binary.Order` needs. -/

namespace ExactNeighbors

/-- The widths of the two fields that follow the sign bit, with three numbers that every operation
    needs and that follow from the widths. -/
structure Format where
  exponentBits : Nat
  fractionBits : Nat
  /-- The leading one of a significand, which is not stored. -/
  leading : Nat := Nat.pow 2 fractionBits
  /-- The magnitude of infinity: the largest exponent field and no fraction. -/
  infinity : Nat := (Nat.pow 2 exponentBits - 1) * leading
  /-- A unit is `2 ^ -scale`; the number one is `2 ^ scale` units. -/
  scale : Nat := Nat.pow 2 (exponentBits - 1) - 2 + fractionBits
  leading_eq : leading = Nat.pow 2 fractionBits := by rfl
  infinity_eq : infinity = (Nat.pow 2 exponentBits - 1) * leading := by rfl
  scale_eq : scale = Nat.pow 2 (exponentBits - 1) - 2 + fractionBits := by rfl
deriving DecidableEq

namespace Format

/-- The format of 32 bits: 8 of exponent, 23 of fraction. -/
def single : Format where
  exponentBits := 8
  fractionBits := 23

/-- The format of 64 bits: 11 of exponent, 52 of fraction. -/
def double : Format where
  exponentBits := 11
  fractionBits := 52

theorem leading_pos (f : Format) : 0 < f.leading := by
  rw [f.leading_eq]
  exact Nat.two_pow_pos _

/-- The number of magnitudes. -/
def span (f : Format) : Nat := Nat.pow 2 f.exponentBits * f.leading

theorem infinity_lt_span (f : Format) : f.infinity < f.span := by
  rw [f.infinity_eq]
  exact Nat.mul_lt_mul_of_pos_right (Nat.sub_lt (Nat.two_pow_pos _) Nat.one_pos) f.leading_pos

theorem span_pos (f : Format) : 0 < f.span :=
  Nat.mul_pos (Nat.two_pow_pos _) f.leading_pos

/-- The whole number that a magnitude scales: its fraction, with the leading one unless the exponent
    field is zero. -/
def significand (f : Format) (p : Nat) : Nat :=
  if p < f.leading then p else f.leading + p % f.leading

/-- The power of two that scales the significand; exponent fields zero and one share the least. -/
def exponent (f : Format) (p : Nat) : Nat := p / f.leading - 1

/-- The value of a finite magnitude in units. -/
def units (f : Format) (p : Nat) : Nat :=
  f.significand p * Nat.pow 2 (f.exponent p)

end Format

/-- A number of format `f`, with its sign kept apart from its magnitude. -/
structure Binary (f : Format) where
  /-- The sign bit; zeros and not-a-numbers have one too. -/
  negative : Bool
  /-- The exponent field and, below it, the fraction. -/
  magnitude : Nat
  magnitude_lt : magnitude < f.span
deriving DecidableEq

/-- Components of points and distances. -/
abbrev Single := Binary Format.single

/-- Norms, and the products and sums that lead to them. -/
abbrev Double := Binary Format.double

namespace Binary

variable {f : Format}

/-! ## Bit patterns -/

/-- The number with the given bit pattern; bits above the sign are ignored. -/
def ofBits (f : Format) (bits : Nat) : Binary f :=
  ⟨bits / f.span % 2 = 1, bits % f.span, Nat.mod_lt _ f.span_pos⟩

/-- The bit pattern: the sign bit above the magnitude. -/
def toBits (x : Binary f) : Nat :=
  (if x.negative then f.span else 0) + x.magnitude

theorem ofBits_toBits (x : Binary f) : ofBits f x.toBits = x := by
  have hpos := f.span_pos
  obtain ⟨s, m, hm⟩ := x
  cases s
  · simp [ofBits, toBits, Nat.mod_eq_of_lt hm, Nat.div_eq_of_lt hm]
  · simp [ofBits, toBits, Nat.mod_eq_of_lt hm, Nat.div_eq_of_lt hm, Nat.add_div_left _ hpos]

theorem toBits_lt (x : Binary f) : x.toBits < 2 * f.span := by
  have := x.magnitude_lt
  unfold toBits
  split <;> omega

theorem toBits_ofBits {bits : Nat} (h : bits < 2 * f.span) : (ofBits f bits).toBits = bits := by
  have hq : bits / f.span < 2 := Nat.div_lt_of_lt_mul (by rwa [Nat.mul_comm])
  have hdm := Nat.div_add_mod bits f.span
  simp only [ofBits, toBits, decide_eq_true_eq]
  obtain h0 | h1 : bits / f.span = 0 ∨ bits / f.span = 1 := by
    generalize bits / f.span = q at hq
    omega
  · rw [h0] at hdm ⊢
    simpa using hdm
  · rw [h1] at hdm ⊢
    simpa using hdm

/-! ## Kinds of numbers -/

def isNaN (x : Binary f) : Bool := f.infinity < x.magnitude

def isInfinite (x : Binary f) : Bool := x.magnitude = f.infinity

def isFinite (x : Binary f) : Bool := x.magnitude < f.infinity

/-- Either zero. -/
def isZero (x : Binary f) : Bool := x.magnitude = 0

/-- The significand of a finite number. -/
def significand (x : Binary f) : Nat := f.significand x.magnitude

/-- The exponent of a finite number. -/
def exponent (x : Binary f) : Nat := f.exponent x.magnitude

/-! ## Named numbers -/

/-- The zero of the given sign. -/
def zero (negative : Bool) : Binary f := ⟨negative, 0, f.span_pos⟩

/-- The infinity of the given sign. -/
def infinite (negative : Bool) : Binary f := ⟨negative, f.infinity, f.infinity_lt_span⟩

/-- The answer of an operation that has none: the fraction holds its leading bit only. -/
def notANumber : Binary f :=
  ⟨false, (f.infinity + f.leading / 2) % f.span, Nat.mod_lt _ f.span_pos⟩

/-- The number with the other sign. -/
def neg (x : Binary f) : Binary f := { x with negative := !x.negative }

instance : Neg (Binary f) := ⟨neg⟩

end Binary

end ExactNeighbors
