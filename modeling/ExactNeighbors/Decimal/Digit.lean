set_option autoImplicit false

/-! # Decimal digits

Written numerals are lists of digits, the most significant first. `ofNat` writes a natural without
leading zeros, a lone zero for zero itself, and `toNat` reads any list back. -/

namespace ExactNeighbors

abbrev Digit := Fin 10

namespace Digit

/-- The digit zero. -/
def zero : Digit := ⟨0, by decide⟩

/-- The ASCII character of a digit. -/
def toChar (d : Digit) : Char := Char.ofNat ('0'.toNat + d.val)

/-- The digit that an ASCII digit character writes. -/
def ofChar? (c : Char) : Option Digit :=
  if h : '0'.toNat ≤ c.toNat ∧ c.toNat - '0'.toNat < 10 then some ⟨c.toNat - '0'.toNat, h.2⟩
  else none

/-- The natural that a list of digits writes. -/
def toNat (ds : List Digit) : Nat := ds.foldl (fun n d => 10 * n + d.val) 0

/-- The digits of a natural. -/
def ofNat (n : Nat) : List Digit :=
  let last : Digit := ⟨n % 10, Nat.mod_lt _ (by decide)⟩
  if n < 10 then [last] else ofNat (n / 10) ++ [last]

theorem ofNat_ne_nil (n : Nat) : ofNat n ≠ [] := by
  unfold ofNat
  split <;> simp

theorem toNat_append_singleton (ds : List Digit) (d : Digit) :
    toNat (ds ++ [d]) = 10 * toNat ds + d.val := by
  simp [toNat]

theorem toNat_ofNat (n : Nat) : toNat (ofNat n) = n := by
  induction n using Nat.strongRecOn with
  | ind n ih =>
      unfold ofNat
      by_cases h : n < 10
      · simp [h, toNat, Nat.mod_eq_of_lt h]
      · simp only [h, if_false]
        rw [toNat_append_singleton, ih (n / 10) (by omega)]
        exact Nat.div_add_mod n 10

theorem ofChar?_toChar (d : Digit) : ofChar? d.toChar = some d := by
  revert d
  decide

end Digit

end ExactNeighbors
