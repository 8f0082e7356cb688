set_option autoImplicit false

/-! # Sizes

Sizes are naturals, but those that a 64-bit machine works with end at `Size.limit`, and a block of
memory has at most `Size.addressable` bytes. Products and sums of sizes either say that they pass
the limit or stop at it. -/

namespace ExactNeighbors.Size

/-- The largest size. -/
def limit : Nat := UInt64.size - 1

/-- The largest number of bytes in one block of memory. -/
def addressable : Nat := UInt64.size / 2 - 1

/-- The product, if it is a size. -/
def mul? (a b : Nat) : Option Nat := if a * b ≤ limit then some (a * b) else none

/-- The product, or the limit if it is no size. -/
def cappedMul (a b : Nat) : Nat := min (a * b) limit

/-- The sum, or the limit if it is no size. -/
def cappedAdd (a b : Nat) : Nat := min (a + b) limit

/-! ## Sizes of what is stored -/

/-- Bytes of a component. -/
def component : Nat := 4

/-- Bytes of a label. -/
def label : Nat := 8

/-- Bytes of an id. -/
def id : Nat := 8

end ExactNeighbors.Size
