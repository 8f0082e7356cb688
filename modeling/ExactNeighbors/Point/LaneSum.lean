import ExactNeighbors.Binary.Arithmetic

set_option autoImplicit false

/-! # Sums in lanes

Floating-point addition is not associative, so a sum is fixed only together with its order. The
distance kernels add in eight lanes: term `i` of every full group of eight goes to lane `i`, the
lanes are then added from first to last, and the terms after the last full group follow one by one.

The lanes start from zero. The sum over the lanes starts from negative zero, the neutral element
of addition: it leaves every first operand as it is, negative zero included. -/

namespace ExactNeighbors

/-- How many partial sums run side by side. -/
def laneCount : Nat := 8

/-- Adds full groups of terms to the lanes; what remains is shorter than a group. -/
def addGroups (lanes terms : List Single) : List Single × List Single :=
  if terms.length < laneCount then (lanes, terms)
  else addGroups (List.zipWith (· + ·) lanes (terms.take laneCount)) (terms.drop laneCount)
termination_by terms.length
decreasing_by simp [laneCount] at *; omega

/-- The sum of the terms in the order of the lanes. -/
def laneSum (terms : List Single) : Single :=
  let (lanes, rest) := addGroups (List.replicate laneCount (.zero false)) terms
  rest.foldl (· + ·) (lanes.foldl (· + ·) (.zero true))

end ExactNeighbors
