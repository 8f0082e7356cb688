import ExactNeighbors.Error
import ExactNeighbors.Point.Basic

set_option autoImplicit false

/-! # Checked points

What is stored or asked about has to be of the index's dimension and finite. The dimension is
checked first. -/

namespace ExactNeighbors.Point

/-- Whether a point is of the dimension. -/
def checkDimension (a : Point) (expected : Nat) : Except Error Unit :=
  if a.length = expected then .ok () else .error (.dimensionMismatch expected a.length)

/-- Whether a point is of the dimension and finite. -/
def check (a : Point) (expected : Nat) : Except Error Unit := do
  a.checkDimension expected
  if a.isFinite then .ok () else .error (.invalidArgument .notFinite)

end ExactNeighbors.Point
