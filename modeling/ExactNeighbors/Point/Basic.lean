import ExactNeighbors.Binary.Order
import ExactNeighbors.Point.LaneSum

set_option autoImplicit false

/-! # Points

A point is a list of components. Two families of sums are taken over them: the kernels of a scan
work in single precision and in lanes, while norms, and the cosine they define, are taken in double
precision from left to right. A double holds the product of two components exactly, and no sum of
squares of finite components leaves its range, so a norm never overflows and is zero only for a
point whose components all are. -/

namespace ExactNeighbors

abbrev Point := List Single

namespace Point

/-! ## Single precision, in lanes -/

/-- The squared Euclidean distance. -/
def squaredDistance (a b : Point) : Single :=
  laneSum (List.zipWith (fun x y => (x - y) * (x - y)) a b)

/-- The inner product. -/
def dot (a b : Point) : Single :=
  laneSum (List.zipWith (· * ·) a b)

/-- The inner product of a point with itself. -/
def sumOfSquares (a : Point) : Single := dot a a

/-! ## Double precision, from left to right -/

/-- The inner product of the components widened to doubles. -/
def wideDot (a b : Point) : Double :=
  (List.zipWith (fun x y => x.widen * y.widen) a b).foldl (· + ·) (.zero true)

/-- The Euclidean norm. -/
def wideNorm (a : Point) : Double := (wideDot a a).sqrt

/-- The norm as a component. -/
def norm (a : Point) : Single := a.wideNorm.narrow

/-- The point divided by its norm; a point of zeros, or one whose norm is no number, stays as it
    is. -/
def normalize (a : Point) : Point :=
  let n := a.wideNorm
  if (Binary.zero false).lt n then a.map (fun x => (x.widen / n).narrow) else a

/-! ## Validity -/

/-- Every component is a finite number. -/
def isFinite (a : Point) : Bool := a.all (·.isFinite)

end Point

end ExactNeighbors
