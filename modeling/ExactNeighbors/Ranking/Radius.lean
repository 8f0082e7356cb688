import ExactNeighbors.Error
import ExactNeighbors.Ranking.Neighbor

set_option autoImplicit false

/-! # All within a radius -/

namespace ExactNeighbors

/-- A radius is a number and not below zero. Either zero will do, and so will infinity. -/
structure Radius where
  val : Single
  accepted : (val.isNaN || val.lt (.zero false)) = false

namespace Radius

/-- A radius that may be asked for. -/
def ofSingle (r : Single) : Except Error Radius :=
  if h : (r.isNaN || r.lt (.zero false)) = false then .ok ⟨r, h⟩
  else .error (.invalidArgument (.radius r))

/-- Whether a distance is within the radius; the border is. -/
def accepts (r : Radius) (distance : Single) : Bool := distance.le r.val

/-- The neighbors within the radius, ranked. -/
def select (r : Radius) (ns : List Neighbor) : List Neighbor :=
  Neighbor.sortByRank (ns.filter fun n => r.accepts n.distance)

end Radius

end ExactNeighbors
