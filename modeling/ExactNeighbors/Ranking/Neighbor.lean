import ExactNeighbors.Binary.Order

set_option autoImplicit false

/-! # Neighbors and their rank

A neighbor is a label with a distance. Neighbors rank by distance in the total order and then by
label, so two of them tie only if they are the same: a list of neighbors has exactly one ranked
arrangement, whatever order it was gathered in. -/

namespace ExactNeighbors

/-- The key of a stored entity; entities may share it. -/
abbrev Label := UInt64

/-- An entry of an answer. -/
structure Neighbor where
  label : Label
  distance : Single
deriving DecidableEq

namespace Neighbor

/-! ## Rank -/

/-- Compares distances first and labels where the distances are the same. -/
def rankCompare (a b : Neighbor) : Ordering :=
  (a.distance.totalCompare b.distance).then (compare a.label b.label)

/-- Ranks strictly before. -/
def ranksBefore (a b : Neighbor) : Bool := a.rankCompare b = .lt

/-- Ranks before or is the same. -/
def ranksWithin (a b : Neighbor) : Bool := a.rankCompare b ≠ .gt

/-! ## Arrangements -/

/-- The neighbors from nearest to farthest. -/
def sortByRank (ns : List Neighbor) : List Neighbor := ns.mergeSort ranksWithin

/-- The neighbors by rising label; those that share one stay in the order they had. -/
def sortByLabel (ns : List Neighbor) : List Neighbor :=
  ns.mergeSort fun a b => a.label ≤ b.label

/-- The labels and the distances apart. -/
def split (ns : List Neighbor) : List Label × List Single :=
  (ns.map label, ns.map distance)

end Neighbor

/-- How the entries of an answer are arranged. -/
inductive Arrangement where
  | byLabel
  | byRank
deriving DecidableEq

/-- Arranges an answer that is ranked already. -/
def Arrangement.apply : Arrangement → List Neighbor → List Neighbor
  | .byLabel, ns => Neighbor.sortByLabel ns
  | .byRank, ns => ns

end ExactNeighbors
