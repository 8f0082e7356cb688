import ExactNeighbors.Point.Checked

set_option autoImplicit false

/-! # Metrics

Both metrics have two forms. The reference form compares any two points of one dimension. The scan
compares *prepared* points, which a cosine index normalizes as they are stored, by a kernel that is
cheap. A point of zeros has no direction and stands at cosine distance one from every point. -/

namespace ExactNeighbors

/-- How far apart two points are. -/
inductive Metric where
  /-- The squared Euclidean distance. -/
  | l2
  /-- One less the cosine of the angle. -/
  | cosine
deriving DecidableEq

namespace Metric

instance : Inhabited Metric := ⟨.l2⟩

def name : Metric → String
  | .l2 => "l2"
  | .cosine => "cosine"

/-- The metric of a name in any mixture of cases. -/
def ofName (text : String) : Except Error Metric :=
  match text.toLower with
  | "l2" | "euclidean" => .ok .l2
  | "cosine" => .ok .cosine
  | _ => .error (.invalidArgument (.unknownMetric text))

/-- Whether points are normalized before they are compared. -/
def normalizes : Metric → Bool
  | .l2 => false
  | .cosine => true

/-! ## The reference form -/

/-- One less the cosine, in double precision. -/
def cosineDistance (a b : Point) : Single :=
  let na := a.wideNorm
  let nb := b.wideNorm
  if na.isZero || nb.isZero then .one
  else Double.narrow (.one - a.wideDot b / (na * nb))

/-- The distance between two points of one dimension. -/
def distance (m : Metric) (a b : Point) : Except Error Single := do
  b.checkDimension a.length
  match m with
  | .l2 => .ok (a.squaredDistance b)
  | .cosine => .ok (cosineDistance a b)

/-! ## The form of the scan -/

/-- The distance between prepared points of one dimension. -/
def kernel : Metric → Point → Point → Single
  | .l2, a, b => a.squaredDistance b
  | .cosine, a, b => .one - a.dot b

/-- The point as it is stored and asked about. -/
def prepare (m : Metric) (a : Point) : Point :=
  if m.normalizes then a.normalize else a

end Metric

end ExactNeighbors
