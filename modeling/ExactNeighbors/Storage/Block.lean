import ExactNeighbors.Point.Basic
import ExactNeighbors.Ranking.Neighbor
import ExactNeighbors.Storage.Size

set_option autoImplicit false

/-! # Blocks

A block holds a bounded number of labelled points of one dimension. The components lie in one array,
point after point, so that row `i` starts at `i * dimension`; the labels lie in another. -/

namespace ExactNeighbors

/-- A bounded number of labelled points. -/
structure Block where
  dimension : Nat
  /-- How many rows the block may hold. -/
  capacity : Nat
  components : Array Single
  labels : Array Label

namespace Block

/-! ## Sizes -/

/-- The bytes of a full block's components, if they can be addressed. -/
def bytes? (dimension capacity : Nat) : Option Nat :=
  ((Size.mul? dimension capacity).bind (Size.mul? · Size.component)).filter
    (· ≤ Size.addressable)

/-- A block reserves room for no more components than this before it grows. -/
def reservedComponentLimit : Nat := 1 <<< 20

/-- The components a new block reserves room for. -/
def reservedComponents (dimension capacity : Nat) : Nat :=
  min (Size.cappedMul dimension capacity) reservedComponentLimit

/-- The labels a new block reserves room for. -/
def reservedLabels (dimension capacity : Nat) : Nat :=
  min capacity (reservedComponentLimit / max dimension 1)

/-- The bytes a block reserves. -/
def memoryUsage (b : Block) : Nat :=
  reservedComponents b.dimension b.capacity * Size.component +
    reservedLabels b.dimension b.capacity * Size.label

/-! ## Rows -/

/-- No rows yet. -/
def empty (dimension capacity : Nat) : Block := ⟨dimension, capacity, #[], #[]⟩

/-- How many rows there are. -/
def size (b : Block) : Nat := b.labels.size

def isEmpty (b : Block) : Bool := b.labels.isEmpty

def isFull (b : Block) : Bool := b.capacity ≤ b.size

/-- Adds a row; the caller makes sure that there is room and that the point fits. -/
def push (b : Block) (label : Label) (point : Point) : Block :=
  { b with components := b.components ++ point, labels := b.labels.push label }

/-- Writes components into an array from a position on. -/
def write (components : Array Single) (start : Nat) : Point → Array Single
  | [] => components
  | x :: xs => write (components.setIfInBounds start x) (start + 1) xs

/-- Replaces the point of a row; nothing if there is no such row. -/
def overwrite? (b : Block) (row : Nat) (point : Point) : Option Block :=
  if row < b.size then
    some { b with components := write b.components (row * b.dimension) point }
  else none

/-- The components of `width` places from `start` on. -/
def slice (components : Array Single) (start width : Nat) : Point :=
  (components.extract start (start + width)).toList

def point? (b : Block) (row : Nat) : Option Point :=
  if row < b.size then some (slice b.components (row * b.dimension) b.dimension) else none

def label? (b : Block) (row : Nat) : Option Label := b.labels[row]?

/-- The components cut into full rows. -/
def points (b : Block) : List Point :=
  let width := max b.dimension 1
  (List.range (b.components.size / width)).map fun i => slice b.components (i * width) width

/-- The labels with their points, in the order they came. -/
def toList (b : Block) : List (Label × Point) := b.labels.toList.zip b.points

end Block

end ExactNeighbors
