import Std.Data.TreeMap
import ExactNeighbors.Point.Checked
import ExactNeighbors.Storage.Block

set_option autoImplicit false

/-! # The store

A store keeps labelled points in the order they came, and the position of a point is its *id*. The
points lie in blocks of one capacity, filled one after the other, so that id `i` is row
`i % blockSize` of block `i / blockSize`. Nothing is ever removed and an id never changes its label;
only a point can be replaced where it lies. Beside the blocks the store keeps the ids of every
label, in rising order. -/

namespace ExactNeighbors

/-- Labelled points in the order they came. -/
structure Store where
  dimension : Nat
  blockSize : Nat
  blocks : Array Block
  /-- How many points there are, which is also the next id. -/
  count : Nat
  /-- The ids of every label. -/
  ids : Std.TreeMap Label (Array Nat)

namespace Store

/-- A store reserves room for no more points than this before it grows. -/
def reservedLimit : Nat := 1 <<< 16

/-- An empty store. The expected number of points is a hint and changes nothing. -/
def create (dimension blockSize expected : Nat) : Except Error Store :=
  if dimension = 0 then .error (.invalidArgument .zeroDimension)
  else if blockSize = 0 then .error (.invalidConfig .zeroBlockSize)
  else if (Block.bytes? dimension blockSize).isNone then
    .error (.invalidConfig (.blockNotAddressable blockSize dimension))
  else
    let reserved := (min expected reservedLimit + blockSize - 1) / blockSize
    .ok
      { dimension := dimension
        blockSize := blockSize
        blocks := Array.emptyWithCapacity reserved
        count := 0
        ids := ∅ }

/-! ## Writing -/

/-- Whether the last block has no room, or there is no block. -/
def needsBlock (s : Store) : Bool := s.blocks.back?.all Block.isFull

/-- Adds an id to those of a label. -/
def addId (ids : Std.TreeMap Label (Array Nat)) (label : Label) (id : Nat) :
    Std.TreeMap Label (Array Nat) :=
  ids.alter label fun known => some ((known.getD #[]).push id)

/-- Adds a labelled point at the end. -/
def push (s : Store) (point : Point) (label : Label) : Store :=
  let blocks :=
    if s.needsBlock then s.blocks.push (.empty s.dimension s.blockSize) else s.blocks
  { s with
    blocks := blocks.modify (blocks.size - 1) (·.push label point)
    count := s.count + 1
    ids := addId s.ids label s.count }

/-- Adds a labelled point at the end, if it is of the store's dimension; with its id. -/
def append (s : Store) (point : Point) (label : Label) : Except Error (Nat × Store) := do
  point.checkDimension s.dimension
  .ok (s.count, s.push point label)

/-- Replaces the point of an id. -/
def overwrite (s : Store) (id : Nat) (point : Point) : Except Error Store := do
  point.checkDimension s.dimension
  match s.blocks[id / s.blockSize]?.bind (·.overwrite? (id % s.blockSize) point) with
  | some block => .ok { s with blocks := s.blocks.setIfInBounds (id / s.blockSize) block }
  | none => .error (.invalidArgument (.unusedId id))

/-! ## Reading -/

def isEmpty (s : Store) : Bool := s.count = 0

/-- How many labels there are. -/
def labelCount (s : Store) : Nat := s.ids.size

def containsLabel (s : Store) (label : Label) : Bool := s.ids.contains label

/-- The ids of a label, in rising order. -/
def ids? (s : Store) (label : Label) : Option (Array Nat) := s.ids[label]?

def point? (s : Store) (id : Nat) : Option Point := do
  let block ← s.blocks[id / s.blockSize]?
  block.point? (id % s.blockSize)

def label? (s : Store) (id : Nat) : Option Label := do
  let block ← s.blocks[id / s.blockSize]?
  block.label? (id % s.blockSize)

/-- The labelled points in the order of their ids. -/
def toList (s : Store) : List (Label × Point) := s.blocks.toList.flatMap Block.toList

end Store

end ExactNeighbors
