import ExactNeighbors.Index.Machine
import ExactNeighbors.Index.Settings
import ExactNeighbors.Ranking.Batches
import ExactNeighbors.Ranking.Nearest
import ExactNeighbors.Ranking.Radius

set_option autoImplicit false

/-! # The index

An index stores labelled points and answers which are near a query. Answers are exact: every stored
point is compared. What is stored and what is asked is checked and prepared in the same way, so that
under the cosine metric both are normalized.

Questions come in four forms, and the first three share one set of candidates, a neighbor for every
stored point or, where labels may be shared, for every label: the nearest few, all within a radius,
all in batches, and the distance of one label. -/

namespace ExactNeighbors

/-- The settings, what was stored under them and the machine that answers. -/
structure Index where
  settings : Settings
  store : Store
  machine : Machine

namespace Index

/-- Stores of this many points are scanned in pieces. -/
def piecesThreshold : Nat := 4096

/-- An empty index on a machine. -/
def create (machine : Machine) (settings : Settings) : Except Error Index := do
  settings.check
  let store ← Store.create settings.dimension.toNat settings.blockSize.toNat
    settings.initialCapacity.toNat
  .ok ⟨settings, store, machine⟩

/-- The same index on another machine. -/
def on (i : Index) (machine : Machine) : Index := { i with machine := machine }

/-- A point as it is stored or asked about, if it can be. -/
def prepare (i : Index) (point : Point) : Except Error Point := do
  point.check i.settings.dimension.toNat
  .ok (i.settings.metric.prepare point)

/-! ## Adding points -/

/-- The id whose point is replaced when a label is added again. -/
def replacedId? (i : Index) (label : Label) : Option Nat :=
  match i.settings.mode with
  | .single => (i.store.ids? label).bind (·[0]?)
  | .multi => none

/-- Stores a point under a label. -/
def add (i : Index) (point : Point) (label : Label) : Except Error Index := do
  let prepared ← i.prepare point
  match i.replacedId? label with
  | some id =>
    let store ← i.store.overwrite id prepared
    .ok { i with store := store }
  | none =>
    let (_, store) ← i.store.append prepared label
    .ok { i with store := store }

/-! ## Candidates -/

/-- How many threads a scan has. -/
def threads (i : Index) : Nat := i.settings.scanThreads i.machine.threads

/-- The distances of all stored points to a prepared query, in the order of the ids. -/
def distances (i : Index) (query : Point) : List Neighbor :=
  let kernel := i.settings.metric.kernel
  if i.store.count < piecesThreshold then i.store.scan kernel query
  else
    i.store.scanInPieces (i.machine.cutBlocks i.threads i.store)
      (i.machine.cutRows i.threads i.store) kernel query

/-- The neighbors that answers to a prepared query are taken from. There is room for the labels that
    are stored. -/
def candidates (i : Index) (query : Point) : List Neighbor :=
  match i.settings.mode with
  | .single => i.distances query
  | .multi => i.machine.tables.listing (PerLabel.ofList (i.distances query) i.store.labelCount)

/-! ## Questions -/

/-- The nearest `k`, ranked. -/
def nearest (i : Index) (query : Point) (k : Nat) : Except Error (List Neighbor) := do
  let count ← Count.ofNat k
  let query ← i.prepare query
  .ok (count.select (i.candidates query))

/-- All within a radius, ranked. Under the squared Euclidean distance the radius is squared too. -/
def within (i : Index) (query : Point) (radius : Single) : Except Error (List Neighbor) := do
  let radius ← Radius.ofSingle radius
  let query ← i.prepare query
  .ok (radius.select (i.candidates query))

/-- All in batches. What is added later does not show in them. -/
def batches (i : Index) (query : Point) : Except Error Batches := do
  let query ← i.prepare query
  .ok (.ofNeighbors query (i.candidates query))

/-- The smaller of two distances in the total order. -/
def smaller (a b : Single) : Single := if b.totalCompare a = .lt then b else a

/-- The least of some distances in the total order. -/
def least? : List Single → Option Single
  | [] => none
  | d :: ds => some (ds.foldl smaller d)

/-- The points stored under a label, in the order they came. -/
def points? (i : Index) (label : Label) : Option (List Point) :=
  (i.store.ids? label).map fun ids => ids.toList.filterMap i.store.point?

/-- The least distance of the points stored under a label. -/
def distanceFrom (i : Index) (label : Label) (query : Point) :
    Except Error (Option Single) := do
  let query ← i.prepare query
  .ok ((i.points? label).bind fun ps => least? (ps.map (i.settings.metric.kernel query)))

/-! ## Contents -/

/-- How many points are stored. -/
def size (i : Index) : Nat := i.store.count

def labelCount (i : Index) : Nat := i.store.labelCount

def containsLabel (i : Index) (label : Label) : Bool := i.store.containsLabel label

/-- What an index is and how much it holds. How many bytes that takes is left out, as it depends on
    how tables and arrays grow. -/
structure Info where
  dimension : Nat
  metric : Metric
  mode : LabelMode
  blockSize : Nat
  blockCount : Nat
  size : Nat
  labelCount : Nat
deriving DecidableEq

def info (i : Index) : Info where
  dimension := i.settings.dimension.toNat
  metric := i.settings.metric
  mode := i.settings.mode
  blockSize := i.store.blockSize
  blockCount := i.store.blocks.size
  size := i.size
  labelCount := i.labelCount

end Index

end ExactNeighbors
