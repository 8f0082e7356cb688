import ExactNeighbors.Json.Reader
import ExactNeighbors.Json.Shape
import ExactNeighbors.Metric
import ExactNeighbors.Storage.Block

set_option autoImplicit false

/-! # Settings of an index

Settings are checked as a whole, and the first fault in a fixed order is reported: the dimension,
the block size, the two together, the number of threads. The sizing hints and the number of threads
have no influence on any answer.

Stored settings are a JSON record. Only the dimension has to be given, the rest have defaults, and
what was read is checked before it is handed out. -/

namespace ExactNeighbors

/-- How labels relate to stored points. -/
inductive LabelMode where
  /-- One point per label; adding the label again replaces it. -/
  | single
  /-- Points may share a label, which counts once, at its nearest point. -/
  | multi
deriving DecidableEq

/-- What an index is created from. -/
structure Settings where
  dimension : UInt64 := 128
  metric : Metric := .l2
  mode : LabelMode := .single
  /-- How many points are expected. -/
  initialCapacity : UInt64 := 0
  /-- How many points a block of the store holds. -/
  blockSize : UInt64 := 1024
  /-- How many pieces of a scan may run at a time; left to the machine if not given. -/
  numThreads : Option UInt64 := none
deriving DecidableEq

namespace LabelMode

/-- The mode's name in stored settings. -/
def name : LabelMode → String
  | .single => "single"
  | .multi => "multi"

def ofName? : String → Option LabelMode
  | "single" => some .single
  | "multi" => some .multi
  | _ => none

def ofJson? (v : Json) : Option LabelMode := v.choice?.bind ofName?

def toJson (m : LabelMode) : Json := .ofChoice m.name

end LabelMode

namespace Metric

/-- The metric of a stored name: exact, with one alias. -/
def ofStoredName? : String → Option Metric
  | "l2" | "euclidean" => some .l2
  | "cosine" => some .cosine
  | _ => none

def ofJson? (v : Json) : Option Metric := v.choice?.bind ofStoredName?

def toJson (m : Metric) : Json := .ofChoice m.name

end Metric

namespace Settings

def multiValue (s : Settings) : Bool := s.mode = .multi

def withMultiValue (s : Settings) (multi : Bool) : Settings :=
  { s with mode := if multi then .multi else .single }

/-! ## Checking -/

/-- The first fault, if there is one. -/
def check (s : Settings) : Except Error Unit :=
  let dimension := s.dimension.toNat
  let blockSize := s.blockSize.toNat
  if dimension = 0 then .error (.invalidArgument .zeroDimension)
  else if blockSize = 0 then .error (.invalidConfig .zeroBlockSize)
  else if (Block.bytes? dimension blockSize).isNone then
    .error (.invalidConfig (.blockTooLarge blockSize dimension))
  else if s.numThreads = some 0 then .error (.invalidConfig .zeroThreads)
  else .ok ()

/-- The settings, if they can work. -/
def checked (s : Settings) : Except Error Settings := do
  s.check
  .ok s

/-! ## What follows from settings -/

/-- How many pieces of a scan run at a time on a machine that offers `available`. -/
def scanThreads (s : Settings) (available : Nat) : Nat :=
  max ((s.numThreads.map UInt64.toNat).getD available) 1

/-- The bytes a store takes before anything is stored, apart from its hints. -/
def emptyStoreBytes : Nat := 112

/-- The bytes of an empty list of ids. -/
def emptyIdListBytes : Nat := 24

/-- The estimated bytes of a stored point with its label and id. -/
def estimatedElementSize (s : Settings) : Nat :=
  Size.cappedAdd (Size.cappedMul s.dimension.toNat Size.component) (Size.label + Size.id)

/-- The estimated bytes of an empty index. -/
def estimatedInitialSize (s : Settings) : Nat :=
  if 0 < s.initialCapacity.toNat then
    Size.cappedAdd emptyStoreBytes
      (Size.cappedMul s.initialCapacity.toNat (Size.label + emptyIdListBytes))
  else emptyStoreBytes

/-! ## Stored settings -/

/-- The names of the fields, in the order in which they are stored. -/
def fieldNames : List String :=
  ["dimension", "metric", "mode", "initial_capacity", "block_size", "num_threads"]

/-- The settings that a value describes, not checked. -/
def ofJson? (v : Json) : Option Settings :=
  match v.fields? fieldNames with
  | some [dimension, metric, mode, initialCapacity, blockSize, numThreads] => do
    let defaults : Settings := {}
    pure
      { dimension := ← Json.required? Json.toUInt64? dimension
        metric := ← Json.orDefault? Metric.ofJson? defaults.metric metric
        mode := ← Json.orDefault? LabelMode.ofJson? defaults.mode mode
        initialCapacity :=
          ← Json.orDefault? Json.toUInt64? defaults.initialCapacity initialCapacity
        blockSize := ← Json.orDefault? Json.toUInt64? defaults.blockSize blockSize
        numThreads :=
          ← Json.orDefault? (Json.toOption? Json.toUInt64?) defaults.numThreads numThreads }
  | _ => none

def toJson (s : Settings) : Json :=
  .ofRecord
    [ ("dimension", .ofUInt64 s.dimension),
      ("metric", s.metric.toJson),
      ("mode", s.mode.toJson),
      ("initial_capacity", .ofUInt64 s.initialCapacity),
      ("block_size", .ofUInt64 s.blockSize),
      ("num_threads", .ofOption .ofUInt64 s.numThreads) ]

/-- The text in which settings are stored. -/
def toText (s : Settings) : String := s.toJson.pretty

/-- The settings that a text stores, checked. -/
def ofText (text : String) : Except Error Settings :=
  match (Json.read? text).bind ofJson? with
  | none => .error .malformedJson
  | some s => s.checked

/-- The settings that a file stores, checked; `none` stands for a file that cannot be read. -/
def ofFile (contents : Option ByteArray) : Except Error Settings :=
  match contents.bind String.fromUTF8? with
  | none => .error .unreadableFile
  | some text => ofText text

end Settings

end ExactNeighbors
