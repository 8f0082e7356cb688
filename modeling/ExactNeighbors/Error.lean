import ExactNeighbors.Decimal.Plain

set_option autoImplicit false

/-! # What the library refuses, and why

An error is its cause; the wording follows from the cause alone. Four kinds of causes are told
apart: a point of the wrong dimension, another argument that cannot be used, settings that cannot
work, and stored settings that cannot be read, either because their text is not theirs or because
there is no text. -/

namespace ExactNeighbors

/-- Why an argument cannot be used. -/
inductive ArgumentFault where
  | zeroDimension
  /-- A component is infinite or not a number. -/
  | notFinite
  | unknownMetric (name : String)
  /-- No neighbor was asked for. -/
  | zeroCount
  /-- A batch of no entries was asked for. -/
  | zeroBatch
  /-- The radius is below zero or not a number. -/
  | radius (value : Single)
  /-- No vector was ever stored under the id. -/
  | unusedId (id : Nat)
  | other (reason : String)
deriving DecidableEq

/-- Why settings cannot work. -/
inductive SettingsFault where
  | zeroBlockSize
  /-- The two sizes together pass what can be addressed. -/
  | blockTooLarge (blockSize dimension : Nat)
  /-- A store cannot lay out its blocks. -/
  | blockNotAddressable (blockSize dimension : Nat)
  | zeroThreads
  | other (reason : String)
deriving DecidableEq

/-- What is answered in place of a result. -/
inductive Error where
  | dimensionMismatch (expected actual : Nat)
  | invalidArgument (fault : ArgumentFault)
  | invalidConfig (fault : SettingsFault)
  /-- A text is not the JSON of what is read. -/
  | malformedJson
  /-- There is no file, or it holds no text. -/
  | unreadableFile
deriving DecidableEq

def ArgumentFault.message : ArgumentFault → String
  | .zeroDimension => "dimension must be at least 1"
  | .notFinite => "vector contains NaN or infinite values"
  | .unknownMetric name => s!"unknown distance metric: {name}"
  | .zeroCount => "k must be at least 1"
  | .zeroBatch => "batch size must be at least 1"
  | .radius value => "radius must be non-negative, got " ++ value.plain
  | .unusedId id => s!"no vector stored at internal id {id}"
  | .other reason => reason

def SettingsFault.message : SettingsFault → String
  | .zeroBlockSize => "block_size must be at least 1"
  | .blockTooLarge blockSize dimension =>
    s!"block_size {blockSize} times dimension {dimension} overflows the addressable size"
  | .blockNotAddressable blockSize dimension =>
    s!"block of {blockSize} vectors of dimension {dimension} is not addressable"
  | .zeroThreads => "num_threads must be at least 1 when set"
  | .other reason => reason

namespace Error

/-- The wording of an error: its kind, then what is wrong. -/
def message : Error → String
  | .dimensionMismatch expected actual =>
    s!"dimension mismatch: expected {expected}, got {actual}"
  | .invalidArgument fault => "invalid argument: " ++ fault.message
  | .invalidConfig fault => "invalid config: " ++ fault.message
  | .malformedJson => "malformed JSON"
  | .unreadableFile => "unreadable file"

def isDimensionMismatch : Error → Bool
  | .dimensionMismatch .. => true
  | _ => false

def isInvalidArgument : Error → Bool
  | .invalidArgument _ => true
  | _ => false

end Error

/-- Two steps in a row succeed if the first does and then the second. -/
theorem bind_eq_ok {α β : Type} {x : Except Error α} {f : α → Except Error β} {b : β} :
    x >>= f = .ok b ↔ ∃ a, x = .ok a ∧ f a = .ok b := by
  cases x with
  | error e =>
      constructor
      · intro h
        cases h
      · rintro ⟨a, h, -⟩
        cases h
  | ok a =>
      constructor
      · intro h
        exact ⟨a, rfl, h⟩
      · rintro ⟨a', h, hb⟩
        cases h
        exact hb

end ExactNeighbors
