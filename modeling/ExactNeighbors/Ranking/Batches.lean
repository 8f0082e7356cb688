import ExactNeighbors.Error
import ExactNeighbors.Point.Basic
import ExactNeighbors.Ranking.Neighbor
import ExactNeighbors.Storage.Size

set_option autoImplicit false

/-! # Answers in batches

All neighbors of a query are ranked once and then served in consecutive batches, as many entries at
a time as each call asks for. What a batch holds is decided by the position alone; the arrangement
only decides how the batch is shown. Serving can start over at any time. -/

namespace ExactNeighbors

/-- Where serving stands. -/
inductive Phase where
  /-- No batch was served yet. -/
  | created
  | active
  /-- The last batch reached the end. -/
  | exhausted
deriving DecidableEq

/-- The ranked neighbors of a query and how far they were served. -/
structure Batches where
  query : Point
  ranked : Array Neighbor
  position : Nat
  phase : Phase

namespace Batches

/-- Nothing served yet of the given neighbors. -/
def ofNeighbors (query : Point) (ns : List Neighbor) : Batches :=
  ⟨query, (Neighbor.sortByRank ns).toArray, 0, .created⟩

def size (b : Batches) : Nat := b.ranked.size

def isEmpty (b : Batches) : Bool := b.ranked.isEmpty

/-- How many entries are still to be served. -/
def remaining (b : Batches) : Nat := b.size - b.position

def hasNext (b : Batches) : Bool := b.position < b.size

/-- Where the next `n` entries end. -/
def stop (b : Batches) (n : Nat) : Nat := min (b.position + n) b.size

/-- The sum may as well stop at the largest size, as no array is longer. -/
theorem stop_eq_cappedAdd (b : Batches) (n : Nat) (fits : b.size ≤ Size.limit) :
    b.stop n = min (Size.cappedAdd b.position n) b.size := by
  rw [stop, Size.cappedAdd, Nat.min_assoc, Nat.min_eq_right fits]

/-- The next `n` entries, fewer at the end, and what is left to serve after them. -/
def next (b : Batches) (n : Nat) (arrangement : Arrangement) :
    Except Error (List Neighbor × Batches) :=
  if n = 0 then .error (.invalidArgument .zeroBatch)
  else
    let stop := b.stop n
    let batch := (b.ranked.extract b.position stop).toList
    let phase := if b.size ≤ stop then .exhausted else .active
    .ok (arrangement.apply batch, { b with position := stop, phase := phase })

/-- Starts over. -/
def reset (b : Batches) : Batches :=
  { b with position := 0, phase := if b.phase = .created then .created else .active }

theorem remaining_next_lt {b b' : Batches} {n : Nat} {arrangement : Arrangement}
    {batch : List Neighbor} (more : b.hasNext = true)
    (h : b.next n arrangement = .ok (batch, b')) : b'.remaining < b.remaining := by
  simp only [hasNext, decide_eq_true_eq] at more
  unfold next at h
  split at h
  · cases h
  · cases h
    simp only [remaining, stop, size] at *
    omega

/-- Serves batches of `n` while there are more. An error ends it; it comes with the batches served
    before. -/
def drain (b : Batches) (n : Nat) (arrangement : Arrangement) :
    List (List Neighbor) × Option Error × Batches :=
  if _ : b.hasNext = true then
    match _ : b.next n arrangement with
    | .error e => ([], some e, b)
    | .ok (batch, b') =>
      let (batches, error, last) := drain b' n arrangement
      (batch :: batches, error, last)
  else ([], none, b)
termination_by b.remaining
decreasing_by exact remaining_next_lt ‹_› ‹_›

end Batches

end ExactNeighbors
