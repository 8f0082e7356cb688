import ExactNeighbors.Metric
import ExactNeighbors.Storage.Store

set_option autoImplicit false

/-! # Scans

A scan gives the distance of every stored point, in the order of the ids. A small store is walked
from end to end. A large one is cut into pieces, the blocks first and then the rows of each block;
every piece is a task of its own, and the answers are put together in the order of the pieces. How
the store is cut has no influence on the outcome. -/

namespace ExactNeighbors

/-- How a list is cut into pieces. -/
inductive Cut where
  | whole
  /-- The first `size` elements and the others, each cut further. -/
  | pieces (size : Nat) (first others : Cut)

namespace Cut

/-- Cuts `n` elements in the middle, and each half again, `depth` times in all or until single
    elements are left. -/
def halving : Nat → Nat → Cut
  | 0, _ => .whole
  | depth + 1, n =>
    if n < 2 then .whole
    else .pieces (n / 2) (halving depth (n / 2)) (halving depth (n - n / 2))

/-- Works on each piece in a task of its own and puts the outcomes together in order. -/
def run {α β : Type} (work : List α → List β) : Cut → List α → List β
  | .whole, xs => work xs
  | .pieces size first others, xs =>
    let others := Task.spawn fun _ => others.run work (xs.drop size)
    first.run work (xs.take size) ++ others.get

end Cut

namespace Store

/-- The neighbor that a labelled point is to a query. -/
def neighbor (distance : Point → Point → Single) (query : Point) (row : Label × Point) :
    Neighbor :=
  ⟨row.1, distance query row.2⟩

/-- Walks the store from end to end. -/
def scan (s : Store) (distance : Point → Point → Single) (query : Point) : List Neighbor :=
  s.blocks.toList.flatMap fun b => b.toList.map (neighbor distance query)

/-- Scans the store in pieces: its blocks are cut as `blocks` says, the rows of each block as `rows`
    says for it. -/
def scanInPieces (s : Store) (blocks : Cut) (rows : Block → Cut)
    (distance : Point → Point → Single) (query : Point) : List Neighbor :=
  blocks.run
    (fun bs => bs.flatMap fun b => (rows b).run (·.map (neighbor distance query)) b.toList)
    s.blocks.toList

end Store

end ExactNeighbors
