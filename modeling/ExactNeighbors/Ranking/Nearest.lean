import ExactNeighbors.Error
import ExactNeighbors.Ranking.Neighbor

set_option autoImplicit false

/-! # The nearest few

A heap with its farthest neighbor on top holds the nearest seen so far. Once it has as many as
asked for, a further neighbor enters only by taking the place of the farthest, and only if it ranks
before it. Emptied from the top, the heap gives its neighbors from farthest to nearest.

The heap is leftist: the shorter path to a missing child is always on the right, where merging
walks. -/

namespace ExactNeighbors

/-- A heap of neighbors, the farthest on top. -/
inductive FarthestHeap where
  | empty
  /-- The depth is the length of the path that keeps to the right. -/
  | node (depth : Nat) (top : Neighbor) (left right : FarthestHeap)

namespace FarthestHeap

def size : FarthestHeap → Nat
  | .empty => 0
  | .node _ _ left right => left.size + right.size + 1

def depth : FarthestHeap → Nat
  | .empty => 0
  | .node d _ _ _ => d

/-- The heap of a top and two heaps below it, the deeper on the left. -/
def join (top : Neighbor) (a b : FarthestHeap) : FarthestHeap :=
  if a.depth < b.depth then .node (a.depth + 1) top b a else .node (b.depth + 1) top a b

@[simp] theorem size_join (top : Neighbor) (a b : FarthestHeap) :
    (join top a b).size = a.size + b.size + 1 := by
  unfold join
  split
  · simp only [size]
    omega
  · rfl

/-- All neighbors of two heaps. -/
def merge : FarthestHeap → FarthestHeap → FarthestHeap
  | .empty, b => b
  | a, .empty => a
  | .node da x la ra, .node db y lb rb =>
    if x.ranksBefore y then join y lb (merge (.node da x la ra) rb)
    else join x la (merge ra (.node db y lb rb))
termination_by a b => a.size + b.size
decreasing_by all_goals simp only [size]; omega

@[simp] theorem size_merge (a b : FarthestHeap) : (merge a b).size = a.size + b.size := by
  fun_induction merge a b with
  | case1 => simp [size]
  | case2 => simp [size]
  | case3 da x la ra db y lb rb h ih =>
      simp only [size_join, ih, size]
      omega
  | case4 da x la ra db y lb rb h ih =>
      simp only [size_join, ih, size]
      omega

/-- The heap with one neighbor more. -/
def push (h : FarthestHeap) (n : Neighbor) : FarthestHeap :=
  merge h (.node 1 n .empty .empty)

/-- The neighbors from farthest to nearest. -/
def toList : FarthestHeap → List Neighbor
  | .empty => []
  | .node _ top left right => top :: toList (merge left right)
termination_by h => h.size
decreasing_by simp only [size_merge, size]; omega

end FarthestHeap

/-- How many neighbors are asked for; one at least. -/
structure Count where
  val : Nat
  pos : 0 < val

namespace Count

/-- A count that may be asked for. -/
def ofNat (k : Nat) : Except Error Count :=
  if h : 0 < k then .ok ⟨k, h⟩ else .error (.invalidArgument .zeroCount)

/-- Offers a neighbor to a heap that holds at most `k`, beside the number it holds. -/
def offer (k : Count) (held : Nat × FarthestHeap) (n : Neighbor) : Nat × FarthestHeap :=
  if held.1 < k.val then (held.1 + 1, held.2.push n)
  else
    match held.2 with
    | .empty => held
    | .node _ top left right =>
      if n.ranksBefore top then (held.1, (left.merge right).push n) else held

/-- The nearest `k` neighbors, ranked; all of them if there are fewer. -/
def select (k : Count) (ns : List Neighbor) : List Neighbor :=
  (ns.foldl k.offer (0, .empty)).2.toList.reverse

end Count

end ExactNeighbors
