import Std.Data.HashMap
import ExactNeighbors.Ranking.Neighbor
import ExactNeighbors.Storage.Size

set_option autoImplicit false

/-! # One neighbor per label

Where entities share a label, the label counts once, at the least of their distances in the total
order. The least is kept as the distances come in; in which order the labels are listed in the end
is left open, and so is for how many labels room can be made in advance (`Tables`). -/

namespace ExactNeighbors

/-- The least distance of every label seen. -/
structure PerLabel where
  least : Std.HashMap Label Single

/-- The bytes of a label with its distance, which lies where a label could. -/
def Size.labelled : Nat := 2 * Size.label

/-- What a machine decides about tables of labels. -/
structure Tables where
  /-- The bytes that one table can have. -/
  memory : Nat
  memory_le : memory ≤ Size.addressable
  /-- Whether room can be made for so many labels. Nothing is needed for none. -/
  hasRoom : Nat → Bool
  hasRoom_zero : hasRoom 0 = true
  hasRoom_le : ∀ {labels}, hasRoom labels = true → labels * Size.labelled ≤ memory
  /-- The order that a table lists its labels in. -/
  listing : List Neighbor → List Neighbor
  listing_perm : ∀ ns, (listing ns).Perm ns

/-- Tables that have so many bytes for their room and list their labels as they lie. -/
def Tables.upTo (bytes : Nat) : Tables where
  memory := min bytes Size.addressable
  memory_le := Nat.min_le_right _ _
  hasRoom labels := labels * Size.labelled ≤ min bytes Size.addressable
  hasRoom_zero := decide_eq_true (by rw [Nat.zero_mul]; exact Nat.zero_le _)
  hasRoom_le := of_decide_eq_true
  listing := id
  listing_perm := List.Perm.refl

namespace PerLabel

/-- Nothing seen, with room for some labels. -/
def empty (room : Nat) : PerLabel := ⟨Std.HashMap.emptyWithCapacity room⟩

/-- Takes in a distance of a label. -/
def observe (p : PerLabel) (n : Neighbor) : PerLabel :=
  match p.least[n.label]? with
  | none => ⟨p.least.insert n.label n.distance⟩
  | some d =>
    if n.distance.totalCompare d = .lt then ⟨p.least.insert n.label n.distance⟩ else p

/-- How many labels were seen. -/
def size (p : PerLabel) : Nat := p.least.size

def isEmpty (p : PerLabel) : Bool := p.least.isEmpty

/-- One neighbor for every label. -/
def toList (p : PerLabel) : List Neighbor := p.least.toList.map fun (l, d) => ⟨l, d⟩

/-- One neighbor for every label among the given ones, where there is room for so many labels. -/
def ofList (ns : List Neighbor) (room : Nat) : List Neighbor :=
  (ns.foldl observe (empty room)).toList

/-- One neighbor for every label among the given ones. Room is made in advance for as many labels as
    the hint says, and without it there is no list, though the labels themselves may be few. -/
def ofList? (tables : Tables) (ns : List Neighbor) (hint : Nat) : Option (List Neighbor) :=
  if tables.hasRoom hint then some (tables.listing (ofList ns hint)) else none

end PerLabel

end ExactNeighbors
