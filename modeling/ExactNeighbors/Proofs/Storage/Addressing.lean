import ExactNeighbors.Proofs.Storage.Layout

set_option autoImplicit false

/-! # Addressing in words

Sizes are naturals elsewhere. A machine calculates with words, whose products and sums wrap around
unnoticed, and it stops in the middle of an access if the places it came to are not there. Here the
accesses by id are spelled out in words and with every way of stopping. On a store that can be reached
none of them stops, nothing wraps around, and the answers are those of the store
(`addressing_in_bounds`).

No product is checked where a row is looked up. What bounds it was checked when the store was created:
the bytes of a full block can be addressed, a block never has more rows than it may hold, and it has
the components of all of them. So the places of a row lie inside the block (`Block.Holds.covers`), and
everything else follows from where they are. -/

namespace ExactNeighbors

/-! ## Places in a buffer -/

/-- Why a machine stops in the middle of an access. -/
inductive Fault where
  /-- The places end before they begin. -/
  | reversed
  /-- The places go on beyond the buffer. -/
  | beyond
  /-- There are more or fewer places than components to copy. -/
  | unequal

/-- The places of a buffer from `start` on that come before `stop`. -/
structure Span where
  start : UInt64
  stop : UInt64

namespace Span

/-- How many places there are. -/
def length (span : Span) : Nat := (span.stop - span.start).toNat

/-- Whether a buffer of some size has the places. -/
def check (span : Span) (size : Nat) : Except Fault Unit :=
  if span.stop < span.start then .error .reversed
  else if size < span.stop.toNat then .error .beyond
  else .ok ()

/-- Reads the components at the places. -/
def read (span : Span) (components : Array Single) : Except Fault Point := do
  span.check components.size
  .ok (components.extract span.start.toNat span.stop.toNat).toList

/-- Copies a point to the places. -/
def copy (span : Span) (components : Array Single) (point : Point) :
    Except Fault (Array Single) := do
  span.check components.size
  if span.length = point.length then .ok (Block.write components span.start.toNat point)
  else .error .unequal

/-- The places are `width` in number, the first is `start`, and all lie in a buffer of a size. -/
structure Covers (span : Span) (start width size : Nat) : Prop where
  start_eq : span.start.toNat = start
  stop_eq : span.stop.toNat = start + width
  stop_le : start + width ≤ size

variable {span : Span} {start width : Nat} {components : Array Single}

theorem Covers.length_eq {size : Nat} (h : span.Covers start width size) :
    span.length = width := by
  have hle : span.start ≤ span.stop := by
    rw [UInt64.le_iff_toNat_le, h.start_eq, h.stop_eq]
    exact Nat.le_add_right start width
  rw [length, UInt64.toNat_sub_of_le _ _ hle, h.start_eq, h.stop_eq, Nat.add_sub_cancel_left]

theorem Covers.check_eq {size : Nat} (h : span.Covers start width size) :
    span.check size = .ok () := by
  have hle := h.stop_le
  have horder : ¬ span.stop < span.start := by
    rw [UInt64.lt_iff_toNat_lt, h.start_eq, h.stop_eq]
    omega
  rw [check, if_neg horder, h.stop_eq, if_neg (Nat.not_lt.2 hle)]

theorem Covers.read_eq (h : span.Covers start width components.size) :
    span.read components = .ok (Block.slice components start width) := by
  rw [read, h.check_eq, h.start_eq, h.stop_eq]
  rfl

theorem Covers.copy_eq (h : span.Covers start width components.size) {point : Point}
    (fits : point.length = width) :
    span.copy components point = .ok (Block.write components start point) := by
  rw [copy, h.check_eq, h.start_eq, h.length_eq, if_pos fits.symm]
  rfl

end Span

namespace Block

/-! ## The places of a row -/

/-- The places of a row's components, if there is such a row. -/
def span? (b : Block) (row : UInt64) : Option Span :=
  if row.toNat < b.size then
    let start := row * .ofNat b.dimension
    some ⟨start, start + .ofNat b.dimension⟩
  else none

/-- Reads the point of a row. No place is touched if there is no such row. -/
def pointInWords (b : Block) (row : UInt64) : Except Fault (Option Point) :=
  match b.span? row with
  | some span => (span.read b.components).map some
  | none => .ok none

/-- Copies a point to a row. No place is touched if there is no such row. -/
def overwriteInWords (b : Block) (row : UInt64) (point : Point) : Except Fault (Option Block) :=
  match b.span? row with
  | some span => (span.copy b.components point).map fun components =>
      some { b with components := components }
  | none => .ok none

theorem span?_eq_none_iff {b : Block} {row : UInt64} :
    b.span? row = none ↔ b.size ≤ row.toNat := by
  unfold span?
  split
  · next hrow => simpa using hrow
  · next hrow => simpa using hrow

theorem lt_size_of_span? {b : Block} {row : UInt64} {span : Span} (h : b.span? row = some span) :
    row.toNat < b.size := by
  rw [← Nat.not_le, ← span?_eq_none_iff, h]
  simp

/-- Where there is no row nothing is touched, whatever the block has for components. -/
theorem untouched {b : Block} {row : UInt64} (h : b.span? row = none)
    (components : Array Single) :
    pointInWords { b with components := components } row = .ok none ∧
      ∀ point, overwriteInWords { b with components := components } row point = .ok none := by
  have hnone : span? { b with components := components } row = none := h
  constructor
  · rw [pointInWords, hnone]
  · intro point
    rw [overwriteInWords, hnone]

section Bounded

variable {b : Block} {dimension capacity : Nat} {rows : List Row}
  (h : b.Holds dimension capacity rows) (room : rows.length ≤ capacity)
  (word : dimension * capacity < UInt64.size) {row : UInt64}

include h room word

/-- The places of a row are those of its components, and nothing wraps around on the way to them. -/
theorem Holds.covers {span : Span} (hspan : b.span? row = some span) :
    span.Covers (row.toNat * dimension) dimension b.components.size := by
  have hrow := lt_size_of_span? hspan
  rw [h.size_eq] at hrow
  -- the components of the rows up to this one are some of those of a full block
  have hinside : row.toNat * dimension + dimension ≤ rows.length * dimension := by
    rw [← Nat.succ_mul]
    exact Nat.mul_le_mul_right _ hrow
  have hfull : rows.length * dimension ≤ dimension * capacity := by
    rw [Nat.mul_comm dimension]
    exact Nat.mul_le_mul_right _ room
  have hlast : row.toNat * dimension + dimension < UInt64.size := by omega
  have hdimension : (UInt64.ofNat dimension).toNat = dimension :=
    UInt64.toNat_ofNat_of_lt' ((Nat.le_add_left _ _).trans_lt hlast)
  have hstart : (row * UInt64.ofNat dimension).toNat = row.toNat * dimension := by
    rw [UInt64.toNat_mul, hdimension]
    exact Nat.mod_eq_of_lt ((Nat.le_add_right _ _).trans_lt hlast)
  have hstop : (row * UInt64.ofNat dimension + UInt64.ofNat dimension).toNat =
      row.toNat * dimension + dimension := by
    rw [UInt64.toNat_add, hstart, hdimension]
    exact Nat.mod_eq_of_lt hlast
  rw [span?, if_pos (lt_size_of_span? hspan), h.dimension_eq] at hspan
  cases hspan
  rw [h.size_components]
  exact ⟨hstart, hstop, hinside⟩

theorem Holds.pointInWords_eq : b.pointInWords row = .ok (b.point? row.toNat) := by
  rw [pointInWords, point?]
  cases hspan : b.span? row with
  | some span =>
      have hread := (h.covers room word hspan).read_eq
      simp only [hread, if_pos (lt_size_of_span? hspan), h.dimension_eq]
      rfl
  | none => simp only [if_neg (Nat.not_lt.2 (span?_eq_none_iff.1 hspan))]

theorem Holds.overwriteInWords_eq {point : Point} (fits : point.length = dimension) :
    b.overwriteInWords row point = .ok (b.overwrite? row.toNat point) := by
  rw [overwriteInWords, overwrite?]
  cases hspan : b.span? row with
  | some span =>
      have hcopy := (h.covers room word hspan).copy_eq fits
      simp only [hcopy, if_pos (lt_size_of_span? hspan), h.dimension_eq]
      rfl
  | none => simp only [if_neg (Nat.not_lt.2 (span?_eq_none_iff.1 hspan))]

end Bounded

end Block

namespace Store

/-! ## The place of an id -/

/-- An access to the row of an id, in the block that the id falls in. -/
def atRow {α : Type} (s : Store) (id : UInt64)
    (access : Block → UInt64 → Except Fault (Option α)) : Except Fault (Option α) :=
  match s.blocks[(id / .ofNat s.blockSize).toNat]? with
  | some b => access b (id % .ofNat s.blockSize)
  | none => .ok none

/-- Reads the point of an id. -/
def pointInWords (s : Store) (id : UInt64) : Except Fault (Option Point) :=
  s.atRow id Block.pointInWords

/-- Reads the label of an id. -/
def labelInWords (s : Store) (id : UInt64) : Except Fault (Option Label) :=
  s.atRow id fun b row => .ok (b.label? row.toNat)

/-- Replaces the point of an id. -/
def overwriteInWords (s : Store) (id : UInt64) (point : Point) :
    Except Fault (Except Error Store) :=
  match point.checkDimension s.dimension with
  | .ok _ => (s.atRow id fun b row => b.overwriteInWords row point).map fun
    | some block =>
      let number := (id / .ofNat s.blockSize).toNat
      .ok { s with blocks := s.blocks.setIfInBounds number block }
    | none => .error (.invalidArgument (.unusedId id.toNat))
  | .error e => .ok (.error e)

section Reachable

variable {s : Store}

/-- The block size of a store is a word. -/
theorem Reachable.toNat_blockSize (h : s.Reachable) :
    (UInt64.ofNat s.blockSize).toNat = s.blockSize := by
  obtain ⟨rows, hrows⟩ := h.holds
  have hrow : s.blockSize ≤ s.dimension * s.blockSize :=
    Nat.le_mul_of_pos_left _ hrows.dimension_pos
  exact UInt64.toNat_ofNat_of_lt' (hrow.trans_lt h.fullBlock_lt)

theorem Reachable.toNat_div_blockSize (h : s.Reachable) (id : UInt64) :
    (id / UInt64.ofNat s.blockSize).toNat = id.toNat / s.blockSize := by
  rw [UInt64.toNat_div, h.toNat_blockSize]

/-- Blocks and rows are found in words as they are found in naturals. -/
theorem Reachable.atRow_eq (h : s.Reachable) {α : Type}
    {access : Block → UInt64 → Except Fault (Option α)} (read : Block → Nat → Option α)
    (same : ∀ b ∈ s.blocks, ∀ row, access b row = .ok (read b row.toNat)) (id : UInt64) :
    s.atRow id access =
      .ok (s.blocks[id.toNat / s.blockSize]?.bind fun b => read b (id.toNat % s.blockSize)) := by
  have hrow : (id % UInt64.ofNat s.blockSize).toNat = id.toNat % s.blockSize := by
    rw [UInt64.toNat_mod, h.toNat_blockSize]
  rw [atRow, h.toNat_div_blockSize]
  cases hb : s.blocks[id.toNat / s.blockSize]? with
  | some b =>
      rw [Option.bind_some, ← hrow]
      exact same b (Array.mem_of_getElem? hb) _
  | none => rfl

/-- A block of a store holds no more rows than there is room for. -/
theorem Reachable.exists_rows (h : s.Reachable) {b : Block} (hb : b ∈ s.blocks) :
    ∃ rows, b.Holds s.dimension s.blockSize rows ∧ rows.length ≤ s.blockSize := by
  obtain ⟨rows, hrows⟩ := h.holds
  obtain ⟨j, hj⟩ := hrows.exists_block hb
  refine ⟨_, hj, ?_⟩
  rw [length_chunk]
  exact Nat.min_le_left _ _

theorem Reachable.pointInWords_eq (h : s.Reachable) (id : UInt64) :
    s.pointInWords id = .ok (s.point? id.toNat) := by
  refine h.atRow_eq Block.point? (fun b hb row => ?_) id
  obtain ⟨rows, hrows, room⟩ := h.exists_rows hb
  exact hrows.pointInWords_eq room h.fullBlock_lt

theorem Reachable.labelInWords_eq (h : s.Reachable) (id : UInt64) :
    s.labelInWords id = .ok (s.label? id.toNat) :=
  h.atRow_eq Block.label? (fun _ _ _ => rfl) id

theorem Reachable.overwriteInWords_eq (h : s.Reachable) (id : UInt64) (point : Point) :
    s.overwriteInWords id point = .ok (s.overwrite id.toNat point) := by
  by_cases fits : point.length = s.dimension
  · have hblocks (b : Block) (hb : b ∈ s.blocks) (row : UInt64) :
        b.overwriteInWords row point = .ok (b.overwrite? row.toNat point) := by
      obtain ⟨rows, hrows, room⟩ := h.exists_rows hb
      exact hrows.overwriteInWords_eq room h.fullBlock_lt fits
    rw [overwriteInWords, overwrite, Point.checkDimension, if_pos fits]
    simp only [h.atRow_eq (fun b row => b.overwrite? row point) hblocks id,
      h.toNat_div_blockSize]
    cases s.blocks[id.toNat / s.blockSize]?.bind
        fun b => b.overwrite? (id.toNat % s.blockSize) point <;> rfl
  · rw [overwriteInWords, overwrite_eq_error id.toNat fits, Point.checkDimension, if_neg fits]

end Reachable

end Store

/-- **Addresses stay in bounds.** In every block of a store that can be reached, the places of a row
    are calculated in words without wrapping around, they lie inside the components of the block and
    are as many as the components of a point. Where there is no such row, no place is touched, so
    nothing depends on the components. Hence no access by a word stops, whatever is asked for: each
    is answered as it is for the natural that the word stands for. -/
theorem addressing_in_bounds {s : Store} (reachable : s.Reachable) :
    (∀ b ∈ s.blocks, ∀ row : UInt64,
      match b.span? row with
      | some span =>
        row.toNat < b.size ∧
        span.start.toNat = row.toNat * s.dimension ∧
        span.stop.toNat = row.toNat * s.dimension + s.dimension ∧
        span.stop.toNat ≤ b.components.size ∧
        span.length = s.dimension
      | none =>
        b.size ≤ row.toNat ∧ ∀ components,
          Block.pointInWords { b with components := components } row = .ok none ∧
          ∀ point, Block.overwriteInWords { b with components := components } row point =
            .ok none) ∧
    ∀ id : UInt64,
      s.pointInWords id = .ok (s.point? id.toNat) ∧
      s.labelInWords id = .ok (s.label? id.toNat) ∧
      ∀ point, s.overwriteInWords id point = .ok (s.overwrite id.toNat point) := by
  refine ⟨fun b hb row => ?_, fun id => ⟨reachable.pointInWords_eq id,
    reachable.labelInWords_eq id, reachable.overwriteInWords_eq id⟩⟩
  split
  · next span hspan =>
      obtain ⟨rows, hrows, room⟩ := reachable.exists_rows hb
      have hcovers := hrows.covers room reachable.fullBlock_lt hspan
      refine ⟨Block.lt_size_of_span? hspan, hcovers.start_eq, hcovers.stop_eq, ?_,
        hcovers.length_eq⟩
      rw [hcovers.stop_eq]
      exact hcovers.stop_le
  · next hspan => exact ⟨Block.span?_eq_none_iff.1 hspan, Block.untouched hspan⟩

/-- A store whose only block may hold as many rows as can be addressed at all, and holds one. Its
    places are found; the last row there could be and the last word of all are asked for in vain. -/
theorem addressing_in_bounds_largest_block :
    ∃ s : Store, s.Reachable ∧ s.dimension = 1 ∧ s.blockSize = 2305843009213693951 ∧
      (∃ b ∈ s.blocks, b.span? 0 = some ⟨0, 1⟩ ∧ Span.length ⟨0, 1⟩ = 1 ∧
        (1 : UInt64).toNat ≤ b.components.size) ∧
      s.pointInWords 0 = .ok (some [.one]) ∧
      s.pointInWords 2305843009213693950 = .ok none ∧
      s.overwriteInWords 18446744073709551615 [.one] =
        .ok (.error (.invalidArgument (.unusedId 18446744073709551615))) := by
  obtain ⟨s₀, created⟩ : ∃ s₀, Store.create 1 2305843009213693951 0 = .ok s₀ := ⟨_, rfl⟩
  have hlast := (Store.Reachable.created created).written (.append [.one] 7)
  obtain ⟨hplaces, haccess⟩ := addressing_in_bounds hlast
  cases created
  refine ⟨_, hlast, rfl, rfl, ?_, ?_, ?_, ?_⟩
  · obtain ⟨-, -, -, hinside, hlength⟩ := hplaces _ (Array.mem_singleton_self _) 0
    exact ⟨_, Array.mem_singleton_self _, rfl, hlength, hinside⟩
  · rw [(haccess 0).1]
    rfl
  · rw [(haccess 2305843009213693950).1]
    rfl
  · rw [(haccess 18446744073709551615).2.2]
    rfl

end ExactNeighbors
