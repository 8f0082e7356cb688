import ExactNeighbors.Proofs.Storage.Writes
import Mathlib.Algebra.Order.Floor.Div

set_option autoImplicit false

/-! # How a store lays out its blocks

An id is taken apart into a block and a row of it, and both are then taken at their word. That the
row is the right one rests on the blocks being filled one after the other: all but the last are full,
and the last has at least one row (`Layout`). No write looks at more than one block to keep it so.
It follows from what a store holds, block `j` having the `j`-th chunk of the rows
(`Holds.layout`), and with it that a row is only ever added to a block with room (`Holds.push_roomy`).

What a block takes at most is settled when the store is created: the bytes of a full one can be
addressed, so its components are counted by a word (`Reachable.fullBlock_lt`). -/

namespace ExactNeighbors

/-- A full block can be laid out just if the exact number of its bytes can be addressed: neither
    product may pass the largest size on the way. -/
theorem Block.isSome_bytes?_iff {dimension capacity : Nat} :
    (bytes? dimension capacity).isSome = true ↔
      dimension * capacity * Size.component ≤ Size.addressable := by
  have hlimit : Size.addressable ≤ Size.limit := by decide
  have hcomponent : dimension * capacity ≤ dimension * capacity * Size.component :=
    Nat.le_mul_of_pos_right _ (by decide)
  unfold bytes? Size.mul?
  by_cases hrow : dimension * capacity ≤ Size.limit
  · by_cases hbytes : dimension * capacity * Size.component ≤ Size.limit
    · simp [hrow, hbytes, Option.filter]
    · simp [hrow, hbytes]
      omega
  · simp [hrow]
    omega

namespace Store

/-- The blocks of a store are filled one after the other. -/
structure Layout (s : Store) : Prop where
  capacity : ∀ b ∈ s.blocks, b.capacity = s.blockSize
  components : ∀ b ∈ s.blocks, b.components.size = b.size * s.dimension
  full : ∀ (j : Nat) (b : Block), s.blocks[j]? = some b → j + 1 < s.blocks.size →
    b.size = s.blockSize
  last : ∀ b : Block, s.blocks.back? = some b → 1 ≤ b.size ∧ b.size ≤ s.blockSize
  blockCount : s.blocks.size = s.count ⌈/⌉ s.blockSize
  rowCount : (s.blocks.toList.map Block.size).sum = s.count

variable {s : Store} {rows : List Row}

/-! ## Reading the layout off the rows -/

theorem Holds.exists_block (h : s.Holds rows) {b : Block} (hb : b ∈ s.blocks) :
    ∃ j, b.Holds s.dimension s.blockSize (chunk s.blockSize rows j) := by
  obtain ⟨j, hj⟩ := Array.mem_iff_getElem?.1 hb
  exact ⟨j, h.block j b hj⟩

theorem Holds.size_block (h : s.Holds rows) {j : Nat} {b : Block} (hb : s.blocks[j]? = some b) :
    b.size = min s.blockSize (rows.length - j * s.blockSize) := by
  rw [(h.block j b hb).size_eq, length_chunk]

theorem Holds.sum_size (h : s.Holds rows) : (s.blocks.toList.map Block.size).sum = s.count := by
  have hsizes : s.blocks.toList.map Block.size =
      s.blocks.toList.map fun b => b.toList.length := by
    apply List.map_congr_left
    intro b hb
    obtain ⟨j, hj⟩ := h.exists_block (Array.mem_toList_iff.1 hb)
    rw [hj.size_eq, hj.toList_eq h.dimension_pos]
  rw [hsizes, ← List.length_flatMap, h.count]
  exact congrArg List.length h.toList_eq

theorem Holds.layout (h : s.Holds rows) : s.Layout where
  capacity b hb := by
    obtain ⟨j, hj⟩ := h.exists_block hb
    exact hj.capacity_eq
  components b hb := by
    obtain ⟨j, hj⟩ := h.exists_block hb
    rw [hj.size_components, hj.size_eq]
  full j b hb hnext := by
    -- there are rows for the next block, so this one has all it may hold
    rw [h.lt_blocks_size, Nat.succ_mul] at hnext
    rw [h.size_block hb]
    omega
  last b hb := by
    rw [Array.back?_eq_getElem?] at hb
    have hj := (Array.getElem?_eq_some_iff.1 hb).1
    rw [h.lt_blocks_size] at hj
    have hpos := h.blockSize_pos
    rw [h.size_block hb]
    omega
  blockCount := by
    rw [Nat.ceilDiv_eq_add_pred_div, h.count]
    exact h.blocks_size
  rowCount := h.sum_size

/-- A row that is added goes to the last block, which has room for it. -/
theorem Holds.push_roomy (h : s.Holds rows) (point : Point) (label : Label) :
    ∃ b, s.roomyBlocks.back? = some b ∧ b.isFull = false ∧
      (s.push point label).blocks.back? = some (b.push label point) := by
  have hsize := h.size_roomyBlocks
  have hblocks : (s.push point label).blocks =
      s.roomyBlocks.modify (s.roomyBlocks.size - 1) (·.push label point) := rfl
  obtain ⟨b, hb⟩ : ∃ b, s.roomyBlocks[rows.length / s.blockSize]? = some b :=
    ⟨_, Array.getElem?_eq_getElem (by omega)⟩
  refine ⟨b, ?_, ?_, ?_⟩
  · rw [Array.back?_eq_getElem?, hsize, Nat.add_sub_cancel, hb]
  · -- the rows that do not fill a block are fewer than a block may hold
    have hmod := Nat.mod_lt rows.length h.blockSize_pos
    have hdm := Nat.div_add_mod' rows.length s.blockSize
    rw [Bool.eq_false_iff, Ne, (h.block_roomyBlocks hb).isFull_iff, length_chunk]
    omega
  · rw [hblocks, Array.back?_eq_getElem?, Array.size_modify, hsize, Nat.add_sub_cancel,
      Array.getElem?_modify, if_pos rfl, hb]
    rfl

/-! ## What a store can be created for -/

theorem Reachable.isSome_bytes? (h : s.Reachable) :
    (Block.bytes? s.dimension s.blockSize).isSome = true := by
  induction h with
  | created h =>
      obtain ⟨-, -, hbytes, rfl⟩ := eq_of_create h
      exact hbytes
  | written _ w ih =>
      obtain ⟨hdimension, hblockSize⟩ := sizes_write _ w
      rw [hdimension, hblockSize]
      exact ih

/-- The number of components of a full block is a word, and so is everything below it. -/
theorem Reachable.fullBlock_lt (h : s.Reachable) : s.dimension * s.blockSize < UInt64.size := by
  have hbytes := Block.isSome_bytes?_iff.1 h.isSome_bytes?
  have hcomponents : s.dimension * s.blockSize ≤ s.dimension * s.blockSize * Size.component :=
    Nat.le_mul_of_pos_right _ (by decide)
  have hlimit : Size.addressable < UInt64.size := by decide
  omega

end Store

end ExactNeighbors
