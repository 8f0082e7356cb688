import ExactNeighbors.Proofs.Storage.Block
import ExactNeighbors.Storage.Store
import Mathlib.Data.List.Basic
import Mathlib.Data.List.Dedup

set_option autoImplicit false

/-! # The contents of a store

A store is read as one list of rows, and an id is a position in it. Block `j` holds the rows from
`j * blockSize` on, as many as fit; this alone says that all blocks but the last are full
(`Store.Holds`). Adding a row puts it at the end, overwriting replaces one point, whatever is refused
changes nothing, and every way of reading sees the list: by id, from end to end, and block by block.

The ids of a label are the positions at which it stands. -/

namespace ExactNeighbors

/-! ## Chunks -/

section Chunk

variable {α : Type} {n : Nat} {xs : List α}

/-- The elements from `j * n` on, `n` at most. -/
def chunk (n : Nat) (xs : List α) (j : Nat) : List α := (xs.drop (j * n)).take n

theorem getElem?_chunk (n : Nat) (xs : List α) (j i : Nat) :
    (chunk n xs j)[i]? = if i < n then xs[j * n + i]? else none := by
  rw [chunk, List.getElem?_take, List.getElem?_drop]

theorem length_chunk (n : Nat) (xs : List α) (j : Nat) :
    (chunk n xs j).length = min n (xs.length - j * n) := by
  rw [chunk, List.length_take, List.length_drop]

/-- Position `i` is position `i % n` of chunk `i / n`. -/
theorem getElem?_chunk_div (hn : 0 < n) (xs : List α) (i : Nat) :
    (chunk n xs (i / n))[i % n]? = xs[i]? := by
  rw [getElem?_chunk, if_pos (Nat.mod_lt i hn), Nat.mul_comm, Nat.div_add_mod]

theorem flatMap_chunk (n : Nat) (xs : List α) (m : Nat) :
    (List.range m).flatMap (chunk n xs) = xs.take (m * n) := by
  induction m with
  | zero => simp
  | succ m ih =>
      rw [List.range_succ, List.flatMap_append, ih, List.flatMap_singleton, chunk, Nat.succ_mul,
        List.take_add]

/-- A full chunk is not touched by what is added at the end. -/
theorem chunk_append_of_le {j : Nat} (full : (j + 1) * n ≤ xs.length) (ys : List α) :
    chunk n (xs ++ ys) j = chunk n xs j := by
  rw [Nat.succ_mul] at full
  rw [chunk, chunk, List.drop_append_of_le_length (by omega),
    List.take_append_of_le_length (by rw [List.length_drop]; omega)]

/-- One more element goes to the chunk that its position falls in. -/
theorem chunk_append_singleton (hn : 0 < n) (xs : List α) (x : α) :
    chunk n (xs ++ [x]) (xs.length / n) = chunk n xs (xs.length / n) ++ [x] := by
  have hdm := Nat.div_add_mod xs.length n
  have hlt := Nat.mod_lt xs.length hn
  rw [Nat.mul_comm] at hdm
  have hlen : (xs.drop (xs.length / n * n)).length < n := by
    rw [List.length_drop]
    omega
  rw [chunk, chunk, List.drop_append_of_le_length (by omega), List.take_of_length_le (Nat.le_of_lt hlen),
    List.take_of_length_le (by rw [List.length_append, List.length_singleton]; omega)]

/-- Changing one element changes one chunk at one place. -/
theorem chunk_modify_div (n : Nat) (xs : List α) (i : Nat) (f : α → α) :
    chunk n (xs.modify i f) (i / n) = (chunk n xs (i / n)).modify (i % n) f := by
  have hdm := Nat.div_add_mod' i n
  apply List.ext_getElem?
  intro k
  rw [List.getElem?_modify, getElem?_chunk, getElem?_chunk, List.getElem?_modify]
  have hplace : i = i / n * n + k ↔ i % n = k := by omega
  split
  · simp only [hplace]
  · rfl

theorem chunk_modify_of_ne (hn : 0 < n) (xs : List α) {i j : Nat} (hj : j ≠ i / n) (f : α → α) :
    chunk n (xs.modify i f) j = chunk n xs j := by
  apply List.ext_getElem?
  intro k
  rw [getElem?_chunk, getElem?_chunk]
  split
  · next hk =>
      have hne : i ≠ j * n + k := by
        rintro rfl
        rw [Nat.mul_comm, Nat.mul_add_div hn, Nat.div_eq_of_lt hk, Nat.add_zero] at hj
        exact hj rfl
      exact List.getElem?_modify_ne f xs hne
  · rfl

end Chunk

namespace Store

/-! ## The ids of a label -/

/-- The positions at which a label stands, in rising order. -/
def positions (l : Label) (rows : List Row) : List Nat :=
  (List.range rows.length).filter fun id => (rows.map Prod.fst)[id]? = some l

theorem mem_positions {l : Label} {rows : List Row} {id : Nat} :
    id ∈ positions l rows ↔ rows[id]?.map Prod.fst = some l := by
  rw [positions, List.mem_filter, List.mem_range, decide_eq_true_eq, List.getElem?_map]
  refine ⟨fun h => h.2, fun h => ⟨?_, h⟩⟩
  by_contra hge
  rw [List.getElem?_eq_none (Nat.not_lt.1 hge)] at h
  cases h

theorem positions_append_singleton (l : Label) (rows : List Row) (r : Row) :
    positions l (rows ++ [r]) =
      if r.1 = l then positions l rows ++ [rows.length] else positions l rows := by
  have hold : (List.range rows.length).filter
      (fun id => ((rows ++ [r]).map Prod.fst)[id]? = some l) = positions l rows := by
    apply List.filter_congr
    intro id hid
    rw [List.map_append, List.getElem?_append_left (by simpa using hid)]
  rw [positions, List.length_append, List.length_singleton, List.range_succ, List.filter_append,
    hold]
  by_cases hl : r.1 = l <;> simp [hl]

theorem positions_replacePoint (l : Label) (rows : List Row) (i : Nat) (point : Point) :
    positions l (replacePoint rows i point) = positions l rows := by
  rw [positions, positions, map_fst_replacePoint, replacePoint, List.length_modify]

/-- A label that has no position stands nowhere. -/
theorem positions_ne_nil_iff {l : Label} {rows : List Row} :
    positions l rows ≠ [] ↔ l ∈ rows.map Prod.fst := by
  constructor
  · intro hsome
    obtain ⟨id, hid⟩ := List.exists_mem_of_ne_nil _ hsome
    rw [mem_positions, ← List.getElem?_map] at hid
    exact List.mem_of_getElem? hid
  · intro hl
    obtain ⟨id, hid⟩ := List.mem_iff_getElem?.1 hl
    rw [List.getElem?_map] at hid
    exact List.ne_nil_of_mem (mem_positions.2 hid)

/-- The ids are kept for the labels that stand somewhere, and for no others. -/
def IdsOf (ids : Std.TreeMap Label (Array Nat)) (rows : List Row) : Prop :=
  ∀ l, ids[l]? = if positions l rows = [] then none else some (positions l rows).toArray

theorem IdsOf.addId {ids : Std.TreeMap Label (Array Nat)} {rows : List Row} (h : IdsOf ids rows)
    (r : Row) : IdsOf (addId ids r.1 rows.length) (rows ++ [r]) := by
  intro l
  rw [Store.addId, Std.TreeMap.getElem?_alter, positions_append_singleton]
  by_cases hl : r.1 = l
  · subst hl
    rw [if_pos (Std.ReflCmp.compare_self), if_pos rfl, if_neg (by simp), h r.1]
    split
    · next hnone => simp [hnone]
    · simp
  · rw [if_neg (fun hc => hl (Std.LawfulEqCmp.eq_of_compare hc)), if_neg hl, h l]

/-! ## What a store holds -/

/-- The store holds the rows: chunk by chunk in its blocks, and by their labels in its ids. -/
structure Holds (s : Store) (rows : List Row) : Prop where
  dimension_pos : 0 < s.dimension
  blockSize_pos : 0 < s.blockSize
  count : s.count = rows.length
  blocks_size : s.blocks.size = (rows.length + s.blockSize - 1) / s.blockSize
  block : ∀ (j : Nat) (b : Block), s.blocks[j]? = some b →
    b.Holds s.dimension s.blockSize (chunk s.blockSize rows j)
  ids : IdsOf s.ids rows

theorem eq_of_create {dimension blockSize expected : Nat} {s : Store}
    (h : create dimension blockSize expected = .ok s) :
    dimension ≠ 0 ∧ blockSize ≠ 0 ∧ (Block.bytes? dimension blockSize).isSome = true ∧
      s = ⟨dimension, blockSize, #[], 0, ∅⟩ := by
  unfold create at h
  split at h
  · cases h
  · next hdimension =>
      split at h
      · cases h
      · next hblockSize =>
          split at h
          · cases h
          · next hbytes =>
              cases h
              exact ⟨hdimension, hblockSize, by simpa [Option.isSome_iff_ne_none] using hbytes, rfl⟩

theorem holds_of_create {dimension blockSize expected : Nat} {s : Store}
    (h : create dimension blockSize expected = .ok s) :
    s.Holds [] ∧ s.dimension = dimension ∧ s.blockSize = blockSize := by
  obtain ⟨hdimension, hblockSize, -, rfl⟩ := eq_of_create h
  refine ⟨⟨Nat.pos_of_ne_zero hdimension, Nat.pos_of_ne_zero hblockSize, rfl, ?_, ?_, ?_⟩, rfl, rfl⟩
  · simp only [List.length_nil, Nat.zero_add]
    exact (Nat.div_eq_of_lt (by omega)).symm
  · intro j b hb
    simp at hb
  · intro l
    simp [positions]

variable {s : Store} {rows : List Row}

/-! ### Which blocks there are -/

theorem Holds.lt_blocks_size (h : s.Holds rows) (j : Nat) :
    j < s.blocks.size ↔ j * s.blockSize < rows.length := by
  have hpos := h.blockSize_pos
  rw [h.blocks_size, Nat.lt_iff_add_one_le, Nat.le_div_iff_mul_le hpos, Nat.succ_mul]
  omega

/-! ### Which labels there are -/

theorem Holds.mem_ids_iff (h : s.Holds rows) {l : Label} : l ∈ s.ids ↔ l ∈ rows.map Prod.fst := by
  rw [Std.TreeMap.mem_iff_isSome_getElem?, h.ids l, ← positions_ne_nil_iff]
  split
  · next hnone => simp [hnone]
  · next hsome => simp [hsome]

theorem Holds.containsLabel_iff (h : s.Holds rows) {l : Label} :
    s.containsLabel l = true ↔ l ∈ rows.map Prod.fst := by
  rw [containsLabel, Std.TreeMap.contains_iff_mem, h.mem_ids_iff]

/-- A label is counted once, however often it stands. -/
theorem Holds.labelCount_eq (h : s.Holds rows) :
    s.labelCount = (rows.map Prod.fst).dedup.length := by
  have hkeys (l : Label) : l ∈ s.ids.keys ↔ l ∈ (rows.map Prod.fst).dedup := by
    rw [Std.TreeMap.mem_keys, h.mem_ids_iff, List.mem_dedup]
  have hperm := (List.perm_ext_iff_of_nodup Std.TreeMap.nodup_keys (List.nodup_dedup _)).2 hkeys
  rw [labelCount, ← Std.TreeMap.length_keys, hperm.length_eq]

/-! ## Reading by id -/

/-- Whatever a block reads off its rows by position, the store reads off all rows by id. -/
theorem Holds.read (h : s.Holds rows) {β : Type} {read : Block → Nat → Option β} {field : Row → β}
    (spec : ∀ (b : Block) (chunk : List Row) (i : Nat),
      b.Holds s.dimension s.blockSize chunk → read b i = chunk[i]?.map field) (id : Nat) :
    (s.blocks[id / s.blockSize]?.bind fun b => read b (id % s.blockSize)) =
      rows[id]?.map field := by
  cases hb : s.blocks[id / s.blockSize]? with
  | none =>
      have hsize : ¬ id / s.blockSize < s.blocks.size := fun hlt => by
        rw [Array.getElem?_eq_getElem hlt] at hb
        cases hb
      rw [h.lt_blocks_size] at hsize
      have hid := Nat.div_mul_le_self id s.blockSize
      rw [List.getElem?_eq_none (by omega)]
      rfl
  | some b =>
      rw [Option.bind_some, spec b _ _ (h.block _ b hb), getElem?_chunk_div h.blockSize_pos]

theorem Holds.point?_eq (h : s.Holds rows) (id : Nat) : s.point? id = rows[id]?.map Prod.snd :=
  h.read (fun _ _ i hb => hb.point?_eq i) id

theorem Holds.label?_eq (h : s.Holds rows) (id : Nat) : s.label? id = rows[id]?.map Prod.fst :=
  h.read (fun _ _ i hb => hb.label?_eq i) id

/-! ## Reading from end to end -/

/-- What every block reads off its rows, put together, is what is read off the chunks. -/
theorem Holds.flatMap_blocks (h : s.Holds rows) {β : Type} {read : Block → List β}
    {view : List Row → List β}
    (spec : ∀ (b : Block) (chunk : List Row),
      b.Holds s.dimension s.blockSize chunk → read b = view chunk) :
    s.blocks.toList.flatMap read =
      (List.range s.blocks.size).flatMap fun j => view (chunk s.blockSize rows j) := by
  rw [List.flatMap_def, List.flatMap_def]
  congr 1
  refine List.ext_getElem (by simp) fun j hj hj' => ?_
  have hlt : j < s.blocks.size := by simpa using hj
  have hb := h.block j s.blocks[j] (Array.getElem?_eq_getElem hlt)
  simpa using spec _ _ hb

theorem Holds.flatMap_chunks (h : s.Holds rows) :
    (List.range s.blocks.size).flatMap (chunk s.blockSize rows) = rows := by
  rw [flatMap_chunk, List.take_of_length_le]
  have hlast := h.lt_blocks_size s.blocks.size
  omega

theorem Holds.toList_eq (h : s.Holds rows) : s.toList = rows := by
  have hblocks : s.toList =
      (List.range s.blocks.size).flatMap fun j => chunk s.blockSize rows j :=
    h.flatMap_blocks fun _ _ hb => hb.toList_eq h.dimension_pos
  rw [hblocks]
  exact h.flatMap_chunks

/-! ## Adding a row -/

/-- The blocks once there is room for one more row. -/
def roomyBlocks (s : Store) : Array Block :=
  if s.needsBlock then s.blocks.push (.empty s.dimension s.blockSize) else s.blocks

theorem Holds.needsBlock_iff (h : s.Holds rows) :
    s.needsBlock = true ↔ s.blocks.size = rows.length / s.blockSize := by
  have hpos := h.blockSize_pos
  have hmod := Nat.mod_lt rows.length hpos
  have hdm := Nat.div_add_mod' rows.length s.blockSize
  rw [needsBlock, Array.back?_eq_getElem?]
  obtain hzero | hsome := Nat.eq_zero_or_pos s.blocks.size
  · have hshort : ¬ 0 * s.blockSize < rows.length := by
      rw [← h.lt_blocks_size]
      omega
    have hlength : rows.length = 0 := by omega
    simp [Array.eq_empty_of_size_eq_zero hzero, hlength]
  · have hlt : s.blocks.size - 1 < s.blocks.size := by omega
    have hb := h.block _ _ (Array.getElem?_eq_getElem hlt)
    rw [Array.getElem?_eq_getElem hlt, Option.all_some, hb.isFull_iff, length_chunk]
    -- the last block is full exactly if the rows end where it does
    have hlast := (h.lt_blocks_size _).1 hlt
    have hnext := h.lt_blocks_size s.blocks.size
    obtain ⟨j, hj⟩ : ∃ j, s.blocks.size = j + 1 := ⟨s.blocks.size - 1, by omega⟩
    rw [hj] at hlast hnext ⊢
    rw [Nat.add_sub_cancel] at hlast ⊢
    rw [Nat.succ_mul] at hnext
    constructor
    · intro hfull
      have hlength : rows.length = (j + 1) * s.blockSize := by
        rw [Nat.succ_mul]
        omega
      rw [hlength, Nat.mul_div_cancel _ hpos]
    · intro hdiv
      rw [← hdiv, Nat.succ_mul] at hdm
      omega

theorem Holds.size_roomyBlocks (h : s.Holds rows) :
    s.roomyBlocks.size = rows.length / s.blockSize + 1 := by
  have hpos := h.blockSize_pos
  have hsize : s.blocks.size = rows.length / s.blockSize ∨
      s.blocks.size = rows.length / s.blockSize + 1 := by
    have hlow : rows.length / s.blockSize ≤ s.blocks.size := by
      rw [h.blocks_size]
      exact Nat.div_le_div_right (by omega)
    have hhigh : s.blocks.size ≤ rows.length / s.blockSize + 1 := by
      rw [h.blocks_size, ← Nat.add_div_right _ hpos]
      exact Nat.div_le_div_right (by omega)
    omega
  have hneeds := h.needsBlock_iff
  unfold roomyBlocks
  split
  · next hneed => rw [Array.size_push, hneeds.1 hneed]
  · next hroom =>
      rw [hneeds] at hroom
      omega

theorem Holds.block_roomyBlocks (h : s.Holds rows) {j : Nat} {b : Block}
    (hb : s.roomyBlocks[j]? = some b) :
    b.Holds s.dimension s.blockSize (chunk s.blockSize rows j) := by
  unfold roomyBlocks at hb
  split at hb
  · next hneed =>
      rw [Array.getElem?_push] at hb
      split at hb
      · next hj =>
          -- the new block begins where the rows end
          have hend := h.lt_blocks_size s.blocks.size
          have hnone : chunk s.blockSize rows j = [] := by
            rw [← List.length_eq_zero_iff, length_chunk, hj]
            omega
          cases hb
          rw [hnone]
          exact Block.holds_empty _ _
      · exact h.block j b hb
  · exact h.block j b hb

theorem Holds.push (h : s.Holds rows) (label : Label) {point : Point}
    (fits : point.length = s.dimension) : (s.push point label).Holds (rows ++ [(label, point)]) where
  dimension_pos := h.dimension_pos
  blockSize_pos := h.blockSize_pos
  count := by
    rw [List.length_append, ← h.count]
    rfl
  blocks_size := by
    have hsize : (s.push point label).blocks.size = s.roomyBlocks.size := Array.size_modify
    rw [hsize, h.size_roomyBlocks, ← Nat.add_div_right _ h.blockSize_pos, List.length_append,
      List.length_singleton]
    congr 1
    have := h.blockSize_pos
    show _ = rows.length + 1 + s.blockSize - 1
    omega
  block j b hb := by
    have hblocks : (s.push point label).blocks =
        s.roomyBlocks.modify (s.roomyBlocks.size - 1) (·.push label point) := rfl
    rw [hblocks, h.size_roomyBlocks, Nat.add_sub_cancel, Array.getElem?_modify] at hb
    show b.Holds s.dimension s.blockSize (chunk s.blockSize (rows ++ [(label, point)]) j)
    split at hb
    · next hj =>
        -- the row goes to the last block, which has room for it
        obtain ⟨old, hold, rfl⟩ := Option.map_eq_some_iff.1 hb
        subst hj
        rw [chunk_append_singleton h.blockSize_pos]
        exact (h.block_roomyBlocks hold).push label fits
    · next hj =>
        -- the blocks in front of it are full
        have hlt : j < s.roomyBlocks.size := by
          by_contra hge
          rw [Array.getElem?_eq_none (by omega)] at hb
          cases hb
        rw [h.size_roomyBlocks] at hlt
        have hfull : (j + 1) * s.blockSize ≤ rows.length :=
          Nat.le_trans (Nat.mul_le_mul_right _ (by omega : j + 1 ≤ rows.length / s.blockSize))
            (Nat.div_mul_le_self _ _)
        rw [chunk_append_of_le hfull]
        exact h.block_roomyBlocks hb
  ids := by
    have hids := h.ids.addId (label, point)
    rwa [← h.count] at hids

theorem Holds.append_eq_ok (h : s.Holds rows) (label : Label) {point : Point}
    (fits : point.length = s.dimension) :
    s.append point label = .ok (rows.length, s.push point label) := by
  rw [append, Point.checkDimension, if_pos fits, ← h.count]
  rfl

theorem append_eq_error (label : Label) {point : Point} (unfit : point.length ≠ s.dimension) :
    s.append point label = .error (.dimensionMismatch s.dimension point.length) := by
  rw [append, Point.checkDimension, if_neg unfit]
  rfl

/-! ## Overwriting -/

/-- The store with another block in one place holds what the block changed. -/
theorem Holds.setBlock (h : s.Holds rows) {id : Nat} {point : Point} {b : Block}
    (hb : b.Holds s.dimension s.blockSize
      (replacePoint (chunk s.blockSize rows (id / s.blockSize)) (id % s.blockSize) point)) :
    Holds { s with blocks := s.blocks.setIfInBounds (id / s.blockSize) b }
      (replacePoint rows id point) where
  dimension_pos := h.dimension_pos
  blockSize_pos := h.blockSize_pos
  count := by
    rw [replacePoint, List.length_modify]
    exact h.count
  blocks_size := by
    rw [Array.size_setIfInBounds, replacePoint, List.length_modify]
    exact h.blocks_size
  block j b' hb' := by
    rw [Array.getElem?_setIfInBounds] at hb'
    show b'.Holds s.dimension s.blockSize (chunk s.blockSize (replacePoint rows id point) j)
    rw [replacePoint]
    split at hb'
    · next hj =>
        subst hj
        split at hb'
        · cases hb'
          rw [chunk_modify_div]
          exact hb
        · cases hb'
    · next hj =>
        rw [chunk_modify_of_ne h.blockSize_pos rows (Ne.symm hj)]
        exact h.block j b' hb'
  ids l := by
    rw [positions_replacePoint]
    exact h.ids l

theorem Holds.overwrite_eq_ok (h : s.Holds rows) {id : Nat} (hid : id < rows.length)
    {point : Point} (fits : point.length = s.dimension) :
    ∃ blocks, s.overwrite id point = .ok { s with blocks := blocks } ∧
      Holds { s with blocks := blocks } (replacePoint rows id point) := by
  have hpos := h.blockSize_pos
  have hdm := Nat.div_add_mod' id s.blockSize
  have hmod := Nat.mod_lt id hpos
  have hlt : id / s.blockSize < s.blocks.size := (h.lt_blocks_size _).2 (by omega)
  have hrow : id % s.blockSize < (chunk s.blockSize rows (id / s.blockSize)).length := by
    rw [length_chunk]
    omega
  obtain ⟨b, hsome, hb⟩ :=
    (h.block _ _ (Array.getElem?_eq_getElem hlt)).overwrite?_eq_some hrow fits
  refine ⟨_, ?_, h.setBlock hb⟩
  rw [overwrite, Point.checkDimension, if_pos fits, Array.getElem?_eq_getElem hlt,
    Option.bind_some, hsome]
  rfl

theorem Holds.overwrite_eq_unused (h : s.Holds rows) {id : Nat} (hid : rows.length ≤ id)
    {point : Point} (fits : point.length = s.dimension) :
    s.overwrite id point = .error (.invalidArgument (.unusedId id)) := by
  have hnone : s.blocks[id / s.blockSize]?.bind (·.overwrite? (id % s.blockSize) point) = none := by
    cases hb : s.blocks[id / s.blockSize]? with
    | none => rfl
    | some b =>
        have hdm := Nat.div_add_mod' id s.blockSize
        rw [Option.bind_some]
        refine (h.block _ b hb).overwrite?_eq_none ?_ point
        rw [length_chunk]
        omega
  rw [overwrite, Point.checkDimension, if_pos fits, hnone]
  rfl

theorem overwrite_eq_error (id : Nat) {point : Point} (unfit : point.length ≠ s.dimension) :
    s.overwrite id point = .error (.dimensionMismatch s.dimension point.length) := by
  rw [overwrite, Point.checkDimension, if_neg unfit]
  rfl

end Store

end ExactNeighbors
