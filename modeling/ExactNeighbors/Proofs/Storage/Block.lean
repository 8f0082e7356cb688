import ExactNeighbors.Storage.Block
import Mathlib.Data.List.Basic

set_option autoImplicit false

/-! # The rows of a block

A block keeps the components of all its points end to end and finds a point by its offset. Here it
is read as a list of rows, labels with points, and each operation is described on that list: adding a
row puts it at the end, overwriting replaces one point, and the three ways of reading (by row, label
by row, and all of them cut from the components) see the same rows.

What makes the offsets right is that all points have the same width, so the flat position of row `i`
is `i` times the width (`drop_flatMap_width`). -/

namespace ExactNeighbors

/-- A label with its point, as it is stored. -/
abbrev Row := Label × Point

/-- The rows with another point in one of them. -/
def replacePoint (rows : List Row) (i : Nat) (point : Point) : List Row :=
  rows.modify i fun r => (r.1, point)

theorem map_fst_replacePoint (rows : List Row) (i : Nat) (point : Point) :
    (replacePoint rows i point).map Prod.fst = rows.map Prod.fst := by
  apply List.ext_getElem?
  intro j
  rw [replacePoint, List.getElem?_map, List.getElem?_map, List.getElem?_modify]
  cases rows[j]? with
  | none => rfl
  | some r => by_cases h : i = j <;> simp [h]

theorem width_replacePoint {rows : List Row} {w : Nat} (width : ∀ r ∈ rows, r.2.length = w)
    (i : Nat) {point : Point} (fits : point.length = w) :
    ∀ r ∈ replacePoint rows i point, r.2.length = w := by
  intro r hr
  obtain ⟨j, hj, rfl⟩ := List.mem_iff_getElem.1 hr
  rw [replacePoint, List.length_modify] at hj
  simp only [replacePoint, List.getElem_modify]
  split
  · exact fits
  · exact width _ (List.getElem_mem hj)

namespace Block

/-! ## Lists of one width, end to end -/

section Width

variable {α β : Type} {f : α → List β} {w : Nat}

theorem length_flatMap_width {xs : List α} (width : ∀ x ∈ xs, (f x).length = w) :
    (xs.flatMap f).length = xs.length * w := by
  induction xs with
  | nil => simp
  | cons x xs ih =>
      rw [List.flatMap_cons, List.length_append, width x List.mem_cons_self,
        ih fun y hy => width y (List.mem_cons_of_mem _ hy), List.length_cons, Nat.succ_mul,
        Nat.add_comm]

theorem drop_flatMap_width {xs : List α} (width : ∀ x ∈ xs, (f x).length = w) (i : Nat) :
    (xs.flatMap f).drop (i * w) = (xs.drop i).flatMap f := by
  induction i generalizing xs with
  | zero => simp
  | succ i ih =>
      cases xs with
      | nil => simp
      | cons x xs =>
          have hx := width x List.mem_cons_self
          rw [List.flatMap_cons, Nat.succ_mul, Nat.add_comm, ← List.drop_drop, ← hx,
            List.drop_left, List.drop_succ_cons, hx,
            ih fun y hy => width y (List.mem_cons_of_mem _ hy)]

theorem take_flatMap_width {xs : List α} (width : ∀ x ∈ xs, (f x).length = w) (i : Nat) :
    (xs.flatMap f).take (i * w) = (xs.take i).flatMap f := by
  induction i generalizing xs with
  | zero => simp
  | succ i ih =>
      cases xs with
      | nil => simp
      | cons x xs =>
          have hx := width x List.mem_cons_self
          rw [List.flatMap_cons, Nat.succ_mul, Nat.add_comm, ← hx, List.take_length_add_append, hx,
            List.take_succ_cons, List.flatMap_cons, ih fun y hy => width y (List.mem_cons_of_mem _ hy)]

end Width

/-! ## Writing into the components -/

/-- Writing replaces as many components as the point has and leaves the others alone. -/
theorem toList_write {components : Array Single} {front old back : List Single} {point : Point}
    (parts : components.toList = front ++ old ++ back) (same : old.length = point.length) :
    (write components front.length point).toList = front ++ point ++ back := by
  induction point generalizing components front old with
  | nil =>
      rw [List.length_eq_zero_iff.1 same] at parts
      exact parts
  | cons x xs ih =>
      cases old with
      | nil => simp at same
      | cons y old =>
          -- the first component is in place and belongs to the front from here on
          have hparts : (components.setIfInBounds front.length x).toList =
              (front ++ [x]) ++ old ++ back := by
            rw [Array.toList_setIfInBounds, parts]
            simp
          have h := ih hparts (by simpa using same)
          rw [List.length_append, List.length_singleton] at h
          rw [write, h]
          simp

/-! ## What a block holds -/

/-- The block holds the rows: the labels in one array, the components end to end in the other. -/
structure Holds (b : Block) (dimension capacity : Nat) (rows : List Row) : Prop where
  dimension_eq : b.dimension = dimension
  capacity_eq : b.capacity = capacity
  labels : b.labels.toList = rows.map Prod.fst
  components : b.components.toList = rows.flatMap Prod.snd
  width : ∀ r ∈ rows, r.2.length = dimension

variable {b : Block} {dimension capacity : Nat} {rows : List Row}

theorem holds_empty (dimension capacity : Nat) :
    (empty dimension capacity).Holds dimension capacity [] :=
  ⟨rfl, rfl, rfl, rfl, by simp⟩

theorem Holds.size_eq (h : b.Holds dimension capacity rows) : b.size = rows.length := by
  rw [size, ← Array.length_toList, h.labels, List.length_map]

theorem Holds.size_components (h : b.Holds dimension capacity rows) :
    b.components.size = rows.length * dimension := by
  rw [← Array.length_toList, h.components, length_flatMap_width h.width]

theorem Holds.isFull_iff (h : b.Holds dimension capacity rows) :
    b.isFull = true ↔ capacity ≤ rows.length := by
  rw [isFull, decide_eq_true_eq, h.size_eq, h.capacity_eq]

/-! ### Adding a row -/

theorem Holds.push (h : b.Holds dimension capacity rows) (label : Label) {point : Point}
    (fits : point.length = dimension) :
    (b.push label point).Holds dimension capacity (rows ++ [(label, point)]) where
  dimension_eq := h.dimension_eq
  capacity_eq := h.capacity_eq
  labels := by
    rw [Block.push, Array.toList_push, h.labels, List.map_append]
    rfl
  components := by
    rw [Block.push, List.flatMap_append, ← h.components]
    simp
  width r hr := by
    rcases List.mem_append.1 hr with hr | hr
    · exact h.width r hr
    · rw [List.mem_singleton.1 hr]
      exact fits

/-! ### Reading -/

/-- The components at the offset of a row are its point. -/
theorem Holds.slice_eq (h : b.Holds dimension capacity rows) {i : Nat} (hi : i < rows.length) :
    slice b.components (i * dimension) dimension = rows[i].2 := by
  have hrow : rows[i].2.length = dimension := h.width _ (List.getElem_mem hi)
  rw [slice, Array.toList_extract, List.extract_eq_take_drop, h.components,
    drop_flatMap_width h.width, List.drop_eq_getElem_cons hi, List.flatMap_cons,
    Nat.add_sub_cancel_left]
  exact List.take_left' hrow

theorem Holds.label?_eq (h : b.Holds dimension capacity rows) (i : Nat) :
    b.label? i = rows[i]?.map Prod.fst := by
  rw [label?, ← Array.getElem?_toList, h.labels, List.getElem?_map]

theorem Holds.point?_eq (h : b.Holds dimension capacity rows) (i : Nat) :
    b.point? i = rows[i]?.map Prod.snd := by
  rw [point?, h.size_eq, h.dimension_eq]
  split
  · next hi => rw [h.slice_eq hi, List.getElem?_eq_getElem hi, Option.map_some]
  · next hi => rw [List.getElem?_eq_none (Nat.not_lt.1 hi), Option.map_none]

theorem Holds.points_eq (h : b.Holds dimension capacity rows) (hpos : 0 < dimension) :
    b.points = rows.map Prod.snd := by
  refine List.ext_getElem ?_ fun i hi hi' => ?_
  · simp [points, h.size_components, h.dimension_eq, Nat.max_eq_left hpos,
      Nat.mul_div_cancel _ hpos]
  · rw [List.length_map] at hi'
    simp only [points, List.getElem_map, List.getElem_range, h.dimension_eq, Nat.max_eq_left hpos]
    exact h.slice_eq hi'

/-- Walking the block gives its rows. -/
theorem Holds.toList_eq (h : b.Holds dimension capacity rows) (hpos : 0 < dimension) :
    b.toList = rows := by
  rw [toList, h.labels, h.points_eq hpos]
  exact (List.zip_of_prod rfl rfl).symm

/-- So does asking for row after row. -/
theorem Holds.byPosition_eq (h : b.Holds dimension capacity rows) :
    ((List.range b.size).map fun i => (b.label? i, b.point? i)) =
      rows.map fun r => (some r.1, some r.2) := by
  rw [h.size_eq]
  refine List.ext_getElem (by simp) fun i hi hi' => ?_
  rw [List.length_map] at hi'
  simp [h.label?_eq, h.point?_eq, hi']

/-! ### Overwriting -/

theorem Holds.overwrite?_eq_none (h : b.Holds dimension capacity rows) {i : Nat}
    (hi : rows.length ≤ i) (point : Point) : b.overwrite? i point = none := by
  rw [overwrite?, h.size_eq, if_neg (Nat.not_lt.2 hi)]

/-- Overwriting a row changes nothing but its point. -/
theorem Holds.overwrite?_eq_some (h : b.Holds dimension capacity rows) {i : Nat}
    (hi : i < rows.length) {point : Point} (fits : point.length = dimension) :
    ∃ b', b.overwrite? i point = some b' ∧
      b'.Holds dimension capacity (replacePoint rows i point) := by
  refine ⟨{ b with components := write b.components (i * dimension) point }, ?_, ?_⟩
  · rw [overwrite?, h.size_eq, if_pos hi, h.dimension_eq]
  · obtain ⟨front, r, back, hrows, hfront, hmodify⟩ :=
      List.exists_of_modify (fun r : Row => (r.1, point)) hi
    -- the components split where the rows do
    have hwidth := h.width
    rw [hrows] at hwidth
    have hlength : (front.flatMap Prod.snd).length = i * dimension := by
      rw [length_flatMap_width fun x hx => hwidth x (List.mem_append_left _ hx), hfront]
    have hparts : b.components.toList =
        front.flatMap Prod.snd ++ r.2 ++ back.flatMap Prod.snd := by
      rw [h.components, hrows]
      simp
    have hold : r.2.length = point.length := by rw [fits, hwidth r (by simp)]
    have hwrite := toList_write hparts hold
    rw [hlength] at hwrite
    refine ⟨h.dimension_eq, h.capacity_eq, ?_, ?_, width_replacePoint h.width i fits⟩
    · rw [map_fst_replacePoint]
      exact h.labels
    · rw [replacePoint, hmodify]
      simpa using hwrite

end Block

end ExactNeighbors
