import ExactNeighbors.Proofs.Storage.Block
import Mathlib.Algebra.Order.Ring.Nat

set_option autoImplicit false

/-! # What a new block reserves

A block may be meant for far more rows than will ever come, so it reserves room for a bounded number of
components and grows later. The bound is kept although the product that says how many there may be is of
two arbitrary words: it stops at the largest word instead of wrapping around, and the bound is below
that, so the exact product decides (`reservedComponents_eq`).

The labels are counted apart, by division. The two counts fit together: there is room for the components
of as many rows as there is room for labels (`reservedLabels_mul_le`), and for all rows of a block that
does not pass the bound (`reservedLabels_eq`). -/

namespace ExactNeighbors

namespace Block

variable {dimension capacity : Nat}

/-! ## How many components and labels -/

/-- That the product stops at the largest size does not show below the bound. -/
theorem reservedComponents_eq (dimension capacity : Nat) :
    reservedComponents dimension capacity = min (dimension * capacity) reservedComponentLimit := by
  have hlimit : reservedComponentLimit ≤ Size.limit := by decide
  rw [reservedComponents, Size.cappedMul, Nat.min_assoc, Nat.min_eq_right hlimit]

theorem reservedLabels_le_capacity (dimension capacity : Nat) :
    reservedLabels dimension capacity ≤ capacity :=
  Nat.min_le_left _ _

theorem reservedLabels_le_div (dimension capacity : Nat) :
    reservedLabels dimension capacity ≤ reservedComponentLimit / max dimension 1 :=
  Nat.min_le_right _ _

/-- The rows that there is room for labels of have room for their components. -/
theorem reservedLabels_mul_le (dimension capacity : Nat) :
    reservedLabels dimension capacity * dimension ≤ reservedComponents dimension capacity := by
  rw [reservedComponents_eq, Nat.le_min, Nat.mul_comm dimension]
  refine ⟨Nat.mul_le_mul_right _ (reservedLabels_le_capacity _ _), ?_⟩
  calc reservedLabels dimension capacity * dimension
      ≤ reservedComponentLimit / max dimension 1 * max dimension 1 :=
        Nat.mul_le_mul (reservedLabels_le_div _ _) (Nat.le_max_left _ _)
    _ ≤ reservedComponentLimit := Nat.div_mul_le_self _ _

/-- A block that does not pass the bound has room for the labels of all its rows. -/
theorem reservedLabels_eq (components : 1 ≤ dimension)
    (small : dimension * capacity ≤ reservedComponentLimit) :
    reservedLabels dimension capacity = capacity := by
  rw [reservedLabels, Nat.max_eq_left components]
  apply Nat.min_eq_left
  rwa [Nat.le_div_iff_mul_le components, Nat.mul_comm]

theorem reservedComponents_le (dimension capacity : Nat) :
    reservedComponents dimension capacity ≤ reservedComponentLimit :=
  Nat.min_le_right _ _

/-- Points without components do not make more labels than the bound either. -/
theorem reservedLabels_le (dimension capacity : Nat) :
    reservedLabels dimension capacity ≤ reservedComponentLimit :=
  Nat.le_trans (reservedLabels_le_div _ _) (Nat.div_le_self _ _)

/-- The components do not outgrow their room as long as the labels do not. -/
theorem Holds.size_components_le {b : Block} {rows : List Row}
    (h : b.Holds dimension capacity rows) (room : b.size ≤ reservedLabels dimension capacity) :
    b.components.size ≤ reservedComponents dimension capacity := by
  rw [h.size_components, ← h.size_eq]
  exact Nat.le_trans (Nat.mul_le_mul_right _ room) (reservedLabels_mul_le _ _)

theorem memoryUsage_empty (dimension capacity : Nat) :
    (empty dimension capacity).memoryUsage =
      reservedComponents dimension capacity * Size.component +
        reservedLabels dimension capacity * Size.label := rfl

/-- The bytes of a block are bounded whatever it is meant for. -/
theorem memoryUsage_le (b : Block) :
    b.memoryUsage ≤ reservedComponentLimit * (Size.component + Size.label) := by
  rw [memoryUsage, Nat.mul_add]
  exact Nat.add_le_add (Nat.mul_le_mul_right _ (reservedComponents_le _ _))
    (Nat.mul_le_mul_right _ (reservedLabels_le _ _))

end Block

/-! ## In words -/

/-- The product of two words, or the largest word if a machine's product overflows. -/
def Size.cappedMulInWords (a b : UInt64) : UInt64 :=
  if a.toBitVec.umulOverflow b.toBitVec then .ofNat Size.limit else a * b

theorem Size.toNat_cappedMulInWords (a b : UInt64) :
    (Size.cappedMulInWords a b).toNat = Size.cappedMul a.toNat b.toNat := by
  have hlimit : (UInt64.ofNat Size.limit).toNat = Size.limit := by decide
  have hoverflow : a.toBitVec.umulOverflow b.toBitVec = true ↔ Size.limit < a.toNat * b.toNat :=
    decide_eq_true_iff
  unfold Size.cappedMulInWords Size.cappedMul
  split
  · next h =>
      rw [hlimit, Nat.min_eq_right (Nat.le_of_lt (hoverflow.1 h))]
  · next h =>
      have hle : a.toNat * b.toNat ≤ Size.limit := Nat.not_lt.1 fun hlt => h (hoverflow.2 hlt)
      rw [UInt64.toNat_mul, Nat.min_eq_left hle]
      exact Nat.mod_eq_of_lt (Nat.lt_succ_of_le hle)

namespace Block

theorem toNat_reservedComponentLimit :
    (UInt64.ofNat reservedComponentLimit).toNat = reservedComponentLimit := by decide

/-- The room that is reserved, as a machine counts it. -/
structure Reservation where
  components : UInt64
  labels : UInt64

/-- The bytes of the room. -/
def Reservation.bytes (room : Reservation) : UInt64 :=
  room.components * .ofNat Size.component + room.labels * .ofNat Size.label

/-- The room that a new block reserves. -/
def reserve (dimension capacity : UInt64) : Reservation where
  components := min (Size.cappedMulInWords dimension capacity) (.ofNat reservedComponentLimit)
  labels := min capacity (.ofNat reservedComponentLimit / max dimension 1)

section Words

variable (dimension capacity : UInt64)

theorem toNat_reserve_components :
    (reserve dimension capacity).components.toNat =
      reservedComponents dimension.toNat capacity.toNat := by
  rw [reserve, UInt64.toNat_min, Size.toNat_cappedMulInWords, toNat_reservedComponentLimit]
  rfl

theorem toNat_reserve_labels :
    (reserve dimension capacity).labels.toNat =
      reservedLabels dimension.toNat capacity.toNat := by
  rw [reserve, UInt64.toNat_min, UInt64.toNat_div, UInt64.toNat_max,
    toNat_reservedComponentLimit]
  rfl

/-- Neither the products nor the sum wrap around, as they stay far below the largest word. -/
theorem toNat_bytes_reserve :
    (reserve dimension capacity).bytes.toNat =
      (empty dimension.toNat capacity.toNat).memoryUsage := by
  have hcomponent : (UInt64.ofNat Size.component).toNat = Size.component := by decide
  have hlabel : (UInt64.ofNat Size.label).toNat = Size.label := by decide
  have hlimit : reservedComponentLimit * (Size.component + Size.label) < 2 ^ 64 := by decide
  have hsum := Nat.lt_of_le_of_lt (memoryUsage_le (empty dimension.toNat capacity.toNat)) hlimit
  rw [memoryUsage_empty] at hsum ⊢
  rw [Reservation.bytes, UInt64.toNat_add, UInt64.toNat_mul, UInt64.toNat_mul, hcomponent, hlabel,
    toNat_reserve_components, toNat_reserve_labels,
    Nat.mod_eq_of_lt (Nat.lt_of_le_of_lt (Nat.le_add_right _ _) hsum),
    Nat.mod_eq_of_lt (Nat.lt_of_le_of_lt (Nat.le_add_left _ _) hsum), Nat.mod_eq_of_lt hsum]

end Words

/-! ## The reservation -/

/-- **What a new block reserves is bounded and consistent.** For all words:

* a machine counts what a block is said to reserve, and its bytes, without wrapping around;
* there is room for the exact number of components of a full block, but for `2 ^ 20` at most;
* there are no more labels than rows, and there is room for the components of all of them;
* the bytes are bounded, whatever the words;
* where a full block does not pass the bound, there is room for all its components and labels;
* no block outgrows the room for its components while its rows have room for their labels. -/
theorem reservation_bounded (dimension capacity : UInt64) :
    let room : Reservation := reserve dimension capacity
    let d := dimension.toNat
    let c := capacity.toNat
    let components := room.components.toNat
    let labels := room.labels.toNat
    (components = reservedComponents d c ∧ labels = reservedLabels d c ∧
      room.bytes.toNat = (empty d c).memoryUsage) ∧
    components = min (d * c) (2 ^ 20) ∧
    (labels ≤ c ∧ labels * d ≤ components) ∧
    (room.bytes.toNat = 4 * components + 8 * labels ∧
      4 * components + 8 * labels ≤ 12 * 2 ^ 20) ∧
    (1 ≤ d → d * c ≤ 2 ^ 20 → labels = c ∧ components = d * c) ∧
    ∀ (b : Block) (rows : List Row), b.Holds d c rows → b.size ≤ labels →
      b.components.size ≤ components := by
  intro room d c components labels
  have hcomponents : components = reservedComponents d c := toNat_reserve_components _ _
  have hlabels : labels = reservedLabels d c := toNat_reserve_labels _ _
  have hbytes : room.bytes.toNat = (empty d c).memoryUsage := toNat_bytes_reserve _ _
  have hlimit : reservedComponentLimit = 2 ^ 20 := by decide
  have husage : (empty d c).memoryUsage = 4 * components + 8 * labels := by
    rw [memoryUsage_empty, ← hcomponents, ← hlabels, Nat.mul_comm 4, Nat.mul_comm 8]
    rfl
  have hexact : components = min (d * c) (2 ^ 20) := by
    rw [hcomponents, reservedComponents_eq, hlimit]
  refine ⟨⟨hcomponents, hlabels, hbytes⟩, hexact, ⟨?_, ?_⟩, ⟨hbytes.trans husage, ?_⟩,
    fun hd small => ⟨?_, ?_⟩, fun b rows h hroom => ?_⟩
  · rw [hlabels]
    exact reservedLabels_le_capacity d c
  · rw [hlabels, hcomponents]
    exact reservedLabels_mul_le d c
  · rw [← husage]
    exact memoryUsage_le (empty d c)
  · rw [hlabels]
    exact reservedLabels_eq hd small
  · rw [hexact]
    exact Nat.min_eq_left small
  · rw [hcomponents]
    rw [hlabels] at hroom
    exact h.size_components_le hroom

/-- A block that is as large as the bound has room for all its rows, and with one row it stays in its
    room. Where a machine's product is zero, the exact one takes all the room there is. A block that is a
    little larger than the bound has room for the labels of all rows but the last. -/
theorem reservation_bounded_at_limit :
    let room := reserve 2 524288
    let b := (empty 2 524288).push 7 [.zero false, .zero true]
    (room.labels.toNat = 524288 ∧ room.components.toNat = 2 * 524288) ∧
      b.components.size ≤ room.components.toNat ∧
      (4294967296 * 4294967296 : UInt64) = 0 ∧
      (reserve 4294967296 4294967296).components.toNat = 2 ^ 20 ∧
      (reserve 3 349526).labels.toNat = 349525 := by
  intro room b
  obtain ⟨-, -, -, -, hsmall, hgrow⟩ := reservation_bounded 2 524288
  obtain ⟨-, hlarge, -⟩ := reservation_bounded 4294967296 4294967296
  have hb : b.Holds 2 524288 [(7, [.zero false, .zero true])] := (holds_empty 2 524288).push 7 rfl
  obtain ⟨hlabels, hcomponents⟩ := hsmall (by decide) (by decide)
  refine ⟨⟨hlabels, hcomponents⟩, hgrow b _ hb ?_, by decide, hlarge.trans (by decide), by decide⟩
  rw [hlabels]
  decide

end Block

end ExactNeighbors
