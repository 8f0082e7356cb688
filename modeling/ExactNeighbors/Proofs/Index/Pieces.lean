import ExactNeighbors.Proofs.Index.Scan
import ExactNeighbors.Proofs.Storage.Writes

set_option autoImplicit false

/-! # Scans in pieces

Where pieces of a store are scanned at the same time, nobody says in advance how it is cut: the blocks
may be cut anywhere, the rows of each block anywhere again, and one block otherwise than the next. A
block that is cut has its labels and its components cut apart, and each piece pairs up what it was
given; a pairing stops without notice where one side is short. Here a scan in pieces is therefore a
relation (`Store.Scanned`), and on a store that can be reached exactly one outcome is in it, that of
the walk from end to end (`scans_agree`).

What makes it so is that the labels and the components of a block hold the same rows
(`Block.Holds`), and go on to do so in both pieces wherever a block is cut (`Block.Holds.front`,
`Block.Holds.back`). -/

namespace ExactNeighbors

namespace Block

/-! ## Pieces of a block -/

/-- How many components a row takes. -/
def width (b : Block) : Nat := max b.dimension 1

/-- The first `n` rows, the labels and the components cut each for themselves. -/
def front (b : Block) (n : Nat) : Block :=
  { b with
    labels := (b.labels.toList.take n).toArray
    components := (b.components.toList.take (n * b.width)).toArray }

/-- The rows from `n` on. -/
def back (b : Block) (n : Nat) : Block :=
  { b with
    labels := (b.labels.toList.drop n).toArray
    components := (b.components.toList.drop (n * b.width)).toArray }

/-- What may come of measuring the rows of a block. It is walked, or it is cut and either piece is
    measured in any way. -/
inductive Measured (measure : Row → Neighbor) : Block → List Neighbor → Prop
  | walked (b : Block) : Measured measure b (b.toList.map measure)
  | cut (b : Block) (n : Nat) {ns ms : List Neighbor} (front : Measured measure (b.front n) ns)
      (back : Measured measure (b.back n) ms) : Measured measure b (ns ++ ms)

variable {b : Block} {dimension capacity : Nat} {rows : List Row}

theorem Holds.width_eq (h : b.Holds dimension capacity rows) (hpos : 0 < dimension) :
    b.width = dimension := by
  rw [Block.width, h.dimension_eq, Nat.max_eq_left hpos]

theorem Holds.front (h : b.Holds dimension capacity rows) (hpos : 0 < dimension) (n : Nat) :
    (b.front n).Holds dimension capacity (rows.take n) where
  dimension_eq := h.dimension_eq
  capacity_eq := h.capacity_eq
  labels := by
    rw [Block.front, h.labels, List.map_take]
  components := by
    rw [Block.front, h.components, h.width_eq hpos, take_flatMap_width h.width]
  width r hr := h.width r (List.mem_of_mem_take hr)

theorem Holds.back (h : b.Holds dimension capacity rows) (hpos : 0 < dimension) (n : Nat) :
    (b.back n).Holds dimension capacity (rows.drop n) where
  dimension_eq := h.dimension_eq
  capacity_eq := h.capacity_eq
  labels := by
    rw [Block.back, h.labels, List.map_drop]
  components := by
    rw [Block.back, h.components, h.width_eq hpos, drop_flatMap_width h.width]
  width r hr := h.width r (List.mem_of_mem_drop hr)

/-- However a block is cut, all its rows are measured, in their order. -/
theorem Holds.measured_eq {measure : Row → Neighbor} {ns : List Neighbor}
    (h : b.Holds dimension capacity rows) (hpos : 0 < dimension) (m : Measured measure b ns) :
    ns = rows.map measure := by
  induction m generalizing rows with
  | walked b => rw [h.toList_eq hpos]
  | cut b n _ _ ihFront ihBack =>
      rw [ihFront (h.front hpos n), ihBack (h.back hpos n), ← List.map_append,
        List.take_append_drop]

end Block

namespace Store

/-! ## Pieces of a store -/

/-- What may come of scanning some blocks. They are cut into pieces, down to single blocks if at all,
    and what comes of the pieces is put together in their order. -/
inductive Scanned (measure : Row → Neighbor) : List Block → List Neighbor → Prop
  | none : Scanned measure [] []
  | block {b : Block} {ns : List Neighbor} (h : b.Measured measure ns) : Scanned measure [b] ns
  | together {bs cs : List Block} {ns ms : List Neighbor} (first : Scanned measure bs ns)
      (others : Scanned measure cs ms) : Scanned measure (bs ++ cs) (ns ++ ms)

/-- Walking every block is one way of scanning. -/
theorem scanned_walk (measure : Row → Neighbor) (bs : List Block) :
    Scanned measure bs (bs.flatMap fun b => b.toList.map measure) := by
  induction bs with
  | nil => exact .none
  | cons b bs ih =>
      rw [List.flatMap_cons]
      exact .together (.block (.walked b)) ih

/-- Every other way comes to the same if the blocks hold rows. -/
theorem Scanned.eq_walk {measure : Row → Neighbor} {bs : List Block} {ns : List Neighbor}
    {dimension capacity : Nat} (h : Scanned measure bs ns) (hpos : 0 < dimension)
    (holds : ∀ b ∈ bs, ∃ rows, b.Holds dimension capacity rows) :
    ns = bs.flatMap fun b => b.toList.map measure := by
  induction h with
  | none => rfl
  | block hmeasured =>
      obtain ⟨rows, hrows⟩ := holds _ (List.mem_singleton_self _)
      rw [List.flatMap_singleton, hrows.toList_eq hpos]
      exact hrows.measured_eq hpos hmeasured
  | together _ _ ihFirst ihOthers =>
      rw [List.flatMap_append, ← ihFirst fun b hb => holds b (List.mem_append_left _ hb),
        ← ihOthers fun b hb => holds b (List.mem_append_right _ hb)]

variable {s : Store} {rows : List Row} {distance : Point → Point → Single} {query : Point}

theorem Holds.scanned_iff (h : s.Holds rows) {ns : List Neighbor} :
    Scanned (neighbor distance query) s.blocks.toList ns ↔ ns = s.scan distance query := by
  constructor
  · intro hscanned
    have hblocks (b : Block) (hb : b ∈ s.blocks.toList) :
        ∃ rows, b.Holds s.dimension s.blockSize rows := by
      obtain ⟨j, hj⟩ := List.mem_iff_getElem?.1 hb
      rw [Array.getElem?_toList] at hj
      exact ⟨_, h.block j b hj⟩
    exact hscanned.eq_walk h.dimension_pos hblocks
  · rintro rfl
    exact scanned_walk _ _

/-- Every id has its entry, and there are no others. -/
theorem Holds.scan_by_id (h : s.Holds rows) :
    (s.scan distance query).length = s.count ∧
      ∀ id, id < s.count → ∃ label point, s.label? id = some label ∧ s.point? id = some point ∧
        (s.scan distance query)[id]? = some ⟨label, distance query point⟩ := by
  rw [h.scan_eq, h.count, List.length_map]
  refine ⟨rfl, fun id hid => ⟨rows[id].1, rows[id].2, ?_, ?_, ?_⟩⟩
  · rw [h.label?_eq, List.getElem?_eq_getElem hid, Option.map_some]
  · rw [h.point?_eq, List.getElem?_eq_getElem hid, Option.map_some]
  · rw [List.getElem?_map, List.getElem?_eq_getElem hid, Option.map_some]
    rfl

end Store

namespace Index

/-! ## Answers from a scan -/

/-- The candidates, if these are the distances of all stored points. -/
def candidatesOf (i : Index) (distances : List Neighbor) : List Neighbor :=
  match i.settings.mode with
  | .single => distances
  | .multi => i.machine.tables.listing (PerLabel.ofList distances i.store.labelCount)

/-- The questions that take candidates are answered as if the scan had been this one. -/
structure AnswersFrom (i : Index) (scan : Point → List Neighbor) : Prop where
  nearest : ∀ query k, i.nearest query k = do
    let count ← Count.ofNat k
    let query ← i.prepare query
    .ok (count.select (i.candidatesOf (scan query)))
  within : ∀ query radius, i.within query radius = do
    let radius ← Radius.ofSingle radius
    let query ← i.prepare query
    .ok (radius.select (i.candidatesOf (scan query)))
  batches : ∀ query, i.batches query = do
    let query ← i.prepare query
    .ok (.ofNeighbors query (i.candidatesOf (scan query)))

theorem AnswersFrom.of_distances {i : Index} {scan : Point → List Neighbor}
    (same : ∀ query, i.distances query = scan query) : i.AnswersFrom scan := by
  have hcandidates (query : Point) : i.candidates query = i.candidatesOf (scan query) := by
    rw [← same]
    rfl
  constructor
  · intro query k
    simp only [Index.nearest, hcandidates]
  · intro query radius
    simp only [Index.within, hcandidates]
  · intro query
    simp only [Index.batches, hcandidates]

end Index

/-- **Cutting a scan does not show.** Of a store that can be reached, every way of scanning it in
    pieces has the outcome of the walk from end to end, and so have the scans that cut blocks and rows
    by halves or otherwise. There is one entry for every id, the label with its distance. An index
    over the store answers as if it had walked it, and as if it had cut it in any way, on whichever
    side of the threshold the store is. -/
theorem scans_agree {s : Store} (reachable : s.Reachable) :
    (∀ (distance : Point → Point → Single) (query : Point),
      (∀ ns, Store.Scanned (Store.neighbor distance query) s.blocks.toList ns ↔
        ns = s.scan distance query) ∧
      (∀ blocks rows, s.scanInPieces blocks rows distance query = s.scan distance query) ∧
      (s.scan distance query).length = s.count ∧
      ∀ id, id < s.count → ∃ label point, s.label? id = some label ∧ s.point? id = some point ∧
        (s.scan distance query)[id]? = some ⟨label, distance query point⟩) ∧
    ∀ i : Index, i.store = s →
      i.AnswersFrom (s.scan i.settings.metric.kernel) ∧
      ∀ blocks rows, i.AnswersFrom (s.scanInPieces blocks rows i.settings.metric.kernel) := by
  obtain ⟨rows, hrows⟩ := reachable.holds
  refine ⟨fun distance query => ⟨fun ns => hrows.scanned_iff,
    fun blocks rows => s.scanInPieces_eq_scan blocks rows distance query, hrows.scan_by_id⟩, ?_⟩
  rintro i rfl
  have hdistances (query : Point) :
      i.distances query = i.store.scan i.settings.metric.kernel query := by
    rw [Index.distances_eq hrows, hrows.scan_eq]
  refine ⟨.of_distances hdistances, fun blocks rows => .of_distances fun query => ?_⟩
  rw [hdistances, Store.scanInPieces_eq_scan]

/-- Three rows in two blocks, one of them overwritten, each block cut after its first row. -/
theorem scans_agree_two_blocks :
    ∃ s : Store, s.Reachable ∧ s.blocks.size = 2 ∧ s.count = 3 ∧
      s.scanInPieces (.pieces 1 .whole .whole) (fun _ => .pieces 1 .whole .whole)
          (Metric.kernel .l2) [.one] =
        [⟨7, .zero false⟩, ⟨9, .one⟩, ⟨7, .zero false⟩] ∧
      (∃ label point, s.label? 1 = some label ∧ s.point? 1 = some point) ∧
      ∀ i : Index, i.store = s → i.AnswersFrom (s.scan i.settings.metric.kernel) := by
  obtain ⟨s₀, created⟩ : ∃ s₀, Store.create 1 2 0 = .ok s₀ := ⟨_, rfl⟩
  have hreach := Store.Reachable.created created
  have hlast := (((hreach.written (.append [Binary.zero false] 7)).written
    (.append [Binary.zero false] 9)).written (.append [Binary.one] 7)).written
      (.overwrite 0 [Binary.one])
  obtain ⟨hscan, hindex⟩ := scans_agree hlast
  obtain ⟨-, hpieces, -, hid⟩ := hscan (Metric.kernel .l2) [.one]
  obtain ⟨label, point, hlabel, hpoint, -⟩ := hid 1 (by cases created; decide +kernel)
  refine ⟨_, hlast, ?_, ?_, ?_, ⟨label, point, hlabel, hpoint⟩, fun i hi => (hindex i hi).1⟩
  · cases created
    decide +kernel
  · cases created
    decide +kernel
  · rw [hpieces]
    cases created
    decide +kernel

end ExactNeighbors
