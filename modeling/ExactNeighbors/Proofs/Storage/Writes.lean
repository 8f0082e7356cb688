import ExactNeighbors.Proofs.Storage.Contents
import ExactNeighbors.Proofs.Storage.InPlace

set_option autoImplicit false

/-! # Writing to a store is writing to a list

A store takes two kinds of writes and carries them out in place. Here both are also carried out on a
plain list of rows, which has no blocks, no offsets and no capacity, and a store and a list that
started empty are shown to give the same answers, refusals included, and to read the same after any
sequence of writes (`store_refines_rows`). One write is the step (`Store.Holds.write`), the run is an
induction on the sequence. -/

namespace ExactNeighbors

/-! ## Writes -/

/-- A write that a store is asked for; neither the point nor the id need fit. -/
inductive Write where
  | append (point : Point) (label : Label)
  | overwrite (id : Nat) (point : Point)

/-- The id of a row that was added, nothing for one that was overwritten, or why it was refused. -/
abbrev Answer := Except Error (Option Nat)

/-- A write, as the changes that it makes. -/
def Write.inPlace : Write → Store.Change (Option Nat)
  | .append point label => do
    let id ← Store.appendInPlace point label
    pure (some id)
  | .overwrite id point => do
    Store.overwriteInPlace id point
    pure none

/-- A write to a store, in place. -/
def Store.write (s : Store) (w : Write) : Answer × Store := w.inPlace.on s

theorem Store.write_append (s : Store) (point : Point) (label : Label) :
    s.write (.append point label) =
      match s.append point label with
      | .ok (id, s') => (.ok (some id), s')
      | .error e => (.error e, s) := by
  rw [Store.write, Write.inPlace, Change.on_bind, appendInPlace_on]
  cases s.append point label <;> rfl

theorem Store.write_overwrite (s : Store) (id : Nat) (point : Point) :
    s.write (.overwrite id point) =
      match s.overwrite id point with
      | .ok s' => (.ok none, s')
      | .error e => (.error e, s) := by
  rw [Store.write, Write.inPlace, Change.on_bind, overwriteInPlace_on]
  cases s.overwrite id point <;> rfl

/-- A write that is refused leaves the store as it was. -/
theorem Store.write_of_error {s : Store} {w : Write} {e : Error} (h : (s.write w).1 = .error e) :
    (s.write w).2 = s := by
  cases w with
  | append point label =>
      rw [Store.write_append] at h ⊢
      split at h
      · cases h
      · rfl
  | overwrite id point =>
      rw [Store.write_overwrite] at h ⊢
      split at h
      · cases h
      · rfl

/-- A row that is added is pushed, if it is added at all. -/
theorem Store.write_append_eq (s : Store) (point : Point) (label : Label) :
    (s.write (.append point label)).2 = s.push point label ∨
      (s.write (.append point label)).2 = s := by
  rw [Store.write_append]
  split
  · next id s' h =>
      obtain ⟨-, -, h⟩ := bind_eq_ok.1 h
      cases h
      exact Or.inl rfl
  · exact Or.inr rfl

/-- What a row that is overwritten changes of the store are its blocks, at most. -/
theorem Store.write_overwrite_eq (s : Store) (id : Nat) (point : Point) :
    ∃ blocks, (s.write (.overwrite id point)).2 = { s with blocks := blocks } := by
  rw [Store.write_overwrite]
  split
  · next s' h =>
      obtain ⟨-, -, h⟩ := bind_eq_ok.1 h
      split at h
      · cases h
        exact ⟨_, rfl⟩
      · cases h
  · exact ⟨s.blocks, rfl⟩

/-- No write changes how many components a point has or how many rows a block may hold. -/
theorem Store.sizes_write (s : Store) (w : Write) :
    (s.write w).2.dimension = s.dimension ∧ (s.write w).2.blockSize = s.blockSize := by
  cases w with
  | append point label =>
      rcases s.write_append_eq point label with h | h
      · rw [h]
        exact ⟨rfl, rfl⟩
      · rw [h]
        exact ⟨rfl, rfl⟩
  | overwrite id point =>
      obtain ⟨blocks, h⟩ := s.write_overwrite_eq id point
      rw [h]
      exact ⟨rfl, rfl⟩

/-- A write to a list of rows of one dimension. -/
def writeRows (dimension : Nat) (rows : List Row) : Write → Answer × List Row
  | .append point label =>
    if point.length ≠ dimension then
      (.error (.dimensionMismatch dimension point.length), rows)
    else (.ok (some rows.length), rows ++ [(label, point)])
  | .overwrite id point =>
    if point.length ≠ dimension then
      (.error (.dimensionMismatch dimension point.length), rows)
    else if id < rows.length then (.ok none, replacePoint rows id point)
    else (.error (.invalidArgument (.unusedId id)), rows)

/-- The answers to some writes in turn, and where they lead. -/
def writeAll {σ : Type} (write : σ → Write → Answer × σ) : σ → List Write → List Answer × σ
  | state, [] => ([], state)
  | state, w :: ws =>
    let (answer, next) := write state w
    let (answers, last) := writeAll write next ws
    (answer :: answers, last)

/-! ## One write -/

/-- A write is answered as on the list of rows, and the store then holds what the list has become. -/
theorem Store.Holds.write {s : Store} {rows : List Row} (h : s.Holds rows) (w : Write) :
    (s.write w).1 = (writeRows s.dimension rows w).1 ∧
      (s.write w).2.Holds (writeRows s.dimension rows w).2 ∧
      (s.write w).2.dimension = s.dimension := by
  cases w with
  | append point label =>
      by_cases fits : point.length = s.dimension
      · rw [Store.write_append, h.append_eq_ok label fits, writeRows, if_neg (not_not_intro fits)]
        exact ⟨rfl, h.push label fits, rfl⟩
      · rw [Store.write_append, append_eq_error label fits, writeRows, if_pos fits]
        exact ⟨rfl, h, rfl⟩
  | overwrite id point =>
      by_cases fits : point.length = s.dimension
      · rw [Store.write_overwrite, writeRows, if_neg (not_not_intro fits)]
        by_cases hid : id < rows.length
        · obtain ⟨blocks, hok, hholds⟩ := h.overwrite_eq_ok hid fits
          rw [hok, if_pos hid]
          exact ⟨rfl, hholds, rfl⟩
        · rw [h.overwrite_eq_unused (Nat.not_lt.1 hid) fits, if_neg hid]
          exact ⟨rfl, h, rfl⟩
      · rw [Store.write_overwrite, overwrite_eq_error id fits, writeRows, if_pos fits]
        exact ⟨rfl, h, rfl⟩

/-! ## A run of writes -/

theorem Store.Holds.writes {s : Store} {rows : List Row} (h : s.Holds rows) (ws : List Write) :
    (writeAll Store.write s ws).1 = (writeAll (writeRows s.dimension) rows ws).1 ∧
      (writeAll Store.write s ws).2.Holds (writeAll (writeRows s.dimension) rows ws).2 := by
  induction ws generalizing s rows with
  | nil => exact ⟨rfl, h⟩
  | cons w ws ih =>
      obtain ⟨hanswer, hholds, hdimension⟩ := h.write w
      obtain ⟨hanswers, hlast⟩ := ih hholds
      rw [hdimension] at hanswers hlast
      exact ⟨congrArg₂ List.cons hanswer hanswers, hlast⟩

/-- The stores that writes lead to from a new one, whether or not they are refused. -/
inductive Store.Reachable : Store → Prop
  | created {dimension blockSize expected : Nat} {s : Store}
      (h : Store.create dimension blockSize expected = .ok s) : Reachable s
  | written {s : Store} (h : Reachable s) (w : Write) : Reachable (s.write w).2

theorem Store.Reachable.holds {s : Store} (h : s.Reachable) : ∃ rows, s.Holds rows := by
  induction h with
  | created h => exact ⟨[], (Store.holds_of_create h).1⟩
  | written h w ih =>
      obtain ⟨rows, hrows⟩ := ih
      exact ⟨_, (hrows.write w).2.1⟩

/-! ## All the ways of reading -/

/-- The rows in the order of their ids, with the ids. -/
def Store.numbered (s : Store) : List (Nat × Row) := s.toList.zipIdx.map fun (r, id) => (id, r)

/-- Every way of reading the store sees the rows: how many there are, each by its id, all with their
    ids, all as the blocks list them, and all as the blocks give them by position. -/
structure Store.Reads (s : Store) (rows : List Row) : Prop where
  count : s.count = rows.length
  label? : ∀ id : Nat, s.label? id = rows[id]?.map Prod.fst
  point? : ∀ id : Nat, s.point? id = rows[id]?.map Prod.snd
  numbered : s.numbered.length = rows.length ∧
    ∀ (id : Nat) (r : Row), rows[id]? = some r → s.numbered[id]? = some (id, r)
  blocks : s.blocks.toList.flatMap Block.toList = rows
  blockRows : (s.blocks.toList.flatMap fun b =>
      (List.range b.size).map fun i => (b.label? i, b.point? i)) =
    rows.map fun r => (some r.1, some r.2)
  beyond : ∀ b ∈ s.blocks, ∀ i, b.size ≤ i → b.label? i = none ∧ b.point? i = none

theorem Store.Holds.reads {s : Store} {rows : List Row} (h : s.Holds rows) : s.Reads rows where
  count := h.count
  label? := h.label?_eq
  point? := h.point?_eq
  numbered := by
    rw [Store.numbered, h.toList_eq]
    refine ⟨by simp, ?_⟩
    intro id r hr
    simp [hr]
  blocks := h.toList_eq
  blockRows := by
    have hblocks := h.flatMap_blocks fun (b : Block) (chunk : List Row) hb => hb.byPosition_eq
    rw [hblocks, ← List.map_flatMap, h.flatMap_chunks]
  beyond b hb i hi := by
    obtain ⟨j, hj, rfl⟩ := Array.mem_iff_getElem.1 hb
    have hholds := h.block j s.blocks[j] (Array.getElem?_eq_getElem hj)
    rw [hholds.size_eq] at hi
    rw [hholds.label?_eq, hholds.point?_eq, List.getElem?_eq_none hi]
    exact ⟨rfl, rfl⟩

/-- **A store is a list of rows.** A store that was created and a list that started empty give the
    same answers to every sequence of writes, whatever the writes, and the store then reads as the
    list. A further write that is refused leaves it as it is. -/
theorem store_refines_rows {dimension blockSize expected : Nat} {s₀ : Store}
    (created : Store.create dimension blockSize expected = .ok s₀) (ws : List Write) :
    let (answers, s) := writeAll Store.write s₀ ws
    let (answers', rows) := writeAll (writeRows dimension) [] ws
    answers = answers' ∧ s.Reads rows ∧
      ∀ w e, (s.write w).1 = .error e → (s.write w).2 = s := by
  obtain ⟨h, rfl, -⟩ := Store.holds_of_create created
  obtain ⟨hanswers, hholds⟩ := h.writes ws
  exact ⟨hanswers, hholds.reads, fun _ _ => Store.write_of_error⟩

/-- Two points across a block boundary, the first of them replaced, and two writes refused. -/
theorem store_refines_rows_mixed :
    let writes : List Write := [.append [Binary.zero false] 7, .append [Binary.one] 7,
      .overwrite 0 [Binary.one], .overwrite 2 [Binary.one], .append [] 9]
    ∃ s₀, Store.create 1 1 0 = .ok s₀ ∧
      (writeAll Store.write s₀ writes).1 =
        [.ok (some 0), .ok (some 1), .ok none, .error (.invalidArgument (.unusedId 2)),
          .error (.dimensionMismatch 1 0)] ∧
      (writeAll Store.write s₀ writes).2.Reads [(7, [Binary.one]), (7, [Binary.one])] := by
  intro writes
  obtain ⟨s₀, created⟩ : ∃ s₀, Store.create 1 1 0 = .ok s₀ := ⟨_, rfl⟩
  obtain ⟨hanswers, hreads, -⟩ := store_refines_rows created writes
  exact ⟨s₀, created, hanswers, hreads⟩

end ExactNeighbors
