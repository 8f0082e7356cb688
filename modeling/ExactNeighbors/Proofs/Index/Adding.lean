import ExactNeighbors.Proofs.Index.History
import ExactNeighbors.Proofs.Storage.InPlace

set_option autoImplicit false

/-! # Adding is atomic

A store in memory is changed in place (`Store.Change`), and so is the store of an index when a point
is added. Every error comes before the first write, so what is written in place is the store that
`Index.add` calculates, or nothing (`Index.addInPlace_on`).

Which errors there are is decided by the point alone, for every index that can be reached
(`Index.add_atomic`): its length comes first, then its components. The errors of the store itself
cannot be met. The dimension of the store is that of the settings and preparing a point keeps its
length; and an id that is known for a label is one of a row. -/

namespace ExactNeighbors

namespace Index

open Store.Change

/-- Stores a point under a label, in place. -/
def addInPlace (machine : Machine) (settings : Settings) (point : Point) (label : Label) :
    Store.Change Unit := do
  point.check settings.dimension.toNat
  let prepared := settings.metric.prepare point
  match replacedId? ⟨settings, ← get, machine⟩ label with
  | some id => Store.overwriteInPlace id prepared
  | none =>
    let _ ← Store.appendInPlace prepared label

/-- Writing in place and calculating a new store come to the same. Where there is an error, nothing
    was written. -/
theorem addInPlace_on (i : Index) (machine : Machine) (point : Point) (label : Label) :
    (addInPlace machine i.settings point label).on i.store =
      match i.add point label with
      | .ok i' => (.ok (), i'.store)
      | .error e => (.error e, i.store) := by
  rw [addInPlace]
  cases hcheck : point.check i.settings.dimension.toNat with
  | error e => rw [add_eq_error hcheck, on_bind, on_liftM]
  | ok _ =>
      have hreplaced : replacedId? ⟨i.settings, i.store, machine⟩ label = i.replacedId? label := rfl
      simp only [on_bind, on_liftM, on_get, hreplaced]
      cases hid : i.replacedId? label with
      | none =>
          rw [add_of_replacedId?_none hcheck hid, on_bind, Store.appendInPlace_on]
          cases i.store.append (i.settings.metric.prepare point) label <;> rfl
      | some id =>
          rw [add_of_replacedId?_some hcheck hid, Store.overwriteInPlace_on]
          cases i.store.overwrite id (i.settings.metric.prepare point) <;> rfl

end Index

/-! ## Which points are refused -/

theorem Point.isFinite_iff {a : Point} :
    a.isFinite = true ↔ ∀ x ∈ a, x.isNaN = false ∧ x.isInfinite = false := by
  have hfinite (x : Single) : x.isFinite = true ↔ x.isNaN = false ∧ x.isInfinite = false := by
    simp only [Binary.isFinite, Binary.isNaN, Binary.isInfinite, decide_eq_true_eq,
      decide_eq_false_iff_not]
    omega
  rw [isFinite, List.all_eq_true]
  simp only [hfinite]

/-- The length is looked at first. -/
theorem Point.check_eq_error_iff {a : Point} {dimension : Nat} {e : Error} :
    a.check dimension = .error e ↔
      a.length ≠ dimension ∧ e = .dimensionMismatch dimension a.length ∨
      a.length = dimension ∧ ¬ a.isFinite = true ∧ e = .invalidArgument .notFinite := by
  unfold check checkDimension
  by_cases hlength : a.length = dimension
  · by_cases hfinite : a.isFinite = true
    · simp [hlength, hfinite, bind, Except.bind]
    · simp [hlength, hfinite, bind, Except.bind, @eq_comm _ e]
  · simp [hlength, bind, Except.bind, @eq_comm _ e]

namespace Index

variable {i : Index} {added : List Row} {point : Point} {label : Label}

theorem Holds.add_eq_error_iff (h : i.Holds added) {e : Error} :
    i.add point label = .error e ↔ point.check i.settings.dimension.toNat = .error e := by
  rcases h.add point label with ⟨e', hcheck, hadd⟩ | ⟨hcheck, store, hadd, -⟩
  · rw [hcheck, hadd, Except.error.injEq, Except.error.injEq]
  · rw [hcheck, hadd]
    exact ⟨nofun, nofun⟩

theorem Holds.exists_add_eq_ok_iff (h : i.Holds added) :
    (∃ i', i.add point label = .ok i') ↔ point.check i.settings.dimension.toNat = .ok () := by
  rcases h.add point label with ⟨e, hcheck, hadd⟩ | ⟨hcheck, store, hadd, -⟩
  · rw [hcheck, hadd]
    exact ⟨nofun, nofun⟩
  · rw [hcheck, hadd]
    exact ⟨fun _ => rfl, fun _ => ⟨_, rfl⟩⟩

/-- The store takes any prepared point of the dimension, wherever it goes. -/
theorem Holds.writes_ok (h : i.Holds added) (fits : point.length = i.settings.dimension.toNat) :
    let prepared := i.settings.metric.prepare point
    (∃ answer, i.store.append prepared label = .ok answer) ∧
      ∀ id, i.replacedId? label = some id → ∃ store, i.store.overwrite id prepared = .ok store := by
  obtain ⟨hdimension, rows, hrows, -⟩ := h
  have hfits := length_prepare_eq hdimension fits
  refine ⟨⟨_, hrows.append_eq_ok label hfits⟩, fun id hid => ?_⟩
  obtain ⟨blocks, hok, -⟩ := overwrite_replacedId? hrows hid hfits
  exact ⟨_, hok⟩

/-- **Adding is atomic, and fails for the point alone.** After any calls, a point of another dimension
    is refused for it, whatever its components; a point of the dimension is refused if a component is
    no finite number; any other point is added. In either mode the store takes any prepared point of
    the dimension, at the end and in place of the one that gives way, so none of its errors is met.
    Where there is an error, the writes carried out in place have left the store as it was. -/
theorem add_atomic {machine : Machine} {settings : Settings} {i₀ : Index}
    (created : create machine settings = .ok i₀) (calls : List Row) (point : Point) (label : Label) :
    let i := i₀.run calls
    let dimension := settings.dimension.toNat
    let prepared := settings.metric.prepare point
    (∀ expected actual, i.add point label = .error (.dimensionMismatch expected actual) ↔
      point.length ≠ dimension ∧ expected = dimension ∧ actual = point.length) ∧
    (∀ fault, i.add point label = .error (.invalidArgument fault) ↔
      point.length = dimension ∧ (∃ x ∈ point, x.isNaN = true ∨ x.isInfinite = true) ∧
        fault = .notFinite) ∧
    ((∃ i', i.add point label = .ok i') ↔
      point.length = dimension ∧ ∀ x ∈ point, x.isNaN = false ∧ x.isInfinite = false) ∧
    (point.length = dimension →
      (∃ answer, i.store.append prepared label = .ok answer) ∧
      ∀ id, i.replacedId? label = some id → ∃ store, i.store.overwrite id prepared = .ok store) ∧
    (addInPlace machine settings point label).on i.store =
      match i.add point label with
      | .ok i' => (.ok (), i'.store)
      | .error e => (.error e, i.store) := by
  intro i dimension prepared
  obtain ⟨rfl, hholds⟩ := holds_run created calls
  have himproper : ¬ point.isFinite = true ↔
      ∃ x ∈ point, x.isNaN = true ∨ x.isInfinite = true := by
    rw [Point.isFinite_iff]
    simp [or_iff_not_imp_left]
  refine ⟨fun expected actual => ?_, fun fault => ?_, ?_, hholds.writes_ok,
    addInPlace_on i machine point label⟩
  · rw [hholds.add_eq_error_iff, Point.check_eq_error_iff]
    simp [dimension]
  · rw [hholds.add_eq_error_iff, Point.check_eq_error_iff, himproper]
    simp [dimension]
  · rw [hholds.exists_add_eq_ok_iff, Point.check_eq_ok_iff, Point.isFinite_iff]

/-- A label that stands already, under the cosine metric: another point takes the place of its point,
    while one that is too long, or of the right length and no number, is refused. -/
theorem add_atomic_readded :
    ∃ i₀, create .small { dimension := 1, metric := .cosine } = .ok i₀ ∧
      let i := i₀.run [(7, [Binary.one])]
      i.replacedId? 7 = some 0 ∧
      (∃ store, i.store.overwrite 0 (Metric.cosine.prepare [-Binary.one]) = .ok store) ∧
      (∃ i', i.add [-Binary.one] 7 = .ok i') ∧
      i.add [Binary.notANumber, .one] 7 = .error (.dimensionMismatch 1 2) ∧
      i.add [Binary.notANumber] 7 = .error (.invalidArgument .notFinite) ∧
      (addInPlace .small { dimension := 1, metric := .cosine } [Binary.notANumber] 7).on i.store =
        (.error (.invalidArgument .notFinite), i.store) := by
  obtain ⟨i₀, created⟩ : ∃ i₀, create .small { dimension := 1, metric := .cosine } = .ok i₀ :=
    ⟨_, rfl⟩
  obtain ⟨-, -, hok, hwrites, -⟩ :=
    add_atomic created [(7, [Binary.one])] [-Binary.one] 7
  obtain ⟨hmismatch, -⟩ :=
    add_atomic created [(7, [Binary.one])] [Binary.notANumber, Binary.one] 7
  obtain ⟨-, hinvalid, -, -, hplace⟩ :=
    add_atomic created [(7, [Binary.one])] [Binary.notANumber] 7
  have hid : (i₀.run [(7, [Binary.one])]).replacedId? 7 = some 0 := by
    cases created
    decide +kernel
  have hrefused := (hinvalid .notFinite).2 ⟨rfl, by decide, rfl⟩
  rw [hrefused] at hplace
  exact ⟨i₀, created, hid, (hwrites rfl).2 0 hid, hok.2 ⟨rfl, by decide⟩,
    (hmismatch 1 2).2 ⟨by decide, rfl, rfl⟩, hrefused, hplace⟩

end Index

end ExactNeighbors
