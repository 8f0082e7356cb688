import ExactNeighbors.Index.Basic
import ExactNeighbors.Proofs.Storage.Contents
import Mathlib.Data.List.Induction

set_option autoImplicit false

/-! # What an index keeps of what was added

An index either appends a point or replaces one where it lies, and refuses what does not fit. On the
rows of its store that is `LabelMode.addRow` (`Index.add_eq_ok`), and over a history it comes down to
one statement about the calls that succeeded (`Index.Holds`): under every label the store has,
prepared and in order, the points added under it, all of them if labels may be shared and otherwise
the last. A call that succeeds extends the history, one that fails leaves both the history and the
index alone (`Index.Holds.add`), and a run is an induction on its calls.

Where rows lie and which ids they have is forgotten here. -/

namespace ExactNeighbors

/-! ## The points of a label -/

/-- The points that some rows have under a label, in their order. -/
def pointsOf (l : Label) (rows : List Row) : List Point :=
  (rows.filter (·.1 = l)).map Prod.snd

theorem pointsOf_append (l : Label) (xs ys : List Row) :
    pointsOf l (xs ++ ys) = pointsOf l xs ++ pointsOf l ys := by
  rw [pointsOf, List.filter_append, List.map_append]
  rfl

theorem pointsOf_cons (l : Label) (r : Row) (rows : List Row) :
    pointsOf l (r :: rows) = if r.1 = l then r.2 :: pointsOf l rows else pointsOf l rows := by
  by_cases hl : r.1 = l <;> simp [pointsOf, hl]

theorem pointsOf_singleton (l : Label) (r : Row) :
    pointsOf l [r] = if r.1 = l then [r.2] else [] :=
  pointsOf_cons l r []

/-- A label stands as often as it has points. -/
theorem count_map_fst (l : Label) (rows : List Row) :
    (rows.map Prod.fst).count l = (pointsOf l rows).length := by
  rw [pointsOf, List.length_map, List.count_eq_countP, List.countP_map,
    List.countP_eq_length_filter]
  rfl

/-- The ids of a label lead to its points. -/
theorem filterMap_positions (l : Label) (rows : List Row) :
    ((Store.positions l rows).filterMap fun id => rows[id]?.map Prod.snd) = pointsOf l rows := by
  induction rows using List.reverseRecOn with
  | nil => rfl
  | append_singleton rows r ih =>
      -- the ids known before lead to the same points as before
      have hold : ((Store.positions l rows).filterMap fun id => (rows ++ [r])[id]?.map Prod.snd) =
          pointsOf l rows := by
        rw [← ih]
        apply List.filterMap_congr
        intro id hid
        obtain ⟨old, hsome, -⟩ := Option.map_eq_some_iff.1 (Store.mem_positions.1 hid)
        have hlt := (List.getElem?_eq_some_iff.1 hsome).1
        rw [List.getElem?_append_left hlt]
      rw [Store.positions_append_singleton, pointsOf_append, pointsOf_singleton]
      split
      · simp [hold]
      · simp [hold]

theorem positions_eq_nil_iff {l : Label} {rows : List Row} :
    Store.positions l rows = [] ↔ pointsOf l rows = [] := by
  constructor
  · intro hnone
    rw [← filterMap_positions, hnone, List.filterMap_nil]
  · intro hnone
    apply List.eq_nil_iff_forall_not_mem.2
    intro id hid
    obtain ⟨r, hsome, hl⟩ := Option.map_eq_some_iff.1 (Store.mem_positions.1 hid)
    have hmem : r.2 ∈ pointsOf l rows :=
      List.mem_map_of_mem (List.mem_filter.2 ⟨List.mem_of_getElem? hsome, by simp [hl]⟩)
    rw [hnone] at hmem
    cases hmem

theorem pointsOf_ne_nil_iff {l : Label} {rows : List Row} :
    pointsOf l rows ≠ [] ↔ l ∈ rows.map Prod.fst := by
  rw [Ne, ← positions_eq_nil_iff, ← Store.positions_ne_nil_iff]

/-- Replacing a point changes no other label, and is all there is of a label that stood once. -/
theorem pointsOf_replacePoint {label : Label} {rows : List Row} {id : Nat}
    (hid : id ∈ Store.positions label rows) (once : (pointsOf label rows).length ≤ 1)
    (point : Point) (l : Label) :
    pointsOf l (replacePoint rows id point) =
      if label = l then [point] else pointsOf l rows := by
  obtain ⟨old, hsome, rfl⟩ := Option.map_eq_some_iff.1 (Store.mem_positions.1 hid)
  have hlt := (List.getElem?_eq_some_iff.1 hsome).1
  obtain ⟨before, r, after, rfl, rfl, hmodify⟩ :=
    List.exists_of_modify (fun r : Row => (r.1, point)) hlt
  have hold : r = old := by simpa using hsome
  subst hold
  rw [pointsOf_append, pointsOf_cons, if_pos rfl, List.length_append, List.length_cons] at once
  rw [replacePoint, hmodify, pointsOf_append, pointsOf_append, pointsOf_cons, pointsOf_cons]
  split
  · next hl =>
      subst hl
      have hbefore : pointsOf r.1 before = [] := List.length_eq_zero_iff.1 (by omega)
      have hafter : pointsOf r.1 after = [] := List.length_eq_zero_iff.1 (by omega)
      rw [hbefore, hafter, List.nil_append]
  · rfl

namespace LabelMode

/-- Which of the points added under one label are kept: all of them, or the last. -/
def kept : LabelMode → List Point → List Point
  | .single, added => added.getLast?.toList
  | .multi, added => added

theorem kept_eq_nil_iff {m : LabelMode} {added : List Point} : m.kept added = [] ↔ added = [] := by
  cases m <;> simp [kept]

theorem mem_of_mem_kept {m : LabelMode} {added : List Point} {p : Point} (h : p ∈ m.kept added) :
    p ∈ added := by
  cases m with
  | single => exact List.mem_of_mem_getLast? (Option.mem_toList.1 h)
  | multi => exact h

theorem length_kept_single (added : List Point) : (single.kept added).length ≤ 1 := by
  rw [kept]
  cases added.getLast? <;> simp

/-- The row that gives way to a point added under a label: the first of the label, unless labels may
    be shared. -/
def replaced? : LabelMode → Label → List Row → Option Nat
  | .single, l, rows => (Store.positions l rows).head?
  | .multi, _, _ => none

/-- The rows once one more was added: in the place of one that gives way, or at the end. -/
def addRow (m : LabelMode) (rows : List Row) (r : Row) : List Row :=
  match m.replaced? r.1 rows with
  | some id => replacePoint rows id r.2
  | none => rows ++ [r]

theorem replaced?_eq_some {m : LabelMode} {l : Label} {rows : List Row} {id : Nat}
    (h : m.replaced? l rows = some id) : m = .single ∧ id ∈ Store.positions l rows := by
  cases m with
  | single => exact ⟨rfl, List.mem_of_mem_head? h⟩
  | multi => cases h

theorem replaced?_lt {m : LabelMode} {l : Label} {rows : List Row} {id : Nat}
    (h : m.replaced? l rows = some id) : id < rows.length := by
  have hid := (replaced?_eq_some h).2
  obtain ⟨r, hr, -⟩ := Option.map_eq_some_iff.1 (Store.mem_positions.1 hid)
  exact (List.getElem?_eq_some_iff.1 hr).1

/-- Adding a row touches the points of its label only. -/
theorem pointsOf_addRow {m : LabelMode} {rows : List Row} (r : Row)
    (once : m = .single → (pointsOf r.1 rows).length ≤ 1) (l : Label) :
    pointsOf l (m.addRow rows r) =
      if r.1 = l then m.kept (pointsOf l rows ++ [r.2]) else pointsOf l rows := by
  unfold addRow
  split
  · next id hid =>
      obtain ⟨rfl, hposition⟩ := replaced?_eq_some hid
      rw [pointsOf_replacePoint hposition (once rfl)]
      simp [kept]
  · next hid =>
      rw [pointsOf_append, pointsOf_singleton]
      split
      · next hl =>
          subst hl
          cases m with
          | single =>
              -- no row gives way to a label that stands nowhere
              have hnew : pointsOf r.1 rows = [] :=
                positions_eq_nil_iff.1 (List.head?_eq_none_iff.1 hid)
              rw [hnew]
              rfl
          | multi => rfl
      · rw [List.append_nil]

end LabelMode

theorem Metric.length_prepare (m : Metric) (a : Point) : (m.prepare a).length = a.length := by
  cases m with
  | l2 => rfl
  | cosine =>
      show a.normalize.length = a.length
      unfold Point.normalize
      dsimp only
      split
      · exact List.length_map _
      · rfl

theorem Point.check_eq_ok_iff {a : Point} {dimension : Nat} :
    a.check dimension = .ok () ↔ a.length = dimension ∧ a.isFinite = true := by
  unfold check checkDimension
  by_cases hlength : a.length = dimension
  · by_cases hfinite : a.isFinite = true <;> simp [hlength, hfinite, bind, Except.bind]
  · simp [hlength, bind, Except.bind]

namespace Index

/-! ## What is kept -/

/-- The prepared points that settings keep under a label, of what was added. -/
def keptPoints (settings : Settings) (added : List Row) (l : Label) : List Point :=
  (settings.mode.kept (pointsOf l added)).map settings.metric.prepare

/-- The store has under every label the points that are kept of what was added. -/
structure Holds (i : Index) (added : List Row) : Prop where
  dimension : i.store.dimension = i.settings.dimension.toNat
  rows : ∃ rows, i.store.Holds rows ∧ ∀ l, pointsOf l rows = keptPoints i.settings added l

/-- An index is created with a store of its own. -/
theorem store_created {machine : Machine} {settings : Settings} {i : Index}
    (h : create machine settings = .ok i) :
    i.settings = settings ∧
      Store.create settings.dimension.toNat settings.blockSize.toNat
        settings.initialCapacity.toNat = .ok i.store := by
  obtain ⟨-, -, h⟩ := bind_eq_ok.1 h
  obtain ⟨store, hstore, h⟩ := bind_eq_ok.1 h
  cases h
  exact ⟨rfl, hstore⟩

theorem store_of_create {machine : Machine} {settings : Settings} {i : Index}
    (h : create machine settings = .ok i) :
    i.settings = settings ∧ i.store.dimension = settings.dimension.toNat ∧ i.store.Holds [] := by
  obtain ⟨hsettings, hstore⟩ := store_created h
  obtain ⟨hholds, hdimension, -⟩ := Store.holds_of_create hstore
  exact ⟨hsettings, hdimension, hholds⟩

theorem holds_of_create {machine : Machine} {settings : Settings} {i : Index}
    (h : create machine settings = .ok i) : i.settings = settings ∧ i.Holds [] := by
  obtain ⟨rfl, hdimension, hholds⟩ := store_of_create h
  refine ⟨rfl, hdimension, [], hholds, ?_⟩
  intro l
  have hnone : i.settings.mode.kept (pointsOf l []) = [] := LabelMode.kept_eq_nil_iff.2 rfl
  rw [keptPoints, hnone]
  rfl

/-! ## One call -/

variable {i : Index} {added : List Row}

theorem replacedId?_eq {rows : List Row} (h : i.store.Holds rows) (label : Label) :
    i.replacedId? label = i.settings.mode.replaced? label rows := by
  unfold replacedId?
  cases i.settings.mode with
  | single =>
      show (i.store.ids[label]?).bind (·[0]?) = (Store.positions label rows).head?
      rw [h.ids label]
      split
      · next hnone =>
          rw [hnone]
          rfl
      · rw [Option.bind_some, List.getElem?_toArray, List.head?_eq_getElem?]
  | multi => rfl

/-- A point that does not pass the check is refused with the fault. -/
theorem add_eq_error {point : Point} {e : Error}
    (fault : point.check i.settings.dimension.toNat = .error e) (label : Label) :
    i.add point label = .error e := by
  rw [add, prepare, fault]
  rfl

theorem prepare_of_check {point : Point} (proper : point.check i.settings.dimension.toNat = .ok ()) :
    i.prepare point = .ok (i.settings.metric.prepare point) := by
  rw [prepare, proper]
  rfl

section Stored

variable {rows : List Row} {point : Point} {label : Label}

theorem add_of_replacedId?_none (proper : point.check i.settings.dimension.toNat = .ok ())
    (hid : i.replacedId? label = none) :
    i.add point label =
      (i.store.append (i.settings.metric.prepare point) label).map fun answer =>
        { i with store := answer.2 } := by
  rw [add, prepare_of_check proper, hid]
  show (i.store.append (i.settings.metric.prepare point) label >>= _) = _
  cases i.store.append (i.settings.metric.prepare point) label <;> rfl

theorem add_of_replacedId?_some (proper : point.check i.settings.dimension.toNat = .ok ())
    {id : Nat} (hid : i.replacedId? label = some id) :
    i.add point label =
      (i.store.overwrite id (i.settings.metric.prepare point)).map fun store =>
        { i with store := store } := by
  rw [add, prepare_of_check proper, hid]
  show (i.store.overwrite id (i.settings.metric.prepare point) >>= _) = _
  cases i.store.overwrite id (i.settings.metric.prepare point) <;> rfl

/-- Neither the dimension nor what preparing does to a point lets the store refuse it. -/
theorem length_prepare_eq (dimension : i.store.dimension = i.settings.dimension.toNat)
    (fits : point.length = i.settings.dimension.toNat) :
    (i.settings.metric.prepare point).length = i.store.dimension := by
  rw [Metric.length_prepare, fits, dimension]

/-- An id that is replaced is the id of a row, so its point is overwritten. -/
theorem overwrite_replacedId? (h : i.store.Holds rows) {id : Nat}
    (hid : i.replacedId? label = some id) (fits : point.length = i.store.dimension) :
    ∃ blocks, i.store.overwrite id point = .ok { i.store with blocks := blocks } ∧
      Store.Holds { i.store with blocks := blocks } (replacePoint rows id point) := by
  rw [replacedId?_eq h] at hid
  exact h.overwrite_eq_ok (LabelMode.replaced?_lt hid) fits

/-- A point that passes the check is added to the rows, prepared: neither way of writing it fails. -/
theorem add_eq_ok (dimension : i.store.dimension = i.settings.dimension.toNat)
    (h : i.store.Holds rows) (proper : point.check i.settings.dimension.toNat = .ok ())
    (label : Label) :
    ∃ store, i.add point label = .ok { i with store := store } ∧
      store.dimension = i.store.dimension ∧
      store.Holds (i.settings.mode.addRow rows (label, i.settings.metric.prepare point)) := by
  have fits := length_prepare_eq dimension (Point.check_eq_ok_iff.1 proper).1
  rw [LabelMode.addRow, ← replacedId?_eq h]
  cases hid : i.replacedId? label with
  | none =>
      rw [add_of_replacedId?_none proper hid, h.append_eq_ok label fits]
      exact ⟨_, rfl, rfl, h.push label fits⟩
  | some id =>
      obtain ⟨blocks, hok, hholds⟩ := overwrite_replacedId? h hid fits
      rw [add_of_replacedId?_some proper hid, hok]
      exact ⟨_, rfl, rfl, hholds⟩

end Stored

/-- What is kept once one more point was added. -/
theorem keptPoints_append_singleton (settings : Settings) (added : List Row) (r : Row) (l : Label) :
    keptPoints settings (added ++ [r]) l =
      if r.1 = l then
        settings.mode.kept (keptPoints settings added l ++ [settings.metric.prepare r.2])
      else keptPoints settings added l := by
  unfold keptPoints
  rw [pointsOf_append, pointsOf_singleton]
  split
  · cases settings.mode <;> simp [LabelMode.kept]
  · rw [List.append_nil]

/-- A point that passes the check is stored, one that does not is refused with the fault. -/
theorem Holds.add (h : i.Holds added) (point : Point) (label : Label) :
    (∃ e, point.check i.settings.dimension.toNat = .error e ∧ i.add point label = .error e) ∨
      (point.check i.settings.dimension.toNat = .ok () ∧
        ∃ store, i.add point label = .ok { i with store := store } ∧
          Holds { i with store := store } (added ++ [(label, point)])) := by
  cases hcheck : point.check i.settings.dimension.toNat with
  | error e => exact Or.inl ⟨e, rfl, add_eq_error hcheck label⟩
  | ok _ =>
      obtain ⟨hdimension, rows, hrows, hkept⟩ := h
      obtain ⟨store, hadd, hdimension', hrows'⟩ := add_eq_ok hdimension hrows hcheck label
      refine Or.inr ⟨rfl, store, hadd, hdimension'.trans hdimension, _, hrows', ?_⟩
      intro l
      have honce (hmode : i.settings.mode = .single) : (pointsOf label rows).length ≤ 1 := by
        rw [hkept, keptPoints, hmode, List.length_map]
        exact LabelMode.length_kept_single _
      rw [LabelMode.pointsOf_addRow _ honce, keptPoints_append_singleton, hkept]

/-! ## A run of calls -/

/-- The index after some calls that add points. A call that fails leaves it as it was. -/
def run (i : Index) : List Row → Index
  | [] => i
  | (label, point) :: calls =>
    match i.add point label with
    | .ok i' => i'.run calls
    | .error _ => i.run calls

/-- The calls of a run that succeed, in their order. -/
def accepted (i : Index) : List Row → List Row
  | [] => []
  | (label, point) :: calls =>
    match i.add point label with
    | .ok i' => (label, point) :: i'.accepted calls
    | .error _ => i.accepted calls

/-- **An index keeps what was added.** After any calls the store has the points that are kept of
    those that succeeded, and the settings are the same. -/
theorem Holds.run {before : List Row} (h : i.Holds before) (calls : List Row) :
    (i.run calls).settings = i.settings ∧ (i.run calls).Holds (before ++ i.accepted calls) := by
  induction calls generalizing i before with
  | nil =>
      refine ⟨rfl, ?_⟩
      rw [accepted, List.append_nil]
      exact h
  | cons call calls ih =>
      obtain ⟨label, point⟩ := call
      rcases h.add point label with ⟨e, -, hadd⟩ | ⟨-, store, hadd, hholds⟩
      · rw [Index.run, Index.accepted, hadd]
        exact ih h
      · rw [Index.run, Index.accepted, hadd]
        have hrest := ih hholds
        rw [List.append_assoc] at hrest
        exact hrest

theorem holds_run {machine : Machine} {settings : Settings} {i₀ : Index}
    (created : create machine settings = .ok i₀) (calls : List Row) :
    (i₀.run calls).settings = settings ∧ (i₀.run calls).Holds (i₀.accepted calls) := by
  obtain ⟨rfl, hempty⟩ := holds_of_create created
  exact hempty.run calls

/-- Which calls succeed is decided by their points alone. -/
theorem Holds.accepted_eq {before : List Row} (h : i.Holds before) (calls : List Row) :
    i.accepted calls = calls.filter fun call =>
      call.2.length = i.settings.dimension.toNat ∧ call.2.isFinite = true := by
  induction calls generalizing i before with
  | nil => rfl
  | cons call calls ih =>
      obtain ⟨label, point⟩ := call
      rcases h.add point label with ⟨e, hcheck, hadd⟩ | ⟨hcheck, store, hadd, hholds⟩
      · have hunfit : ¬ (point.length = i.settings.dimension.toNat ∧ point.isFinite = true) := by
          intro hfit
          rw [Point.check_eq_ok_iff.2 hfit] at hcheck
          cases hcheck
        rw [accepted, hadd, List.filter_cons_of_neg (by simpa using hunfit)]
        exact ih h
      · have hfit := Point.check_eq_ok_iff.1 hcheck
        rw [accepted, hadd, List.filter_cons_of_pos (by simpa using hfit)]
        exact congrArg _ (ih hholds)

end Index

end ExactNeighbors
