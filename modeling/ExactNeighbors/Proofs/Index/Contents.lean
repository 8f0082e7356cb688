import ExactNeighbors.Proofs.Index.History

set_option autoImplicit false

/-! # The contents of an index

What an index says of its contents, it says of the history of added points (`contents_after_run`):
which labels there are, how many, how many points, and which points a label has. Points are found by
the ids of their label, and none of them is lost on the way (`points?_eq`).

The rows have every label as often as points are kept under it. So they have the labels of the
history, with their repetitions if labels may be shared and without them otherwise
(`Holds.perm_labels`), and every count is read off these.

Whatever lies in the blocks or is returned for a label is the prepared form of a proper point
(`exists_proper_of_mem_keptPoints`), as no other is accepted. -/

namespace ExactNeighbors

/-- The components in the blocks of a store are those of its rows. -/
theorem Store.Holds.exists_of_mem_components {s : Store} {rows : List Row} (h : s.Holds rows)
    {b : Block} (hb : b ∈ s.blocks.toList) {x : Single} (hx : x ∈ b.components.toList) :
    ∃ r ∈ rows, x ∈ r.2 := by
  obtain ⟨j, hj⟩ := List.mem_iff_getElem?.1 hb
  rw [Array.getElem?_toList] at hj
  rw [(h.block j b hj).components] at hx
  obtain ⟨r, hr, hx⟩ := List.mem_flatMap.1 hx
  exact ⟨r, List.mem_of_mem_drop (List.mem_of_mem_take hr), hx⟩

/-- The labels of the rows that are kept of some added ones. -/
def LabelMode.labels : LabelMode → List Row → List Label
  | .single, added => (added.map Prod.fst).dedup
  | .multi, added => added.map Prod.fst

theorem LabelMode.count_labels (m : LabelMode) (added : List Row) (l : Label) :
    (m.labels added).count l = (m.kept (pointsOf l added)).length := by
  cases m with
  | single =>
      rw [labels, List.count_dedup, kept]
      split
      · next hl =>
          rw [← pointsOf_ne_nil_iff] at hl
          rw [List.getLast?_eq_some_getLast hl]
          rfl
      · next hl =>
          rw [← pointsOf_ne_nil_iff, not_not] at hl
          rw [hl]
          rfl
  | multi => exact count_map_fst l added

theorem LabelMode.mem_labels {m : LabelMode} {added : List Row} {l : Label} :
    l ∈ m.labels added ↔ l ∈ added.map Prod.fst := by
  cases m with
  | single => exact List.mem_dedup
  | multi => exact Iff.rfl

namespace Index

variable {i : Index} {added : List Row}

theorem keptPoints_eq_nil_iff {settings : Settings} {l : Label} :
    keptPoints settings added l = [] ↔ pointsOf l added = [] := by
  rw [keptPoints, List.map_eq_nil_iff, LabelMode.kept_eq_nil_iff]

/-- The ids of a label all lead to points. -/
theorem points?_eq {rows : List Row} (h : i.store.Holds rows) (l : Label) :
    i.points? l = if pointsOf l rows = [] then none else some (pointsOf l rows) := by
  rw [points?, Store.ids?, h.ids l]
  simp only [positions_eq_nil_iff]
  split
  · rfl
  · rw [Option.map_some, funext h.point?_eq]
    exact congrArg some (filterMap_positions l rows)

theorem Holds.points?_eq (h : i.Holds added) (l : Label) :
    i.points? l =
      if pointsOf l added = [] then none else some (keptPoints i.settings added l) := by
  obtain ⟨-, rows, hrows, hkept⟩ := h
  rw [Index.points?_eq hrows, hkept]
  simp only [keptPoints_eq_nil_iff]

/-- The rows have the labels that are kept, each as often as it is kept. -/
theorem Holds.perm_labels (h : i.Holds added) :
    ∃ rows, i.store.Holds rows ∧ (rows.map Prod.fst).Perm (i.settings.mode.labels added) := by
  obtain ⟨-, rows, hrows, hkept⟩ := h
  refine ⟨rows, hrows, List.perm_iff_count.2 fun l => ?_⟩
  rw [count_map_fst, hkept, keptPoints, List.length_map, LabelMode.count_labels]

theorem Holds.size_eq (h : i.Holds added) : i.size = (i.settings.mode.labels added).length := by
  obtain ⟨rows, hrows, hperm⟩ := h.perm_labels
  rw [size, hrows.count, ← hperm.length_eq, List.length_map]

theorem Holds.containsLabel_iff (h : i.Holds added) {l : Label} :
    i.containsLabel l = true ↔ l ∈ added.map Prod.fst := by
  obtain ⟨rows, hrows, hperm⟩ := h.perm_labels
  rw [containsLabel, hrows.containsLabel_iff, hperm.mem_iff, LabelMode.mem_labels]

theorem Holds.labelCount_eq (h : i.Holds added) :
    i.labelCount = (added.map Prod.fst).dedup.length := by
  obtain ⟨rows, hrows, hperm⟩ := h.perm_labels
  have hmem (l : Label) : l ∈ (rows.map Prod.fst).dedup ↔ l ∈ (added.map Prod.fst).dedup := by
    rw [List.mem_dedup, List.mem_dedup, hperm.mem_iff, LabelMode.mem_labels]
  have hsame := (List.perm_ext_iff_of_nodup (List.nodup_dedup _) (List.nodup_dedup _)).2 hmem
  rw [labelCount, hrows.labelCount_eq, hsame.length_eq]

/-- **An index contains what was added.** After any calls, of which some succeeded, the labels are
    those of the calls that succeeded, and a label has points just if it is one of them. Where a
    label stands once, there are as many points as labels and a label has the last point added under
    it, prepared. Where labels may be shared, there are as many points as successful calls and a
    label has all points added under it, prepared and in order. -/
theorem contents_after_run {machine : Machine} {settings : Settings} {i₀ : Index}
    (created : create machine settings = .ok i₀) (calls : List Row) :
    let i := i₀.run calls
    let added := i₀.accepted calls
    let labels := (added.map Prod.fst).dedup
    i.labelCount = labels.length ∧
    (∀ l, i.containsLabel l = true ↔ l ∈ labels) ∧
    (∀ l, (i.points? l).isSome = true ↔ l ∈ labels) ∧
    match settings.mode with
    | .single =>
      i.size = labels.length ∧
      ∀ l, i.points? l = (pointsOf l added).getLast?.map fun p => [settings.metric.prepare p]
    | .multi =>
      i.size = added.length ∧
      ∀ l ∈ labels, i.points? l = some ((pointsOf l added).map settings.metric.prepare) := by
  intro i added labels
  obtain ⟨rfl, hholds⟩ := holds_run created calls
  have hpoints := hholds.points?_eq
  have hsize := hholds.size_eq
  have hlabels (l : Label) : pointsOf l added = [] ↔ l ∉ labels := by
    rw [List.mem_dedup, ← pointsOf_ne_nil_iff, not_not]
  refine ⟨hholds.labelCount_eq, fun l => ?_, fun l => ?_, ?_⟩
  · rw [hholds.containsLabel_iff, List.mem_dedup]
  · rw [hpoints]
    split
    · next hnone => simpa using (hlabels l).1 hnone
    · next hsome => simpa using mt (hlabels l).2 hsome
  · split
    · next hmode =>
        rw [hmode] at hsize
        refine ⟨hsize, fun l => ?_⟩
        rw [hpoints, keptPoints, hmode, LabelMode.kept]
        split
        · next hnone =>
            rw [hnone]
            rfl
        · next hsome =>
            rw [List.getLast?_eq_some_getLast hsome]
            rfl
    · next hmode =>
        rw [hmode] at hsize
        refine ⟨hsize.trans (List.length_map _), fun l hl => ?_⟩
        have hsome : pointsOf l added ≠ [] := fun hnone => (hlabels l).1 hnone hl
        rw [hpoints, if_neg hsome, keptPoints, hmode, LabelMode.kept]

/-- The same calls in both modes: a label added twice, with a call between that is refused. -/
theorem contents_after_run_twice :
    let calls : List Row := [(7, [.zero false]), (9, []), (7, [Binary.one])]
    (∃ i₀, create .small { dimension := 1 } = .ok i₀ ∧
      (i₀.run calls).size = 1 ∧ (i₀.run calls).labelCount = 1 ∧
      (i₀.run calls).points? 7 = some [[Binary.one]] ∧ (i₀.run calls).containsLabel 9 = false) ∧
    ∃ i₀, create .small { dimension := 1, mode := .multi } = .ok i₀ ∧
      (i₀.run calls).size = 2 ∧ (i₀.run calls).labelCount = 1 ∧
      (i₀.run calls).points? 7 = some [[.zero false], [Binary.one]] ∧
      (i₀.run calls).containsLabel 9 = false := by
  intro calls
  refine ⟨?_, ?_⟩
  · obtain ⟨i₀, created⟩ : ∃ i₀, create .small { dimension := 1 } = .ok i₀ := ⟨_, rfl⟩
    obtain ⟨hcount, hcontains, -, hsize, hpoints⟩ := contents_after_run created calls
    refine ⟨i₀, created, ?_⟩
    rw [hsize, hcount, hpoints, Bool.eq_false_iff, Ne, hcontains]
    cases created
    decide +kernel
  · obtain ⟨i₀, created⟩ : ∃ i₀, create .small { dimension := 1, mode := .multi } = .ok i₀ :=
    ⟨_, rfl⟩
    obtain ⟨hcount, hcontains, -, hsize, hpoints⟩ := contents_after_run created calls
    refine ⟨i₀, created, ?_⟩
    rw [hsize, hcount, hpoints 7 ?_, Bool.eq_false_iff, Ne, hcontains]
    · cases created
      decide +kernel
    · cases created
      decide +kernel

/-! ## Stored points -/

/-- What is kept under a label was added under it. -/
theorem exists_added_of_mem_keptPoints {settings : Settings} {label : Label} {point : Point}
    (h : point ∈ keptPoints settings added label) :
    ∃ original, (label, original) ∈ added ∧ point = settings.metric.prepare original := by
  obtain ⟨original, hkept, rfl⟩ := List.mem_map.1 h
  obtain ⟨⟨l, p⟩, hrow, rfl⟩ := List.mem_map.1 (LabelMode.mem_of_mem_kept hkept)
  obtain ⟨hadded, hlabel⟩ := List.mem_filter.1 hrow
  obtain rfl : l = label := of_decide_eq_true hlabel
  exact ⟨p, hadded, rfl⟩

/-- The points of a label are those that are kept under it. -/
theorem Holds.points_eq (h : i.Holds added) {label : Label} {points : List Point}
    (stored : i.points? label = some points) : points = keptPoints i.settings added label := by
  rw [h.points?_eq] at stored
  split at stored <;> cases stored
  rfl

/-- The components in the blocks are those of points that are kept. -/
theorem Holds.exists_of_mem_components (h : i.Holds added) {b : Block}
    (hb : b ∈ i.store.blocks.toList) {x : Single} (hx : x ∈ b.components.toList) :
    ∃ label, ∃ point ∈ keptPoints i.settings added label, x ∈ point := by
  obtain ⟨-, rows, hrows, hkept⟩ := h
  obtain ⟨⟨label, point⟩, hrow, hx⟩ := hrows.exists_of_mem_components hb hx
  refine ⟨label, point, ?_, hx⟩
  rw [← hkept, pointsOf]
  exact List.mem_map_of_mem (List.mem_filter.2 ⟨hrow, by simp⟩)

/-- What is kept after any calls is the prepared form of a proper point. -/
theorem exists_proper_of_mem_keptPoints {machine : Machine} {settings : Settings} {i₀ : Index}
    (created : create machine settings = .ok i₀) {calls : List Row} {label : Label} {point : Point}
    (h : point ∈ keptPoints settings (i₀.accepted calls) label) :
    ∃ original : Point, original.length = settings.dimension.toNat ∧ original.isFinite = true ∧
      point = settings.metric.prepare original := by
  obtain ⟨rfl, hempty⟩ := holds_of_create created
  obtain ⟨original, hadded, rfl⟩ := exists_added_of_mem_keptPoints h
  rw [hempty.accepted_eq, List.mem_filter] at hadded
  obtain ⟨hlength, hfinite⟩ := of_decide_eq_true hadded.2
  exact ⟨original, hlength, hfinite, rfl⟩

end Index

end ExactNeighbors
