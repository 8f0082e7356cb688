import ExactNeighbors.Proofs.Storage.Writes
import Mathlib.Data.List.Nodup

set_option autoImplicit false

/-! # The ids of a label

A store knows its labels twice over: the blocks have the label of every id, and the lookup has the
ids of every label. Nothing compares the two when one of them is read. Here the lookup is shown to be
the inverse of the labels, however the store came about (`ids_invert_labels`): a label is listed just
if it stands somewhere, and its list has the ids at which it stands, in rising order and no others.

In terms of the rows, the list of a label is that of its positions. No position has two labels and
none is without one, so the lists of the different labels share the ids out among them
(`perm_flatMap_positions`). Overwriting leaves the labels where they stand, and the lookup alone. -/

namespace ExactNeighbors.Store

/-! ## The positions of all labels -/

theorem pairwise_lt_positions (l : Label) (rows : List Row) :
    (positions l rows).Pairwise (· < ·) :=
  List.pairwise_lt_range.filter _

/-- No position has two labels. -/
theorem disjoint_positions {l l' : Label} (h : l ≠ l') (rows : List Row) :
    (positions l rows).Disjoint (positions l' rows) := by
  intro id hid hid'
  rw [mem_positions] at hid hid'
  rw [hid] at hid'
  exact h (Option.some.inj hid')

/-- The positions of the different labels are all positions, each of them once. -/
theorem perm_flatMap_positions (rows : List Row) :
    ((rows.map Prod.fst).dedup.flatMap fun l => positions l rows).Perm
      (List.range rows.length) := by
  refine (List.perm_ext_iff_of_nodup ?_ List.nodup_range).2 fun id => ?_
  · rw [List.nodup_flatMap]
    refine ⟨fun l _ => (pairwise_lt_positions l rows).imp Nat.ne_of_lt, ?_⟩
    exact (List.nodup_dedup _).imp fun h => disjoint_positions h rows
  · simp only [List.mem_flatMap, List.mem_dedup, mem_positions, List.mem_range]
    constructor
    · rintro ⟨l, -, hid⟩
      obtain ⟨r, hr, -⟩ := Option.map_eq_some_iff.1 hid
      exact (List.getElem?_eq_some_iff.1 hr).1
    · intro hid
      exact ⟨rows[id].1, List.mem_map_of_mem (List.getElem_mem hid), by simp [hid]⟩

/-! ## What is listed -/

variable {s : Store} {rows : List Row}

theorem Holds.ids?_eq (h : s.Holds rows) (l : Label) :
    s.ids? l = if positions l rows = [] then none else some (positions l rows).toArray :=
  h.ids l

theorem Holds.isSome_ids? (h : s.Holds rows) (l : Label) :
    (s.ids? l).isSome = true ↔ l ∈ rows.map Prod.fst := by
  rw [h.ids?_eq, ← positions_ne_nil_iff]
  by_cases hnone : positions l rows = [] <;> simp [hnone]

/-- What is listed for a label are its positions; where nothing is, it has none. -/
theorem Holds.toList_ids? (h : s.Holds rows) (l : Label) :
    ((s.ids? l).getD #[]).toList = positions l rows := by
  rw [h.ids?_eq]
  by_cases hnone : positions l rows = [] <;> simp [hnone]

/-- The positions of a label are the ids that have it. -/
theorem Holds.positions_eq (h : s.Holds rows) (l : Label) :
    positions l rows = (List.range s.count).filter fun id => s.label? id = some l := by
  rw [positions, h.count]
  apply List.filter_congr
  intro id _
  rw [h.label?_eq, List.getElem?_map]

/-! ## Overwriting -/

theorem map_fst_writeRows_overwrite (dimension : Nat) (rows : List Row) (id : Nat)
    (point : Point) :
    (writeRows dimension rows (.overwrite id point)).2.map Prod.fst = rows.map Prod.fst := by
  rw [writeRows]
  split
  · rfl
  · split
    · exact map_fst_replacePoint rows id point
    · rfl

/-- Overwriting changes no label, in the blocks or in the lookup. -/
theorem Holds.write_overwrite (h : s.Holds rows) (id : Nat) (point : Point) :
    let s' := (s.write (.overwrite id point)).2
    s'.ids = s.ids ∧ s'.count = s.count ∧ s'.toList.map Prod.fst = s.toList.map Prod.fst ∧
      ∀ i, s'.label? i = s.label? i := by
  intro s'
  have hholds : s'.Holds _ := (h.write (.overwrite id point)).2.1
  have hlabels := map_fst_writeRows_overwrite s.dimension rows id point
  obtain ⟨blocks, hblocks⟩ : ∃ blocks, s' = { s with blocks := blocks } :=
    s.write_overwrite_eq id point
  refine ⟨by rw [hblocks], by rw [hblocks], ?_, fun i => ?_⟩
  · rw [hholds.toList_eq, h.toList_eq, hlabels]
  · rw [hholds.label?_eq, h.label?_eq, ← List.getElem?_map, ← List.getElem?_map, hlabels]

/-- **The lookup is the inverse of the labels.** Of a store that can be reached, a label is listed
    just if an entry has it, and then with exactly the ids that have it, in rising order; asking
    whether it is there comes to the same. Together the lists of the different labels have every id
    once, and there are as many of them as labels. No overwriting, whether or not it is refused,
    changes the lists or the labels. -/
theorem ids_invert_labels {s : Store} (reachable : s.Reachable) :
    let labels := s.toList.map Prod.fst
    (∀ l, (s.ids? l).isSome = true ↔ l ∈ labels) ∧
    (∀ l ids, s.ids? l = some ids →
      ids.toList.Pairwise (· < ·) ∧
      ids.toList = (List.range s.count).filter fun id => s.label? id = some l) ∧
    (∀ l, s.containsLabel l = (s.ids? l).isSome) ∧
    (labels.dedup.flatMap fun l => ((s.ids? l).getD #[]).toList).Perm (List.range s.count) ∧
    s.labelCount = labels.dedup.length ∧
    ∀ id point,
      let s' := (s.write (.overwrite id point)).2
      s'.ids = s.ids ∧ s'.count = s.count ∧ s'.toList.map Prod.fst = labels ∧
        ∀ i, s'.label? i = s.label? i := by
  intro labels
  obtain ⟨rows, hrows⟩ := reachable.holds
  have hlabels : labels = rows.map Prod.fst := congrArg _ hrows.toList_eq
  refine ⟨fun l => ?_, fun l ids hids => ?_, fun l => ?_, ?_, ?_, hrows.write_overwrite⟩
  · rw [hlabels, hrows.isSome_ids?]
  · have hlist := hrows.toList_ids? l
    rw [hids, Option.getD_some] at hlist
    rw [hlist]
    exact ⟨pairwise_lt_positions l rows, hrows.positions_eq l⟩
  · rw [Bool.eq_iff_iff, hrows.containsLabel_iff, hrows.isSome_ids?]
  · simp only [hlabels, hrows.toList_ids?, hrows.count]
    exact perm_flatMap_positions rows
  · rw [hlabels, hrows.labelCount_eq]

/-- A label that stands twice, in different blocks, one that stands between, and one whose only point
    was refused; then the first is overwritten. -/
theorem ids_invert_labels_repeated :
    ∃ s : Store, s.Reachable ∧ s.blocks.size = 2 ∧ s.count = 3 ∧ s.ids? 7 = some #[0, 2] ∧
      [0, 2] = ((List.range s.count).filter fun id => s.label? id = some 7) ∧
      s.containsLabel 8 = false ∧ s.labelCount = 2 ∧
      ((s.toList.map Prod.fst).dedup.flatMap fun l => ((s.ids? l).getD #[]).toList).Perm
        (List.range s.count) ∧
      (s.write (.overwrite 0 [Binary.one])).2.ids = s.ids := by
  obtain ⟨s₀, created⟩ : ∃ s₀, Store.create 1 2 0 = .ok s₀ := ⟨_, rfl⟩
  have hlast := ((((Reachable.created created).written (.append [.zero false] 7)).written
    (.append [.zero false] 9)).written (.append [] 8)).written (.append [.zero false] 7)
  obtain ⟨-, hids, hcontains, hperm, hcount, hwrite⟩ := ids_invert_labels hlast
  refine ⟨_, hlast, ?_, ?_, ?_, (hids 7 #[0, 2] ?_).2, ?_, ?_, hperm, (hwrite 0 [Binary.one]).1⟩
  · cases created
    decide +kernel
  · cases created
    decide +kernel
  · cases created
    decide +kernel
  · cases created
    decide +kernel
  · rw [hcontains]
    cases created
    decide +kernel
  · rw [hcount]
    cases created
    decide +kernel

end ExactNeighbors.Store
