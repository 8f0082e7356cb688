import ExactNeighbors.Proofs.Index.Answers
import ExactNeighbors.Proofs.Index.PerLabel

set_option autoImplicit false

/-! # The labels in the order they are met

Where labels are shared, an answer can be found in two ways. Either every label is listed at its
least distance and the list is ranked, or all distances are ranked and of each label only the first
entry is kept (`Neighbor.firstOfLabels`). Both give the same, since rank puts the distances of a label
in the total order that the least is taken in: the entry that is met first has the least distance
(`Neighbor.mem_firstOfLabels`). So the nearest `k` labels are the first `k` that are met on a walk
along the ranking of all points (`Index.nearest_labels_first_met`). -/

namespace ExactNeighbors

namespace PerLabel

theorem distancesOf_filter_label_ne (l l' : Label) (ns : List Neighbor) :
    distancesOf l (ns.filter fun n => n.label ≠ l') = if l = l' then [] else distancesOf l ns := by
  rw [distancesOf, List.filter_filter]
  by_cases hl : l = l'
  · rw [if_pos hl, hl, List.filter_eq_nil_iff.2, List.map_nil]
    simp
  · rw [if_neg hl, distancesOf]
    refine congrArg _ (List.filter_congr fun n _ => ?_)
    by_cases hn : n.label = l
    · simp [hn, hl]
    · simp [hn]

/-- The first in rank has the least of the distances of its label. -/
theorem leastIn_of_forall_le {n : Neighbor} {ns : List Neighbor} (hn : n ∈ ns)
    (first : ∀ m ∈ ns, n ≤ m) : n.distance.LeastIn (distancesOf n.label ns) := by
  refine ⟨mem_distancesOf.2 hn, fun e he => ?_⟩
  have hmem : ⟨n.label, e⟩ ∈ ns := mem_distancesOf.1 he
  exact Binary.totalCompare_ne_gt.2 (Neighbor.totalKey_le_of_le (first _ hmem))

end PerLabel

namespace Neighbor

/-! ## The first of each label -/

/-- The neighbors that have no other of their label in front of them. -/
def firstOfLabels (ns : List Neighbor) : List Neighbor :=
  ns.eraseDupsBy fun a b => a.label == b.label

/-- The neighbor that is met now is kept, and all others of its label are passed by. -/
theorem firstOfLabels_cons (n : Neighbor) (ns : List Neighbor) :
    firstOfLabels (n :: ns) = n :: firstOfLabels (ns.filter fun m => m.label ≠ n.label) := by
  rw [firstOfLabels, List.eraseDupsBy_cons]
  simp only [beq_eq_false_iff_ne]
  rfl

/-- Induction along the walk, where each step takes a label out of the rest. -/
theorem walk_induction {motive : List Neighbor → Prop} (nil : motive [])
    (cons : ∀ n ns, motive (ns.filter fun m => m.label ≠ n.label) → motive (n :: ns)) :
    ∀ ns, motive ns
  | [] => nil
  | n :: ns => cons n ns (walk_induction nil cons _)
termination_by ns => ns.length
decreasing_by exact Nat.lt_succ_of_le (List.length_filter_le _ _)

theorem firstOfLabels_sublist (ns : List Neighbor) : (firstOfLabels ns).Sublist ns := by
  induction ns using walk_induction with
  | nil => exact List.Sublist.refl []
  | cons n ns ih =>
      rw [firstOfLabels_cons]
      exact (ih.trans List.filter_sublist).cons_cons n

/-- The labels met are the labels of the list, each where it stands first. -/
theorem map_label_firstOfLabels (ns : List Neighbor) :
    (firstOfLabels ns).map label = (ns.map label).eraseDups := by
  induction ns using walk_induction with
  | nil => rfl
  | cons n ns ih =>
      have hfilter : (ns.filter fun m => m.label ≠ n.label).map label =
          (ns.map label).filter fun l => !l == n.label := by
        rw [List.filter_map]
        refine congrArg _ (List.filter_congr fun m _ => ?_)
        by_cases hlabel : m.label = n.label <;> simp [hlabel]
      rw [firstOfLabels_cons, List.map_cons, ih, hfilter, List.map_cons, List.eraseDups_cons]

theorem nodup_labels_firstOfLabels (ns : List Neighbor) :
    ((firstOfLabels ns).map label).Nodup := by
  induction ns using walk_induction with
  | nil => exact List.nodup_nil
  | cons n ns ih =>
      rw [firstOfLabels_cons, List.map_cons, List.nodup_cons]
      refine ⟨fun h => ?_, ih⟩
      obtain ⟨m, hm, hlabel⟩ := List.mem_map.1 h
      have hother := (List.mem_filter.1 ((firstOfLabels_sublist _).subset hm)).2
      exact of_decide_eq_true hother hlabel

/-- What is met first on a walk along a ranking has the least distance of its label. -/
theorem mem_firstOfLabels {ns : List Neighbor} (ascending : ns.Pairwise (· ≤ ·)) {m : Neighbor} :
    m ∈ firstOfLabels ns ↔ m.distance.LeastIn (PerLabel.distancesOf m.label ns) := by
  induction ns using walk_induction with
  | nil => simp [firstOfLabels, PerLabel.distancesOf, Binary.LeastIn]
  | cons n ns ih =>
      obtain ⟨hfirst, hrest⟩ := List.pairwise_cons.1 ascending
      rw [firstOfLabels_cons, List.mem_cons, ih (hrest.filter _),
        PerLabel.distancesOf_filter_label_ne]
      by_cases hlabel : m.label = n.label
      · -- the label is met now, and nothing after `n` precedes it
        have hn : n.distance.LeastIn (PerLabel.distancesOf n.label (n :: ns)) := by
          refine PerLabel.leastIn_of_forall_le List.mem_cons_self fun x hx => ?_
          rcases List.mem_cons.1 hx with rfl | hx
          · exact le_rfl
          · exact hfirst x hx
        rw [if_pos hlabel, hlabel]
        constructor
        · rintro (rfl | h)
          · exact hn
          · exact absurd h.1 List.not_mem_nil
        · intro h
          exact Or.inl (eq_of_fields hlabel (h.unique hn))
      · rw [if_neg hlabel, PerLabel.distancesOf_cons, if_neg (Ne.symm hlabel)]
        exact or_iff_right fun h => hlabel (congrArg label h)

end Neighbor

namespace Index

/-! ## Answers by walking -/

/-- Ranking what is listed of the labels gives what is met first of them along the ranking of all. -/
theorem sortByRank_ofList (ns : List Neighbor) (room : Nat) :
    Neighbor.sortByRank (PerLabel.ofList ns room) =
      Neighbor.firstOfLabels (Neighbor.sortByRank ns) := by
  have hascending := Neighbor.pairwise_sortByRank ns
  have hperm : (Neighbor.firstOfLabels (Neighbor.sortByRank ns)).Perm
      (PerLabel.ofList ns room) := by
    refine Neighbor.perm_of_mem_iff (Neighbor.nodup_labels_firstOfLabels _)
      (PerLabel.nodup_labels_ofList ns room) fun n => ?_
    rw [Neighbor.mem_firstOfLabels hascending, PerLabel.mem_ofList]
    exact PerLabel.leastIn_distancesOf_of_perm (Neighbor.sortByRank_perm ns) _ _
  have hsublist := Neighbor.firstOfLabels_sublist (Neighbor.sortByRank ns)
  exact (Neighbor.eq_sortByRank (hascending.sublist hsublist) hperm).symm

theorem candidates_eq_ofList? {i : Index} (shared : i.settings.mode = .multi)
    (room : i.machine.tables.hasRoom i.labelCount = true) (query : Point) :
    PerLabel.ofList? i.machine.tables (i.distances query) i.labelCount =
      some (i.candidates query) := by
  rw [PerLabel.ofList?_eq_some room, candidates_multi shared]
  rfl

/-- **Labels are ranked in the order they are met.** Take labels that are listed at their least
    distances, with a hint that there is room for: ranked they are what is met first of each label on a
    walk along the ranking of all distances, and without the room there is nothing to rank. So where
    labels are shared, where the candidates are listed with the number of labels as the hint, the
    nearest `k` are the first `k` labels met among all stored points. -/
theorem nearest_labels_first_met :
    (∀ (tables : Tables) (ns : List Neighbor) (hint : Nat),
      (PerLabel.ofList? tables ns hint).map Neighbor.sortByRank =
        if tables.hasRoom hint then some (Neighbor.firstOfLabels (Neighbor.sortByRank ns))
        else none) ∧
    ∀ i : Index, i.settings.mode = .multi →
      ∀ query : Point, query.length = i.settings.dimension.toNat → query.isFinite = true →
        let prepared := i.settings.metric.prepare query
        let walk := Neighbor.sortByRank (i.distances prepared)
        (i.machine.tables.hasRoom i.labelCount = true →
          PerLabel.ofList? i.machine.tables (i.distances prepared) i.labelCount =
            some (i.candidates prepared)) ∧
        ∀ k, 1 ≤ k →
          ∃ ns, i.nearest query k = .ok ns ∧
            ns = (Neighbor.firstOfLabels walk).take k ∧
            ns.map Neighbor.label = (walk.map Neighbor.label).eraseDups.take k := by
  constructor
  · intro tables ns hint
    by_cases room : tables.hasRoom hint = true
    · rw [PerLabel.ofList?_eq_some room, if_pos room, Option.map_some,
        Neighbor.sortByRank_eq_of_perm (tables.listing_perm _), sortByRank_ofList]
    · rw [PerLabel.ofList?, if_neg room, if_neg room, Option.map_none]
  · intro i shared query fits finite prepared walk
    refine ⟨fun room => candidates_eq_ofList? shared room prepared, fun k hk => ?_⟩
    have hranking : i.ranking prepared = Neighbor.firstOfLabels walk := by
      rw [ranking_multi shared]
      exact sortByRank_ofList _ _
    refine ⟨_, nearest_eq_ok (prepare_eq_ok fits finite) hk, ?_, ?_⟩
    · rw [hranking]
    · rw [hranking, List.map_take, Neighbor.map_label_firstOfLabels]

/-- A label that is met a second time is passed by, so the second nearest label is the third nearest
    point. -/
theorem nearest_labels_first_met_passed_by :
    ∃ i₀, create .small { dimension := 1, mode := .multi } = .ok i₀ ∧
      let i := i₀.run [(9, [.ofNat 3]), (7, [.one]), (7, [.zero false])]
      i.settings.mode = .multi ∧
      ([.zero false] : Point).length = i.settings.dimension.toNat ∧
      Point.isFinite [.zero false] = true ∧
      PerLabel.ofList? i.machine.tables (i.distances [.zero false]) 2 =
        some (i.candidates [.zero false]) ∧
      i.nearest [.zero false] 2 = .ok [⟨7, .zero false⟩, ⟨9, .ofNat 9⟩] := by
  obtain ⟨i₀, created⟩ : ∃ i₀, create .small { dimension := 1, mode := .multi } = .ok i₀ := ⟨_, rfl⟩
  refine ⟨i₀, created, ?_⟩
  intro i
  have hshared : i.settings.mode = .multi := by
    cases created
    decide +kernel
  have hfits : ([.zero false] : Point).length = i.settings.dimension.toNat := by
    cases created
    decide +kernel
  have hdistances : i.distances (i.settings.metric.prepare [.zero false]) =
      [⟨9, .ofNat 9⟩, ⟨7, .one⟩, ⟨7, .zero false⟩] := by
    cases created
    decide +kernel
  have hwalk : [⟨7, .zero false⟩, ⟨7, .one⟩, ⟨9, .ofNat 9⟩] =
      Neighbor.sortByRank [⟨9, .ofNat 9⟩, ⟨7, .one⟩, ⟨7, .zero false⟩] :=
    Neighbor.eq_sortByRank (by decide +kernel) (by decide +kernel)
  obtain ⟨hlisted, hnearest⟩ :=
    nearest_labels_first_met.2 i hshared [.zero false] hfits (by decide)
  obtain ⟨ns, hns, hfirst, -⟩ := hnearest 2 (by decide)
  rw [hdistances, ← hwalk] at hfirst
  have hroom : i.machine.tables.hasRoom i.labelCount = true ∧ i.labelCount = 2 ∧
      i.settings.metric.prepare [.zero false] = [.zero false] := by
    cases created
    decide +kernel
  obtain ⟨hroom, hcount, hprepared⟩ := hroom
  have hcandidates := hlisted hroom
  rw [hcount, hprepared] at hcandidates
  refine ⟨hshared, hfits, by decide, hcandidates, ?_⟩
  rw [hns, hfirst]
  rfl

end Index

end ExactNeighbors
