import ExactNeighbors.Proofs.Index.Answers
import ExactNeighbors.Proofs.Ranking.Draining

set_option autoImplicit false

/-! # The distance of one label

The distance of a label is found through the ids of the label. The ranking is found by a scan of all
blocks and, where labels may be shared, through a table of labels. The two ways have nothing in common
but what they look for, the least of the distances that the label keeps, and as there is one least
they agree to the bit (`distance_agrees_with_ranking`). A label has no distance only if nothing was
ever added under it, and a point that was replaced counts on neither way. -/

namespace ExactNeighbors.Index

section Prepared

variable {i : Index} {added : List Row} {query prepared : Point}

theorem Holds.distanceFrom_eq_ok (h : i.Holds added) (hprepare : i.prepare query = .ok prepared)
    (label : Label) :
    i.distanceFrom label query = .ok (least? (keptDistances i.settings added prepared label)) := by
  rw [h.distanceFrom_eq, hprepare]
  rfl

theorem Holds.distanceFrom_eq_some_iff (h : i.Holds added)
    (hprepare : i.prepare query = .ok prepared) (label : Label) (d : Single) :
    i.distanceFrom label query = .ok (some d) ↔
      d.LeastIn (keptDistances i.settings added prepared label) := by
  rw [h.distanceFrom_eq_ok hprepare, Except.ok.injEq, least?_eq_some_iff]

theorem Holds.distanceFrom_eq_none_iff (h : i.Holds added)
    (hprepare : i.prepare query = .ok prepared) {label : Label} :
    i.distanceFrom label query = .ok none ↔ label ∉ added.map Prod.fst := by
  rw [h.distanceFrom_eq_ok hprepare, Except.ok.injEq, least?_eq_none_iff,
    ← keptDistances_ne_nil_iff, not_not]

/-- Asked for at least as many as there are labels, the nearest are all of the ranking. -/
theorem Holds.nearest_eq_ranking (h : i.Holds added) (hprepare : i.prepare query = .ok prepared)
    {k : Nat} (enough : max 1 i.labelCount ≤ k) :
    i.nearest query k = .ok (i.ranking prepared) := by
  have hlength := h.length_ranking prepared
  rw [nearest_eq_ok hprepare (by omega), List.take_of_length_le (by omega)]

/-- So are the batches, drained. -/
theorem drain_batches (hprepare : i.prepare query = .ok prepared) {n : Nat} (hn : 0 < n)
    (arrangement : Arrangement) :
    ∃ b served last, i.batches query = .ok b ∧ b.drain n arrangement = (served, none, last) ∧
      served.flatten.Perm (i.ranking prepared) := by
  obtain ⟨served, hdrain, -, hperm⟩ := Batches.drain_eq
    ⟨prepared, (i.ranking prepared).toArray, 0, .created⟩ hn arrangement
  refine ⟨_, served, _, ?_, hdrain, hperm⟩
  rw [batches_eq, hprepare]
  rfl

end Prepared

/-- **The distance of a label is its distance in the ranking.** After any calls and for any proper
    query there is one ranking that both the nearest, if enough are asked for, and the batches, if
    drained, consist of. A label has a distance just if it stands in the ranking with this distance,
    which is the least of the distances of the points kept under it, and has none just if no call for
    it succeeded; so none that the index contains is without. -/
theorem distance_agrees_with_ranking {machine : Machine} {settings : Settings} {i₀ : Index}
    (created : create machine settings = .ok i₀) (calls : List Row) {query : Point}
    (fits : query.length = settings.dimension.toNat) (finite : query.isFinite = true) :
    let i := i₀.run calls
    let added := i₀.accepted calls
    let prepared := settings.metric.prepare query
    ∃ R : List Neighbor,
      (∀ k, max 1 i.labelCount ≤ k → i.nearest query k = .ok R) ∧
      (∀ n arrangement, 0 < n →
        ∃ b served last, i.batches query = .ok b ∧
          b.drain n arrangement = (served, none, last) ∧ served.flatten.Perm R) ∧
      ∀ label,
        (∀ d, i.distanceFrom label query = .ok (some d) ↔ (⟨label, d⟩ : Neighbor) ∈ R) ∧
        (∀ d, i.distanceFrom label query = .ok (some d) ↔
          d.LeastIn (keptDistances settings added prepared label)) ∧
        (i.distanceFrom label query = .ok none ↔ label ∉ added.map Prod.fst) ∧
        (i.containsLabel label = true → ∃ d, i.distanceFrom label query = .ok (some d)) := by
  intro i added prepared
  obtain ⟨rfl, hholds⟩ := holds_run created calls
  have hprepare : i.prepare query = .ok prepared := prepare_eq_ok fits finite
  have hranking := hholds.isRanking prepared
  have hdistance := hholds.distanceFrom_eq_some_iff hprepare
  refine ⟨i.ranking prepared, fun k enough => hholds.nearest_eq_ranking hprepare enough,
    fun n arrangement hn => drain_batches hprepare hn arrangement, fun label => ⟨fun d => ?_,
      hdistance label, hholds.distanceFrom_eq_none_iff hprepare, fun hknown => ?_⟩⟩
  · rw [hdistance, hranking.mem_iff]
  · obtain ⟨n, hn, rfl⟩ :=
      hranking.complete label (keptDistances_ne_nil_iff.2 (hholds.containsLabel_iff.1 hknown))
    exact ⟨n.distance, (hdistance n.label n.distance).2 (hranking.least n hn)⟩

/-- A point that was replaced by one farther away, and a label that was refused. -/
theorem distance_agrees_with_ranking_replaced :
    ∃ i₀, create .small { dimension := 1 } = .ok i₀ ∧
      ([Binary.one] : Point).length = 1 ∧ Point.isFinite [Binary.one] = true ∧
      let i := i₀.run [(7, [Binary.one]), (7, [.zero false]), (9, [])]
      i.distanceFrom 7 [Binary.one] = .ok (some .one) ∧
      i.distanceFrom 9 [Binary.one] = .ok none ∧
      ∃ R, i.nearest [Binary.one] 1 = .ok R ∧ (⟨7, .one⟩ : Neighbor) ∈ R := by
  obtain ⟨i₀, created⟩ : ∃ i₀, create .small { dimension := 1 } = .ok i₀ := ⟨_, rfl⟩
  obtain ⟨R, hnearest, -, hlabel⟩ :=
    distance_agrees_with_ranking created [(7, [Binary.one]), (7, [.zero false]), (9, [])]
      (rfl : ([Binary.one] : Point).length = 1) (by decide)
  obtain ⟨hranked, hleast, -, -⟩ := hlabel 7
  obtain ⟨-, -, hnone, -⟩ := hlabel 9
  cases created
  have hseven := (hleast .one).2 (by decide +kernel)
  exact ⟨_, rfl, rfl, by decide, hseven, hnone.2 (by decide +kernel), R,
    hnearest 1 (by decide +kernel), (hranked .one).1 hseven⟩

end ExactNeighbors.Index
