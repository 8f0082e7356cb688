import ExactNeighbors.Proofs.Index.Answers
import ExactNeighbors.Proofs.Point.Normalize

set_option autoImplicit false

/-! # Distances and radii

No distance of an index is anything but a number, whatever the magnitudes of the finite components
that were stored and asked about. Squared distances may overflow but keep off a sign; cosine
distances are finite, since components are normalized. So the infinite radius covers every label
(`Index.distances_are_numbers`).

The zero radius covers the labels at distance zero and, if there are any, those below it
(`Index.within_zero`). Squared distances are never below zero. A cosine distance may be, by a rounding
error: the products of two normalized points may add up to more than one
(`Index.within_zero_other_direction`). -/

namespace ExactNeighbors

/-! ## Distances between prepared points -/

/-- The distances that a metric may give. -/
def Metric.Gives : Metric → Single → Prop
  | .l2, d => d.negative = false ∧ (d.isInfinite = true ∨ d.isFinite = true)
  | .cosine, d => d.isFinite = true

theorem Metric.Gives.isNaN_eq {m : Metric} {d : Single} (h : m.Gives d) : d.isNaN = false := by
  cases m with
  | l2 =>
      rcases h.2 with hinfinite | hfinite
      · exact decide_eq_false (of_decide_eq_true hinfinite ▸ Nat.lt_irrefl _)
      · exact Binary.isNaN_of_isFinite hfinite
  | cosine => exact Binary.isNaN_of_isFinite h

/-- The distance of two prepared points is one that the metric may give. -/
theorem Metric.gives_kernel (m : Metric) {a b : Point} (ha : a.isFinite = true)
    (hb : b.isFinite = true) : m.Gives (m.kernel (m.prepare a) (m.prepare b)) := by
  rw [Point.isFinite, List.all_eq_true] at ha hb
  cases m with
  | l2 =>
      have hplain := Point.plain_squaredDistance ha hb
      exact ⟨hplain.clear, Binary.isInfinite_or_isFinite hplain.number⟩
  | cosine =>
      have hdot := Point.bounded_dot (Point.bounded_normalize ha) (Point.bounded_normalize hb)
      obtain ⟨hone, hvalue⟩ := Binary.one_exact (f := .single)
      refine ((Binary.sub_rounded hone hdot.finite).bounded (k := 49) (by decide) ?_).finite
      rw [hvalue]
      refine (abs_sub _ _).trans ((add_le_add_right hdot.abs_le _).trans ?_)
      norm_num

namespace Index

variable {i : Index} {added : List Row}

/-- The distances of points and of labels are distances that are kept. -/
theorem Holds.mem_keptDistances (h : i.Holds added) {query : Point} {n : Neighbor}
    (hn : n ∈ i.distances query ∨ n ∈ i.candidates query) :
    n.distance ∈ keptDistances i.settings added query n.label := by
  rcases hn with hn | hn
  · obtain ⟨-, rows, hrows, hkept⟩ := h
    rw [distances_eq hrows, mem_map_neighbor, hkept] at hn
    exact hn
  · exact ((h.isRanking query).least n ((Neighbor.sortByRank_perm _).mem_iff.2 hn)).1

/-- After any calls every distance to a proper query is one that the metric may give. -/
theorem gives_distance {machine : Machine} {settings : Settings} {i₀ : Index}
    (created : create machine settings = .ok i₀)
    (calls : List Row) {query : Point} (finite : query.isFinite = true) {n : Neighbor}
    (hn : n ∈ (i₀.run calls).distances (settings.metric.prepare query) ∨
      n ∈ (i₀.run calls).candidates (settings.metric.prepare query)) :
    settings.metric.Gives n.distance := by
  obtain ⟨hsettings, hholds⟩ := holds_run created calls
  have hkept := hholds.mem_keptDistances hn
  rw [hsettings] at hkept
  obtain ⟨original, hfinite, hdistance⟩ := exists_proper_of_mem_keptDistances created hkept
  rw [hdistance]
  exact Metric.gives_kernel _ finite hfinite

theorem prepare_run {machine : Machine} {settings : Settings} {i₀ : Index}
    (created : create machine settings = .ok i₀)
    (calls : List Row) {query : Point} (fits : query.length = settings.dimension.toNat)
    (finite : query.isFinite = true) :
    (i₀.run calls).prepare query = .ok (settings.metric.prepare query) := by
  obtain ⟨hsettings, -⟩ := holds_run created calls
  have hok : (i₀.run calls).prepare query = .ok ((i₀.run calls).settings.metric.prepare query) :=
    prepare_eq_ok (by rwa [hsettings]) finite
  rwa [hsettings] at hok

/-! ## The infinite radius -/

/-- **Distances are numbers.** After any calls, the distances of all stored points to a finite query
    and those of all labels are numbers: squared distances are infinite or finite and have no sign,
    cosine distances are finite. So the infinite radius covers every label, once. -/
theorem distances_are_numbers {machine : Machine} {settings : Settings} {i₀ : Index}
    (created : create machine settings = .ok i₀) (calls : List Row) {query : Point}
    (fits : query.length = settings.dimension.toNat) (finite : query.isFinite = true) :
    let i := i₀.run calls
    let prepared := settings.metric.prepare query
    (∀ n, n ∈ i.distances prepared ∨ n ∈ i.candidates prepared →
      n.distance.isNaN = false ∧
      match settings.metric with
      | .l2 => n.distance.negative = false ∧
          (n.distance.isInfinite = true ∨ n.distance.isFinite = true)
      | .cosine => n.distance.isFinite = true) ∧
    ∃ ns, i.within query (.infinite false) = .ok ns ∧ (ns.map Neighbor.label).Nodup ∧
      ∀ l, l ∈ ns.map Neighbor.label ↔ i.containsLabel l = true := by
  intro i prepared
  have hgives (n : Neighbor) (hn : n ∈ i.distances prepared ∨ n ∈ i.candidates prepared) :
      settings.metric.Gives n.distance := gives_distance created calls finite hn
  obtain ⟨-, hholds⟩ := holds_run created calls
  have hprepare : i.prepare query = .ok prepared := prepare_run created calls fits finite
  have hwithin : i.within query (.infinite false) = .ok (i.ranking prepared) := by
    rw [within_eq_ok hprepare rfl rfl, List.filter_eq_self.2]
    intro n hn
    have hcandidate := (Neighbor.sortByRank_perm _).mem_iff.1 hn
    exact Binary.le_infinite (hgives n (Or.inr hcandidate)).isNaN_eq
  refine ⟨fun n hn => ⟨(hgives n hn).isNaN_eq, ?_⟩, i.ranking prepared, hwithin,
    (hholds.isRanking prepared).once, ?_⟩
  · have h := hgives n hn
    cases hmetric : settings.metric <;> rw [hmetric] at h <;> exact h
  · intro l
    rw [hholds.containsLabel_iff, hholds.mem_labels_ranking]

/-- The largest component and its negative are infinitely far apart. -/
theorem distances_are_numbers_overflow :
    ∃ i₀ largest, create .small { dimension := 1 } = .ok i₀ ∧ Point.isFinite [largest] = true ∧
      (i₀.run [(7, [-largest])]).distances [largest] = [⟨7, .infinite false⟩] ∧
      ∃ ns, (i₀.run [(7, [-largest])]).within [largest] (.infinite false) = .ok ns ∧
        7 ∈ ns.map Neighbor.label := by
  obtain ⟨i₀, created⟩ : ∃ i₀, create .small { dimension := 1 } = .ok i₀ := ⟨_, rfl⟩
  refine ⟨i₀, .ofBits .single 0x7f7fffff, created, by decide, ?_, ?_⟩
  · cases created
    decide +kernel
  · obtain ⟨-, ns, hns, -, hlabels⟩ :=
      distances_are_numbers created [(7, [-.ofBits .single 0x7f7fffff])]
        (rfl : ([.ofBits .single 0x7f7fffff] : Point).length = 1) (by decide)
    refine ⟨ns, hns, (hlabels 7).2 ?_⟩
    cases created
    decide +kernel

/-! ## The zero radius -/

/-- **The zero radius covers the labels at distance zero, and those below.** It covers just the labels
    at distance zero if and only if no label is below zero, as is always so for squared distances. -/
theorem within_zero {machine : Machine} {settings : Settings} {i₀ : Index}
    (created : create machine settings = .ok i₀)
    (calls : List Row) {query : Point} (fits : query.length = settings.dimension.toNat)
    (finite : query.isFinite = true) :
    let i := i₀.run calls
    let prepared := settings.metric.prepare query
    ∃ ns, i.within query (.zero false) = .ok ns ∧
      ((∀ n, n ∈ ns ↔ n ∈ i.candidates prepared ∧ n.distance.isZero = true) ↔
        ∀ n ∈ i.candidates prepared, n.distance.lt (.zero false) = false) ∧
      (settings.metric = .l2 →
        ∀ n, n ∈ ns ↔ n ∈ i.candidates prepared ∧ n.distance = .zero false) := by
  intro i prepared
  have hprepare : i.prepare query = .ok prepared := prepare_run created calls fits finite
  have hmem (n : Neighbor) :
      n ∈ (i.ranking prepared).filter (fun n => n.distance.le (.zero false)) ↔
        n ∈ i.candidates prepared ∧
          (n.distance.isZero = true ∨ n.distance.lt (.zero false) = true) := by
    rw [List.mem_filter, Binary.le_zero_iff, ranking, (Neighbor.sortByRank_perm _).mem_iff]
  refine ⟨_, within_eq_ok hprepare rfl rfl, ⟨?_, ?_⟩, ?_⟩
  · intro hzero n hn
    refine Bool.eq_false_iff.2 fun hlt => ?_
    have hiszero := ((hzero n).1 ((hmem n).2 ⟨hn, Or.inr hlt⟩)).2
    rw [Binary.lt_zero_of_isZero hiszero] at hlt
    exact Bool.noConfusion hlt
  · intro hnone n
    rw [hmem]
    refine and_congr_right fun hn => or_iff_left fun hlt => ?_
    rw [hnone n hn] at hlt
    exact Bool.noConfusion hlt
  · intro hmetric n
    rw [hmem, Binary.eq_zero_iff]
    refine and_congr_right fun hn => ?_
    have hgives := gives_distance created calls finite (Or.inr hn)
    rw [hmetric] at hgives
    have hclear : n.distance.negative = false := hgives.1
    rw [Binary.lt_zero_of_positive hclear, or_iff_left Bool.false_ne_true, and_iff_left hclear]

/-- Of two stored points the zero radius covers the one that is asked about. -/
theorem within_zero_self :
    ∃ i₀, create .small { dimension := 1 } = .ok i₀ ∧ Point.isFinite [Binary.one] = true ∧
      ∃ ns, (i₀.run [(7, [Binary.one]), (9, [.zero false])]).within [Binary.one] (.zero false) = .ok ns ∧
        ⟨7, .zero false⟩ ∈ ns ∧ 9 ∉ ns.map Neighbor.label := by
  obtain ⟨i₀, created⟩ : ∃ i₀, create .small { dimension := 1 } = .ok i₀ := ⟨_, rfl⟩
  obtain ⟨ns, hns, -, hexact⟩ := within_zero created [(7, [Binary.one]), (9, [.zero false])]
    (rfl : ([Binary.one] : Point).length = 1) (by decide)
  refine ⟨i₀, created, by decide, ns, hns, (hexact rfl _).2 ⟨?_, rfl⟩, ?_⟩
  · cases created
    decide +kernel
  · intro hmem
    obtain ⟨n, hn, hlabel⟩ := List.mem_map.1 hmem
    obtain ⟨hcandidate, hdistance⟩ := (hexact rfl n).1 hn
    obtain ⟨l, d⟩ := n
    cases hlabel
    cases hdistance
    have hnot : (⟨9, .zero false⟩ : Neighbor) ∉
        (i₀.run [(7, [Binary.one]), (9, [.zero false])]).candidates [Binary.one] := by
      cases created
      decide +kernel
    exact hnot hcandidate

/-- Under the cosine metric `(6, 317)` is at a distance below zero from `(3, 158)`, which has another
    direction: the products of the normalized components add up to more than one. So the zero radius
    covers a label, and yet no label is at distance zero. -/
theorem within_zero_other_direction :
    ∃ i₀, create .small { dimension := 2, metric := .cosine } = .ok i₀ ∧
      (i₀.run [(7, [.ofNat 3, .ofNat 158])]).within [.ofNat 6, .ofNat 317] (.zero false) =
        .ok [⟨7, .ofBits .single 0xb4000000⟩] ∧
      (Binary.ofBits .single 0xb4000000).isZero = false := by
  obtain ⟨i₀, created⟩ : ∃ i₀, create .small { dimension := 2, metric := .cosine } = .ok i₀ :=
    ⟨_, rfl⟩
  refine ⟨i₀, created, ?_, by decide⟩
  cases created
  decide +kernel

end Index

end ExactNeighbors
