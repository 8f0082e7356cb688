import ExactNeighbors.Proofs.Index.Distance
import ExactNeighbors.Proofs.Index.Radius

set_option autoImplicit false

/-! # What is reported of a query

A query may be answered with the nearest few, with all within a radius, in batches, or with the
distance of one label. Whichever question is asked, a label is reported with the one distance it has
in the ranking (`Holds.reports_iff`): the least of the distances of the points kept under it. So what
bounds these distances bounds every answer. And whatever is kept under a label, or lies in a block, is
the prepared form of a proper point that was added (`exists_proper_of_mem_keptPoints`). -/

namespace ExactNeighbors.Index

/-- An answer to the query has this entry, whichever question it is an answer to. -/
inductive Reports (i : Index) (query : Point) : Neighbor → Prop
  | nearest {k : Nat} {ns : List Neighbor} {n : Neighbor} (answer : i.nearest query k = .ok ns)
      (mem : n ∈ ns) : Reports i query n
  | within {radius : Single} {ns : List Neighbor} {n : Neighbor}
      (answer : i.within query radius = .ok ns) (mem : n ∈ ns) : Reports i query n
  | batches {b : Batches} {n : Neighbor} (answer : i.batches query = .ok b)
      (mem : n ∈ b.ranked.toList) : Reports i query n
  | distance {label : Label} {d : Single} (answer : i.distanceFrom label query = .ok (some d)) :
      Reports i query ⟨label, d⟩

variable {i : Index} {added : List Row} {query prepared : Point} {n : Neighbor}

/-- **Every question reports the entries of one ranking.** -/
theorem Holds.reports_iff_mem_ranking (h : i.Holds added) (hprepare : i.prepare query = .ok prepared) :
    i.Reports query n ↔ n ∈ i.ranking prepared := by
  have hranking := h.isRanking prepared
  constructor
  · intro reported
    cases reported with
    | nearest answer mem =>
        rw [nearest_eq, hprepare] at answer
        obtain ⟨count, -, answer⟩ := bind_eq_ok.1 answer
        cases answer
        exact List.mem_of_mem_take mem
    | within answer mem =>
        rw [within_eq, hprepare] at answer
        obtain ⟨radius, -, answer⟩ := bind_eq_ok.1 answer
        cases answer
        exact (List.mem_filter.1 mem).1
    | batches answer mem =>
        rw [batches_eq, hprepare] at answer
        cases answer
        exact mem
    | distance answer =>
        rw [h.distanceFrom_eq_some_iff hprepare] at answer
        exact hranking.mem_iff.2 answer
  · intro mem
    exact .distance ((h.distanceFrom_eq_some_iff hprepare n.label n.distance).2
      (hranking.least n mem))

theorem Holds.reports_iff (h : i.Holds added) (hprepare : i.prepare query = .ok prepared) :
    i.Reports query n ↔ n.distance.LeastIn (keptDistances i.settings added prepared n.label) := by
  rw [h.reports_iff_mem_ranking hprepare, (h.isRanking prepared).mem_iff]

/-- A label is reported with one distance. -/
theorem Holds.reports_unique (h : i.Holds added) (hprepare : i.prepare query = .ok prepared)
    {label : Label} {d e : Single} (hd : i.Reports query ⟨label, d⟩)
    (he : i.Reports query ⟨label, e⟩) : d = e :=
  ((h.reports_iff hprepare).1 hd).unique ((h.reports_iff hprepare).1 he)

/-! ## After any calls -/

variable {machine : Machine} {settings : Settings} {i₀ : Index} {calls : List Row}

/-- A label that keeps points has a distance, the least of theirs. -/
theorem exists_distanceFrom (created : create machine settings = .ok i₀)
    (fits : query.length = settings.dimension.toNat) (finite : query.isFinite = true)
    {label : Label} (kept : keptDistances settings (i₀.accepted calls)
      (settings.metric.prepare query) label ≠ []) :
    ∃ d, (i₀.run calls).distanceFrom label query = .ok (some d) ∧
      d.LeastIn (keptDistances settings (i₀.accepted calls) (settings.metric.prepare query)
        label) := by
  obtain ⟨hsettings, hholds⟩ := holds_run created calls
  obtain ⟨d, hleast⟩ := exists_leastIn kept
  refine ⟨d, ?_, hleast⟩
  rw [hholds.distanceFrom_eq_some_iff (prepare_run created calls fits finite), hsettings]
  exact hleast

/-- **What is reported is the distance of a proper point**, both prepared. -/
theorem exists_proper_of_reports (created : create machine settings = .ok i₀)
    (fits : query.length = settings.dimension.toNat) (finite : query.isFinite = true)
    (reported : (i₀.run calls).Reports query n) :
    ∃ original : Point, original.isFinite = true ∧
      n.distance = settings.metric.kernel (settings.metric.prepare query)
        (settings.metric.prepare original) := by
  obtain ⟨hsettings, hholds⟩ := holds_run created calls
  have hleast := (hholds.reports_iff (prepare_run created calls fits finite)).1 reported
  rw [hsettings] at hleast
  exact exists_proper_of_mem_keptDistances created hleast.1

/-- So it is one that the metric may give. -/
theorem gives_of_reports (created : create machine settings = .ok i₀)
    (fits : query.length = settings.dimension.toNat) (finite : query.isFinite = true)
    (reported : (i₀.run calls).Reports query n) : settings.metric.Gives n.distance := by
  obtain ⟨original, hfinite, hdistance⟩ := exists_proper_of_reports created fits finite reported
  rw [hdistance]
  exact Metric.gives_kernel _ finite hfinite

end ExactNeighbors.Index
