import ExactNeighbors.Proofs.Index.Reported
import ExactNeighbors.Proofs.Point.Zero

set_option autoImplicit false

/-! # Cosine indexes

A cosine index normalizes what it stores. The components it stores are finite and at most one in
size, whatever the magnitudes of those that were added, and normalizing loses no sign
(`Index.normalized_components`).

A point of zeros cannot be normalized and is stored as it is. That it counts as being at distance one
from every point is a convention, which the reference form follows by a test of the norms. The scan
has no such test, but keeps to the convention (`Index.zero_points_at_one`). If labels are shared, a
label that holds a point of zeros may of course be nearer by another of its points. -/

namespace ExactNeighbors

namespace Metric

variable {a b : Point}

/-- Preparing for the cosine metric bounds the components. -/
theorem bounded_prepare_cosine (ha : a.isFinite = true) : ∀ x ∈ prepare .cosine a, x.Bounded 0 :=
  Point.bounded_normalize (List.all_eq_true.1 ha)

/-- Points of zeros are prepared as they are. -/
theorem prepare_cosine_of_isZero (ha : a.isFinite = true) (h : a.isZero = true) :
    prepare .cosine a = a :=
  Point.normalize_of_isZero (List.all_eq_true.1 ha) h

/-- **A prepared point of zeros is at distance one from every prepared point.** -/
theorem kernel_prepare_of_isZero (ha : a.isFinite = true) (hb : b.isFinite = true)
    (h : a.isZero = true ∨ b.isZero = true) :
    kernel .cosine (prepare .cosine a) (prepare .cosine b) = .one := by
  have hfinite {c : Point} (hc : c.isFinite = true) : ∀ x ∈ prepare .cosine c, x.isFinite = true :=
    fun x hx => (bounded_prepare_cosine hc x hx).finite
  refine kernel_of_isZero (hfinite ha) (hfinite hb) ?_
  rcases h with h | h
  · rw [prepare_cosine_of_isZero ha h]
    exact .inl h
  · rw [prepare_cosine_of_isZero hb h]
    exact .inr h

/-- The reference form, asked about points of one dimension. -/
theorem distance_cosine_of_isZero (length : a.length = b.length)
    (h : a.isZero = true ∨ b.isZero = true) : distance .cosine a b = .ok .one := by
  rw [distance, Point.checkDimension, if_pos length.symm]
  exact congrArg Except.ok (cosineDistance_of_isZero h)

end Metric

namespace Index

variable {machine : Machine} {settings : Settings} {i₀ : Index}

/-! ## Stored components -/

/-- Whatever is kept under the cosine metric is bounded. -/
theorem bounded_of_mem_keptPoints (created : create machine settings = .ok i₀)
    (cosine : settings.metric = .cosine) {calls : List Row} {label : Label} {point : Point}
    (h : point ∈ keptPoints settings (i₀.accepted calls) label) : ∀ x ∈ point, x.Bounded 0 := by
  obtain ⟨original, -, hfinite, rfl⟩ := exists_proper_of_mem_keptPoints created h
  rw [cosine]
  exact Metric.bounded_prepare_cosine hfinite

/-- **Stored components are bounded, and only points of zeros have norm zero.** The norm of a finite
    point is a finite number, zero just for points of zeros. Normalizing leaves these as they are and
    makes every component of another point a finite number that is at most one in size and has the
    sign it had. So after any calls to a cosine index all components in its blocks, and all of the
    points it returns, are finite and at most one in size. -/
theorem normalized_components (created : create machine settings = .ok i₀)
    (cosine : settings.metric = .cosine) (calls : List Row) :
    let i := i₀.run calls
    (∀ a : Point, a.isFinite = true →
      a.wideNorm.isFinite = true ∧ a.wideNorm.isNaN = false ∧
      (a.wideNorm.isZero = true ↔ ∀ x ∈ a, x.isZero = true) ∧
      ((∀ x ∈ a, x.isZero = true) → a.normalize = a) ∧
      List.Forall₂ (fun x y => y.isFinite = true ∧ |y.value| ≤ 1 ∧ y.negative = x.negative)
        a a.normalize) ∧
    (∀ b ∈ i.store.blocks.toList, ∀ x ∈ b.components.toList, x.isFinite = true ∧ |x.value| ≤ 1) ∧
    ∀ label points, i.points? label = some points →
      ∀ p ∈ points, ∀ x ∈ p, x.isFinite = true ∧ |x.value| ≤ 1 := by
  intro i
  obtain ⟨hsettings, hholds⟩ := holds_run created calls
  have hunit (x : Single) (hx : x.Bounded 0) : x.isFinite = true ∧ |x.value| ≤ 1 :=
    ⟨hx.finite, by simpa using hx.abs_le⟩
  have hkept {label : Label} {point : Point}
      (h : point ∈ keptPoints i.settings (i₀.accepted calls) label) : ∀ x ∈ point, x.Bounded 0 := by
    rw [hsettings] at h
    exact bounded_of_mem_keptPoints created cosine h
  refine ⟨fun a ha => ?_, ?_, ?_⟩
  · rw [Point.isFinite, List.all_eq_true] at ha
    obtain ⟨hnorm, -, -⟩ := Point.wideNorm_spec ha
    refine ⟨hnorm, Binary.isNaN_of_isFinite hnorm, ?_, fun h => ?_, ?_⟩
    · rw [Point.isZero_wideNorm ha, Point.isZero_iff]
    · exact Point.normalize_of_isZero ha (Point.isZero_iff.2 h)
    · refine (Point.forall₂_normalize ha).imp fun x y h => ?_
      obtain ⟨hfinite, hle⟩ := hunit y h.1
      exact ⟨hfinite, hle, h.2⟩
  · intro b hb x hx
    obtain ⟨label, point, hpoint, hx⟩ := hholds.exists_of_mem_components hb hx
    exact hunit x (hkept hpoint x hx)
  · intro label points stored p hp x hx
    rw [hholds.points_eq stored] at hp
    exact hunit x (hkept hp x hx)

/-- The point of the smallest number there is has a norm and is normalized to one. -/
theorem normalized_components_smallest :
    let smallest : Single := .ofBits .single 0x80000001
    ∃ i₀, create .small { dimension := 1, metric := .cosine } = .ok i₀ ∧
      Point.isFinite [smallest] = true ∧ Point.wideNorm [smallest] ≠ .zero false ∧
      (i₀.run [(7, [smallest])]).points? 7 = some [[-.one]] ∧ |(-.one : Single).value| ≤ 1 := by
  intro smallest
  obtain ⟨i₀, created⟩ : ∃ i₀, create .small { dimension := 1, metric := .cosine } = .ok i₀ :=
    ⟨_, rfl⟩
  obtain ⟨hpoint, -, hstored⟩ := normalized_components created rfl [(7, [smallest])]
  obtain ⟨-, -, hzero, -, -⟩ := hpoint [smallest] (by decide)
  have hsmallest : (i₀.run [(7, [smallest])]).points? 7 = some [[-.one]] := by
    cases created
    decide +kernel
  refine ⟨i₀, created, by decide, fun hnorm => ?_, hsmallest, ?_⟩
  · have hall := hzero.1 (by rw [hnorm]; rfl) smallest (List.mem_singleton_self _)
    exact absurd hall (by decide)
  · exact (hstored 7 _ hsmallest _ (List.mem_singleton_self _) _ (List.mem_singleton_self _)).2

/-! ## Points of zeros -/

variable {query : Point}

/-- A query of zeros is at distance one from whatever is reported of it. -/
theorem distance_eq_one_of_reports (created : create machine settings = .ok i₀)
    (cosine : settings.metric = .cosine) {calls : List Row}
    (fits : query.length = settings.dimension.toNat) (finite : query.isFinite = true)
    (hzero : query.isZero = true) {n : Neighbor} (reported : (i₀.run calls).Reports query n) :
    n.distance = .one := by
  obtain ⟨original, hfinite, hdistance⟩ := exists_proper_of_reports created fits finite reported
  rw [hdistance, cosine]
  exact Metric.kernel_prepare_of_isZero finite hfinite (.inl hzero)

/-- A label that keeps a point of zeros keeps the distance one to every query. -/
theorem one_mem_keptDistances (created : create machine settings = .ok i₀)
    (cosine : settings.metric = .cosine) {calls : List Row} (finite : query.isFinite = true)
    {label : Label} {point : Point} (hpoint : point ∈ keptPoints settings (i₀.accepted calls) label)
    (hzero : point.isZero = true) :
    .one ∈ keptDistances settings (i₀.accepted calls) (settings.metric.prepare query) label := by
  refine List.mem_map.2 ⟨point, hpoint, ?_⟩
  have hbounded := bounded_of_mem_keptPoints created cosine hpoint
  rw [cosine]
  exact Metric.kernel_of_isZero (fun x hx => (Metric.bounded_prepare_cosine finite x hx).finite)
    (fun x hx => (hbounded x hx).finite) (.inr hzero)

/-- **Points of zeros are at distance one.** If one of two finite points of a dimension is of zeros, of
    whatever signs, their distance is one, in the reference form as well as in the scan. So after any
    calls to a cosine index a query of zeros has distance one to every label, and a label that holds a
    point of zeros has a distance of at most one to every query, which is one unless labels are
    shared. -/
theorem zero_points_at_one (created : create machine settings = .ok i₀)
    (cosine : settings.metric = .cosine) (calls : List Row)
    (fits : query.length = settings.dimension.toNat) (finite : query.isFinite = true) :
    let i := i₀.run calls
    (∀ a b : Point, a.length = b.length → a.isFinite = true → b.isFinite = true →
      a.isZero = true ∨ b.isZero = true →
      Metric.distance .cosine a b = .ok .one ∧
      Metric.kernel .cosine (Metric.prepare .cosine a) (Metric.prepare .cosine b) = .one) ∧
    (query.isZero = true →
      (∀ label, i.containsLabel label = true → i.distanceFrom label query = .ok (some .one)) ∧
      ∀ n, i.Reports query n → n.distance = .one) ∧
    ∀ label points, i.points? label = some points → (∃ p ∈ points, p.isZero = true) →
      ∃ d, i.distanceFrom label query = .ok (some d) ∧ d.le .one = true ∧
        (settings.mode = .single → d = .one) ∧ ∀ e, i.Reports query ⟨label, e⟩ → e = d := by
  intro i
  obtain ⟨hsettings, hholds⟩ := holds_run created calls
  have hprepare : i.prepare query = .ok (settings.metric.prepare query) :=
    prepare_run created calls fits finite
  refine ⟨fun a b length ha hb h => ?_, fun hzero => ⟨fun label known => ?_, fun n reported => ?_⟩,
    ?_⟩
  · exact ⟨Metric.distance_cosine_of_isZero length h, Metric.kernel_prepare_of_isZero ha hb h⟩
  · obtain ⟨d, hd, -⟩ := exists_distanceFrom created fits finite
      (keptDistances_ne_nil_iff.2 (hholds.containsLabel_iff.1 known))
    obtain rfl : d = .one :=
      distance_eq_one_of_reports created cosine fits finite hzero (.distance hd)
    exact hd
  · exact distance_eq_one_of_reports created cosine fits finite hzero reported
  · rintro label points stored ⟨p, hp, hzero⟩
    rw [hholds.points_eq stored, hsettings] at hp
    have hone := one_mem_keptDistances created cosine finite hp hzero
    obtain ⟨d, hd, hleast⟩ := exists_distanceFrom created fits finite (List.ne_nil_of_mem hone)
    have hgives : settings.metric.Gives d := gives_of_reports created fits finite (.distance hd)
    refine ⟨d, hd, ?_, fun hmode => ?_, fun e he => hholds.reports_unique hprepare he (.distance hd)⟩
    · exact Binary.le_of_totalKey_le hgives.isNaN_eq (Binary.totalCompare_ne_gt.1 (hleast.2 _ hone))
        (by decide)
    · -- one point is kept, and so one distance
      have halone : (keptDistances settings (i₀.accepted calls) (settings.metric.prepare query)
          label).length ≤ 1 := by
        rw [keptDistances, keptPoints, hmode, List.length_map, List.length_map]
        exact LabelMode.length_kept_single _
      exact hleast.unique ((Binary.leastIn_iff_mem halone).2 hone)

/-- A label that holds a point of zeros besides the one that is asked about is at distance zero, and
    at distance one from a query of zeros. -/
theorem zero_points_at_one_shared :
    ∃ i₀, create .small { dimension := 1, metric := .cosine, mode := .multi } = .ok i₀ ∧
      ([.zero true] : Point).length = 1 ∧ Point.isFinite [.zero true] = true ∧
      let i := i₀.run [(7, [.zero true]), (9, [.zero false]), (9, [Binary.one])]
      i.distanceFrom 9 [.zero true] = .ok (some .one) ∧
      i.distanceFrom 9 [Binary.one] = .ok (some (.zero false)) ∧
      ∃ d, i.distanceFrom 7 [Binary.one] = .ok (some d) ∧ d.le .one = true := by
  obtain ⟨i₀, created⟩ :
    ∃ i₀, create .small { dimension := 1, metric := .cosine, mode := .multi } = .ok i₀ := ⟨_, rfl⟩
  obtain ⟨-, hzeros, -⟩ :=
    zero_points_at_one created rfl [(7, [.zero true]), (9, [.zero false]), (9, [Binary.one])]
      (rfl : ([.zero true] : Point).length = 1) (by decide)
  obtain ⟨-, -, hholding⟩ :=
    zero_points_at_one created rfl [(7, [.zero true]), (9, [.zero false]), (9, [Binary.one])]
      (rfl : ([Binary.one] : Point).length = 1) (by decide)
  obtain ⟨hlabels, -⟩ := hzeros rfl
  cases created
  obtain ⟨d, hd, hle, -⟩ := hholding 7 [[.zero true]] (by decide +kernel) ⟨_, .head _, rfl⟩
  exact ⟨_, rfl, rfl, by decide, hlabels 9 (by decide +kernel), by decide +kernel, d, hd, hle⟩

end Index

end ExactNeighbors
