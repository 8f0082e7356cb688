import ExactNeighbors.Proofs.Index.Reported

set_option autoImplicit false

/-! # Symmetric distances

Distances do not depend on which of two points comes first, in any bit. The order of a sum is fixed by
the places of its terms, so what has to be shown is that the terms are the same. A product of two
numbers is the same either way. A difference changes its sign, which its square forgets: rounding does
not tell a number and its negative apart, even where it leads to zero or past the largest number.

So it does not matter either which of two points is stored and which is asked about
(`Index.distances_symmetric`). -/

namespace ExactNeighbors

/-! ## Terms -/

namespace Binary

variable {f : Format} {x y : Binary f}

protected theorem mul_comm (x y : Binary f) : x * y = y * x := by
  have hsign : (x.negative != y.negative) = (y.negative != x.negative) := bne_comm
  change mul x y = mul y x
  unfold mul
  rw [hsign, Bool.or_comm x.isNaN, Bool.or_comm x.isInfinite, Bool.or_comm x.isZero,
    Nat.mul_comm x.significand, Nat.add_comm x.exponent]

/-- A square does not depend on the sign, not even if it is that of a zero. -/
theorem mul_self_eq_mul_self (h : x.magnitude = y.magnitude) : x * x = y * y := by
  obtain ⟨s, p, hp⟩ := x
  obtain ⟨t, q, hq⟩ := y
  obtain rfl : p = q := h
  change mul _ _ = mul _ _
  unfold mul
  rw [bne_self_eq_false, bne_self_eq_false]
  rfl

/-- Either difference of two numbers is as large as the other. -/
theorem magnitude_sub_comm (hx : x.isFinite = true) (hy : y.isFinite = true) :
    (x - y).magnitude = (y - x).magnitude := by
  have hrounds := (sub_rounded hx hy).rounds
  rw [abs_sub_comm] at hrounds
  exact hrounds.unique (sub_rounded hy hx).rounds

end Binary

/-! ## Sums over two points -/

namespace Point

variable {a b : Point}

theorem dot_comm (a b : Point) : a.dot b = b.dot a :=
  congrArg laneSum (List.zipWith_comm_of_comm Binary.mul_comm)

theorem wideDot_comm (a b : Point) : a.wideDot b = b.wideDot a := by
  rw [wideDot, wideDot, List.zipWith_comm_of_comm]
  exact fun x y => Binary.mul_comm x.widen y.widen

theorem squaredDistance_comm (ha : a.isFinite = true) (hb : b.isFinite = true) :
    a.squaredDistance b = b.squaredDistance a := by
  have hterms : List.zipWith (fun x y => (x - y) * (x - y)) a b =
      List.zipWith (fun x y => (y - x) * (y - x)) a b := by
    rw [← List.map_uncurry_zip_eq_zipWith, ← List.map_uncurry_zip_eq_zipWith]
    refine List.map_congr_left ?_
    rintro ⟨x, y⟩ hmem
    obtain ⟨hx, hy⟩ := List.of_mem_zip hmem
    exact Binary.mul_self_eq_mul_self
      (Binary.magnitude_sub_comm (List.all_eq_true.1 ha x hx) (List.all_eq_true.1 hb y hy))
  rw [squaredDistance, hterms, List.zipWith_comm]
  rfl

end Point

/-! ## Metrics -/

namespace Metric

variable {a b : Point}

theorem cosineDistance_comm (a b : Point) : cosineDistance a b = cosineDistance b a := by
  simp only [cosineDistance, Bool.or_comm a.wideNorm.isZero, Binary.mul_comm a.wideNorm,
    Point.wideDot_comm a]

/-- Points of one dimension have a distance. -/
theorem exists_distance (m : Metric) (length : a.length = b.length) :
    ∃ d, m.distance a b = .ok d := by
  unfold distance Point.checkDimension
  rw [if_pos length.symm]
  cases m with
  | l2 => exact ⟨_, rfl⟩
  | cosine => exact ⟨_, rfl⟩

/-- The reference form of either metric is symmetric. -/
theorem distance_comm (m : Metric) (ha : a.isFinite = true) (hb : b.isFinite = true)
    (length : a.length = b.length) : m.distance a b = m.distance b a := by
  unfold distance Point.checkDimension
  rw [if_pos length, if_pos length.symm]
  cases m with
  | l2 => rw [Point.squaredDistance_comm ha hb]
  | cosine => rw [cosineDistance_comm]

/-- So is the form of the scan, of points as they are prepared. -/
theorem kernel_prepare_comm (m : Metric) (ha : a.isFinite = true) (hb : b.isFinite = true) :
    m.kernel (m.prepare a) (m.prepare b) = m.kernel (m.prepare b) (m.prepare a) := by
  cases m with
  | l2 => exact Point.squaredDistance_comm ha hb
  | cosine => exact congrArg (.one - ·) (Point.dot_comm _ _)

end Metric

/-! ## Indexes -/

namespace Index

variable {machine : Machine} {settings : Settings} {i₀ : Index} {calls : List Row} {label : Label}
  {a b : Point}

/-- A label that has one point is reported with the distance of this point, which is also the distance
    of the label. -/
theorem reports_of_points_eq_singleton (created : create machine settings = .ok i₀)
    (fits : b.length = settings.dimension.toNat) (finite : b.isFinite = true)
    (stored : (i₀.run calls).points? label = some [settings.metric.prepare a]) :
    let distance := settings.metric.kernel (settings.metric.prepare b) (settings.metric.prepare a)
    (i₀.run calls).distanceFrom label b = .ok (some distance) ∧
      ∀ d, (i₀.run calls).Reports b ⟨label, d⟩ ↔ d = distance := by
  intro distance
  obtain ⟨hsettings, hholds⟩ := holds_run created calls
  have hprepare := prepare_run created calls fits finite
  have hleast (d : Single) : d.LeastIn (keptDistances (i₀.run calls).settings (i₀.accepted calls)
      (settings.metric.prepare b) label) ↔ d = distance := by
    rw [keptDistances, ← hholds.points_eq stored, hsettings, List.map_singleton,
      Binary.leastIn_iff_mem le_rfl, List.mem_singleton]
  constructor
  · rw [hholds.distanceFrom_eq_some_iff hprepare, hleast]
  · intro d
    rw [hholds.reports_iff hprepare, hleast]

/-- **Distances are symmetric to the bit.** Of two finite points of one dimension the order does not
    matter, neither to the reference form of a metric nor to the form of the scan. So take two indexes
    of the metric after any calls, one with one of the points as all that is stored under a label, the
    other with the other. Asked about the other point, each reports its label with the same
    distance, whichever question is asked. -/
theorem distances_symmetric (m : Metric) (ha : a.isFinite = true) (hb : b.isFinite = true)
    (length : a.length = b.length) :
    (∃ d, m.distance a b = .ok d ∧ m.distance b a = .ok d) ∧
    m.kernel (m.prepare a) (m.prepare b) = m.kernel (m.prepare b) (m.prepare a) ∧
    ∀ (machine machine' : Machine) (settings settings' : Settings) (i₀ j₀ : Index),
      create machine settings = .ok i₀ → create machine' settings' = .ok j₀ →
      settings.metric = m → settings'.metric = m →
      a.length = settings.dimension.toNat → b.length = settings'.dimension.toNat →
      ∀ (calls calls' : List Row) (label label' : Label),
        (i₀.run calls).points? label = some [m.prepare a] →
        (j₀.run calls').points? label' = some [m.prepare b] →
        (∃ d, (i₀.run calls).distanceFrom label b = .ok (some d) ∧
          (j₀.run calls').distanceFrom label' a = .ok (some d)) ∧
        ∀ d, (i₀.run calls).Reports b ⟨label, d⟩ ↔ (j₀.run calls').Reports a ⟨label', d⟩ := by
  have hkernel := m.kernel_prepare_comm ha hb
  refine ⟨?_, hkernel, ?_⟩
  · obtain ⟨d, hd⟩ := Metric.exists_distance m length
    exact ⟨d, hd, (m.distance_comm ha hb length).symm.trans hd⟩
  · intro machine machine' settings settings' i₀ j₀ created created' hmetric hmetric' fits fits'
      calls calls' label label' stored stored'
    rw [← hmetric] at stored
    rw [← hmetric'] at stored'
    obtain ⟨hdistance, hreports⟩ :=
      reports_of_points_eq_singleton created (length ▸ fits) hb stored
    obtain ⟨hdistance', hreports'⟩ :=
      reports_of_points_eq_singleton created' (length ▸ fits') ha stored'
    rw [hmetric, ← hkernel] at hdistance hreports
    rw [hmetric'] at hdistance' hreports'
    exact ⟨⟨_, hdistance, hdistance'⟩, fun d => (hreports d).trans (hreports' d).symm⟩

/-- Points whose difference is infinite, stored and asked about either way. -/
theorem distances_symmetric_infinite :
    let largest : Single := .ofBits .single 0x7f7fffff
    ∃ i₀, create .small { dimension := 2 } = .ok i₀ ∧
      (i₀.run [(7, [largest, .zero true])]).distanceFrom 7 [-largest, .one] =
        .ok (some (.infinite false)) ∧
      (i₀.run [(9, [-largest, .one])]).distanceFrom 9 [largest, .zero true] =
        .ok (some (.infinite false)) := by
  intro largest
  obtain ⟨i₀, created⟩ : ∃ i₀, create .small { dimension := 2 } = .ok i₀ := ⟨_, rfl⟩
  have hdistance : (i₀.run [(7, [largest, .zero true])]).distanceFrom 7 [-largest, .one] =
      .ok (some (.infinite false)) := by
    cases created
    decide +kernel
  obtain ⟨-, -, hstored⟩ := distances_symmetric .l2 (a := [largest, .zero true])
    (b := [-largest, .one]) (by decide) (by decide) rfl
  obtain ⟨⟨d, hd, hd'⟩, -⟩ := hstored _ _ _ _ i₀ i₀ created created rfl rfl rfl rfl
    [(7, [largest, .zero true])] [(9, [-largest, .one])] 7 9
    (by cases created; decide +kernel) (by cases created; decide +kernel)
  rw [hdistance] at hd
  cases hd
  exact ⟨i₀, created, hdistance, hd'⟩

end Index

end ExactNeighbors
