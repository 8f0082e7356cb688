import ExactNeighbors.Proofs.Index.Reported
import ExactNeighbors.Proofs.Point.Zero

set_option autoImplicit false

/-! # Stored points find themselves

The squared distance of a point from itself is the zero without a sign, whatever the components
(`Point.squaredDistance_self`), and no squared distance precedes that zero. So a label that holds the
point that is asked about is at that distance, every radius reaches it, and the nearest label is one
such label, the smallest (`Index.stored_point_at_zero`). -/

namespace ExactNeighbors

/-- What has no sign does not precede zero. -/
theorem Binary.totalKey_zero_le {f : Format} {x : Binary f} (h : x.negative = false) :
    (zero false : Binary f).totalKey ≤ x.totalKey := by
  rw [totalKey, totalKey, h]
  exact Int.ofNat_le.2 (Nat.zero_le x.magnitude)

/-- Every radius reaches distance zero, one of zero with a sign too. -/
theorem Radius.accepts_zero (radius : Radius) : radius.accepts (.zero false) = true := by
  obtain ⟨hnumber, hsign⟩ := Bool.or_eq_false_iff.1 radius.accepted
  rw [accepts, ← Bool.not_eq_false]
  intro hle
  rw [Binary.lt_of_le_eq_false (Binary.isNaN_zero false) hnumber hle] at hsign
  cases hsign

/-- Among neighbors at one distance labels decide. -/
theorem Neighbor.label_le_of_le {a b : Neighbor} (h : a ≤ b) (same : a.distance = b.distance) :
    a.label ≤ b.label := by
  refine UInt64.not_lt.1 fun hlt => not_lt.2 h (lt_iff.2 (Or.inr ⟨?_, hlt⟩))
  rw [same]

/-- The first of a ranking ranks within all of it. -/
theorem IsRanking.first_le {distances : Label → List Single} {first : Neighbor}
    {rest : List Neighbor} (h : IsRanking distances (first :: rest)) {n : Neighbor}
    (hn : n ∈ first :: rest) : first ≤ n := by
  rcases List.mem_cons.1 hn with rfl | hn
  · exact le_refl n
  · exact le_of_lt (Neighbor.ranksBefore_iff.1 (List.rel_of_pairwise_cons h.ascending hn))

namespace Index

variable {machine : Machine} {settings : Settings} {i₀ : Index} {calls : List Row} {query : Point}

/-- No squared distance that is reported precedes zero. -/
theorem totalKey_zero_le_of_reports (created : create machine settings = .ok i₀)
    (l2 : settings.metric = .l2) (fits : query.length = settings.dimension.toNat)
    (finite : query.isFinite = true) {n : Neighbor} (reported : (i₀.run calls).Reports query n) :
    (Binary.zero false : Single).totalKey ≤ n.distance.totalKey := by
  have hgives := gives_of_reports created fits finite reported
  rw [l2] at hgives
  exact Binary.totalKey_zero_le hgives.1

/-- A label that holds the point that is asked about is at distance zero. -/
theorem distanceFrom_self (created : create machine settings = .ok i₀) (l2 : settings.metric = .l2)
    (fits : query.length = settings.dimension.toNat) (finite : query.isFinite = true)
    {label : Label} (kept : query ∈ keptPoints settings (i₀.accepted calls) label) :
    (i₀.run calls).distanceFrom label query = .ok (some (.zero false)) := by
  have hzero : .zero false ∈ keptDistances settings (i₀.accepted calls)
      (settings.metric.prepare query) label := by
    refine List.mem_map.2 ⟨query, kept, ?_⟩
    rw [l2]
    exact Point.squaredDistance_self (List.all_eq_true.1 finite)
  obtain ⟨d, hd, hleast⟩ := exists_distanceFrom created fits finite (List.ne_nil_of_mem hzero)
  have hle := totalKey_zero_le_of_reports created l2 fits finite (.distance hd)
  have hge := Binary.totalCompare_ne_gt.1 (hleast.2 _ hzero)
  rwa [Binary.totalKey_inj.1 (Int.le_antisymm hge hle)] at hd

/-- **A stored point finds itself.** After any calls to an index of squared distances, take any point
    stored under a label as the query. The distance of the label is zero, without a sign; every radius
    that is accepted reaches it; and the nearest is one entry, the smallest of the labels at that
    distance. -/
theorem stored_point_at_zero
    (created : create machine settings = .ok i₀) (l2 : settings.metric = .l2)
    (calls : List Row) {label : Label} {points : List Point} {point : Point}
    (stored : (i₀.run calls).points? label = some points) (mem : point ∈ points) :
    let i := i₀.run calls
    i.distanceFrom label point = .ok (some (.zero false)) ∧
    (∀ radius accepted, Radius.ofSingle radius = .ok accepted →
      ∃ ns, i.within point radius = .ok ns ∧ ⟨label, .zero false⟩ ∈ ns) ∧
    ∃ first, i.nearest point 1 = .ok [⟨first, .zero false⟩] ∧
      i.distanceFrom first point = .ok (some (.zero false)) ∧
      ∀ other, i.distanceFrom other point = .ok (some (.zero false)) → first ≤ other := by
  intro i
  obtain ⟨hsettings, hholds⟩ := holds_run created calls
  rw [hholds.points_eq stored, hsettings] at mem
  obtain ⟨original, fits, finite, horiginal⟩ := exists_proper_of_mem_keptPoints created mem
  -- squared distances are taken of the points as they are
  obtain rfl : point = original := by rwa [l2] at horiginal
  have hself : i.distanceFrom label point = .ok (some (.zero false)) :=
    distanceFrom_self created l2 fits finite mem
  have hprepare : i.prepare point = .ok point := by
    have hok : i.prepare point = .ok (settings.metric.prepare point) :=
      prepare_run created calls fits finite
    rwa [← horiginal] at hok
  have hranked (l : Label) (d : Single) :
      (⟨l, d⟩ : Neighbor) ∈ i.ranking point ↔ i.distanceFrom l point = .ok (some d) := by
    rw [hholds.distanceFrom_eq_some_iff hprepare, (hholds.isRanking point).mem_iff]
  refine ⟨hself, fun radius accepted haccepted => ?_, ?_⟩
  · refine ⟨(i.ranking point).filter fun n => accepted.accepts n.distance, ?_, ?_⟩
    · rw [within_eq, haccepted, hprepare]
      rfl
    · exact List.mem_filter.2 ⟨(hranked label _).2 hself, accepted.accepts_zero⟩
  · have hranking := hholds.isRanking point
    have hlisted := (hranked label _).2 hself
    have hnearest := nearest_eq_ok hprepare Nat.one_pos
    cases hcases : i.ranking point with
    | nil =>
        rw [hcases] at hlisted
        cases hlisted
    | cons first rest =>
        rw [hcases] at hranking hranked hlisted hnearest
        have hreported := (hranked first.label first.distance).1 List.mem_cons_self
        have hle := totalKey_zero_le_of_reports created l2 fits finite (.distance hreported)
        have hge := Neighbor.totalKey_le_of_le (hranking.first_le hlisted)
        have hzero : first.distance = .zero false := Binary.totalKey_inj.1 (Int.le_antisymm hge hle)
        refine ⟨first.label, ?_, hzero ▸ hreported, fun other hother => ?_⟩
        · rw [hnearest, ← hzero]
          rfl
        · have hother' := hranking.first_le ((hranked other _).2 hother)
          exact Neighbor.label_le_of_le hother' hzero

/-- The largest number, twice: the nearest is not the label that was added first, and the zero with a
    sign is a radius that reaches it. -/
theorem stored_point_at_zero_twice :
    let largest : Single := .ofBits .single 0x7f7fffff
    ∃ i₀, create .small { dimension := 2, mode := .multi } = .ok i₀ ∧
      let i := i₀.run [(9, [largest, .zero true]), (7, [.zero false, .one]),
        (7, [largest, .zero false])]
      i.points? 9 = some [[largest, .zero true]] ∧
      i.distanceFrom 9 [largest, .zero true] = .ok (some (.zero false)) ∧
      (∃ ns, i.within [largest, .zero true] (.zero true) = .ok ns ∧ ⟨9, .zero false⟩ ∈ ns) ∧
      ∃ first ≤ 7, i.nearest [largest, .zero true] 1 = .ok [⟨first, .zero false⟩] := by
  intro largest
  obtain ⟨i₀, created⟩ : ∃ i₀, create .small { dimension := 2, mode := .multi } = .ok i₀ := ⟨_, rfl⟩
  have stored : (i₀.run [(9, [largest, .zero true]), (7, [.zero false, .one]),
      (7, [largest, .zero false])]).points? 9 = some [[largest, .zero true]] := by
    cases created
    decide +kernel
  obtain ⟨hself, hwithin, first, hnearest, -, hsmallest⟩ :=
    stored_point_at_zero created rfl _ stored (List.mem_singleton_self _)
  obtain ⟨accepted, haccepted⟩ : ∃ accepted, Radius.ofSingle (.zero true) = .ok accepted :=
    ⟨_, rfl⟩
  refine ⟨i₀, created, stored, hself, hwithin _ accepted haccepted, first, hsmallest 7 ?_, hnearest⟩
  cases created
  decide +kernel

end Index

end ExactNeighbors
