import ExactNeighbors.Proofs.Index.Contents
import ExactNeighbors.Proofs.Index.Least
import ExactNeighbors.Proofs.Index.Scan
import ExactNeighbors.Proofs.Ranking.Nearest

set_option autoImplicit false

/-! # Exact answers

The answers of an index are determined by what it keeps. Each label that has points counts once, at
the least of their distances, and the labels are ranked (`IsRanking`). There is one such ranking, and
every question is answered from it: the nearest few are its front, those within a radius are its
entries that pass the test, and the batches serve all of it (`Index.answers_exact`).

In between stand the candidates of an index. They come in some order, that of the ids or that of a
hash table, so nothing is claimed of them but which they are. Ranking them makes the machine invisible
(`Index.Holds.ranking_on`): whichever machine is asked, from one question to the next, the answer is
the same. -/

namespace ExactNeighbors

/-! ## The ranking of labels -/

/-- The ranking of the labels that have distances: each is listed once, at the least of its
    distances, and the entries ascend strictly. -/
structure IsRanking (distances : Label → List Single) (ranking : List Neighbor) : Prop where
  ascending : ranking.Pairwise fun a b => a.ranksBefore b = true
  least : ∀ n ∈ ranking, n.distance.LeastIn (distances n.label)
  complete : ∀ l, distances l ≠ [] → ∃ n ∈ ranking, n.label = l
  once : (ranking.map Neighbor.label).Nodup

namespace IsRanking

variable {distances : Label → List Single} {ranking : List Neighbor}

theorem mem_iff (h : IsRanking distances ranking) {n : Neighbor} :
    n ∈ ranking ↔ n.distance.LeastIn (distances n.label) := by
  refine ⟨h.least n, ?_⟩
  intro hn
  have hlisted := List.mem_map.2 (h.complete n.label (List.ne_nil_of_mem hn.1))
  exact Neighbor.mem_of_leastIn distances h.least hlisted hn

/-- Some neighbors that list every label once at its least distance are ranked by sorting. -/
theorem of_mem_iff {ns : List Neighbor}
    (mem : ∀ n, n ∈ ns ↔ n.distance.LeastIn (distances n.label))
    (once : (ns.map Neighbor.label).Nodup) : IsRanking distances (Neighbor.sortByRank ns) where
  ascending :=
    (Neighbor.pairwise_lt_sortByRank once.of_map).imp fun h => Neighbor.ranksBefore_iff.2 h
  least n hn := (mem n).1 ((Neighbor.sortByRank_perm ns).mem_iff.1 hn)
  complete l hl := by
    obtain ⟨d, hd⟩ := Index.exists_leastIn hl
    exact ⟨⟨l, d⟩, (Neighbor.sortByRank_perm ns).mem_iff.2 ((mem ⟨l, d⟩).2 hd), rfl⟩
  once := ((Neighbor.sortByRank_perm ns).map Neighbor.label).nodup_iff.2 once

/-- Which distances a label has decides the ranking, their order and repetitions do not. -/
theorem unique {distances' : Label → List Single} {ranking' : List Neighbor}
    (same : ∀ l d, d ∈ distances l ↔ d ∈ distances' l) (h : IsRanking distances ranking)
    (h' : IsRanking distances' ranking') : ranking = ranking' := by
  have hmem (n : Neighbor) : n ∈ ranking ↔ n ∈ ranking' := by
    rw [h.mem_iff, h'.mem_iff, Binary.leastIn_congr (same n.label)]
  have hperm : ranking.Perm ranking' := Neighbor.perm_of_mem_iff h.once h'.once hmem
  have hle {r : List Neighbor} (hr : r.Pairwise fun a b => a.ranksBefore b = true) :
      r.Pairwise (· ≤ ·) := hr.imp fun hab => le_of_lt (Neighbor.ranksBefore_iff.1 hab)
  rw [← Neighbor.sortByRank_of_pairwise (hle h.ascending),
    ← Neighbor.sortByRank_of_pairwise (hle h'.ascending)]
  exact Neighbor.sortByRank_eq_of_perm hperm

end IsRanking

/-! ## Candidates -/

section Rows

variable {rows : List Row} {distance : Point → Point → Single} {query : Point}

theorem distancesOf_map_neighbor (l : Label) :
    PerLabel.distancesOf l (rows.map (Store.neighbor distance query)) =
      (pointsOf l rows).map (distance query) := by
  induction rows with
  | nil => rfl
  | cons r rows ih =>
      rw [List.map_cons, PerLabel.distancesOf_cons, ih, pointsOf_cons]
      by_cases hl : r.1 = l <;> simp [Store.neighbor, hl]

theorem mem_map_neighbor {n : Neighbor} :
    n ∈ rows.map (Store.neighbor distance query) ↔
      n.distance ∈ (pointsOf n.label rows).map (distance query) := by
  rw [← distancesOf_map_neighbor, PerLabel.mem_distancesOf]

/-- If no label stands twice, the neighbors of the rows have different labels. -/
theorem nodup_labels_map_neighbor (once : ∀ l, (pointsOf l rows).length ≤ 1) :
    ((rows.map (Store.neighbor distance query)).map Neighbor.label).Nodup := by
  have hlabels : (rows.map (Store.neighbor distance query)).map Neighbor.label =
      rows.map Prod.fst := by
    rw [List.map_map]
    rfl
  rw [hlabels, List.nodup_iff_count_le_one]
  intro l
  rw [count_map_fst]
  exact once l

end Rows

namespace Index

variable {i : Index} {added : List Row}

/-- The distances that a label has to a prepared query: those of its points that are kept. -/
def keptDistances (settings : Settings) (added : List Row) (query : Point) (l : Label) :
    List Single :=
  (keptPoints settings added l).map (settings.metric.kernel query)

/-- Just the labels that points were added under have distances. -/
theorem keptDistances_ne_nil_iff {settings : Settings} {query : Point} {l : Label} :
    keptDistances settings added query l ≠ [] ↔ l ∈ added.map Prod.fst := by
  rw [keptDistances, Ne, List.map_eq_nil_iff, keptPoints_eq_nil_iff, ← pointsOf_ne_nil_iff]

/-- After any calls they are the distances of proper points, prepared. -/
theorem exists_proper_of_mem_keptDistances {machine : Machine} {settings : Settings} {i₀ : Index}
    (created : create machine settings = .ok i₀) {calls : List Row} {query : Point} {l : Label}
    {d : Single} (h : d ∈ keptDistances settings (i₀.accepted calls) query l) :
    ∃ original : Point, original.isFinite = true ∧
      d = settings.metric.kernel query (settings.metric.prepare original) := by
  obtain ⟨point, hpoint, rfl⟩ := List.mem_map.1 h
  obtain ⟨original, -, hfinite, rfl⟩ := exists_proper_of_mem_keptPoints created hpoint
  exact ⟨original, hfinite, rfl⟩

/-- The candidates of a prepared query, ranked. -/
def ranking (i : Index) (query : Point) : List Neighbor :=
  Neighbor.sortByRank (i.candidates query)

theorem candidates_multi (shared : i.settings.mode = .multi) (query : Point) :
    i.candidates query =
      i.machine.tables.listing (PerLabel.ofList (i.distances query) i.store.labelCount) := by
  rw [candidates, shared]

/-- In which order a table lists the labels is lost in the ranking. -/
theorem ranking_multi (shared : i.settings.mode = .multi) (query : Point) :
    i.ranking query =
      Neighbor.sortByRank (PerLabel.ofList (i.distances query) i.store.labelCount) := by
  rw [ranking, candidates_multi shared]
  exact Neighbor.sortByRank_eq_of_perm (i.machine.tables.listing_perm _)

/-- Either kind of candidates is the ranking of what is kept, only not sorted yet. -/
theorem Holds.isRanking (h : i.Holds added) (query : Point) :
    IsRanking (keptDistances i.settings added query) (i.ranking query) := by
  obtain ⟨-, rows, hrows, hkept⟩ := h
  have hdistances (l : Label) : keptDistances i.settings added query l =
      (pointsOf l rows).map (i.settings.metric.kernel query) := by
    rw [keptDistances, hkept]
  cases hmode : i.settings.mode with
  | single =>
      -- a label has one point at most, and what is alone is the least
      rw [ranking, candidates, hmode, distances_eq hrows]
      have honce (l : Label) : (pointsOf l rows).length ≤ 1 := by
        rw [hkept, keptPoints, hmode, List.length_map]
        exact LabelMode.length_kept_single _
      refine IsRanking.of_mem_iff (fun n => ?_) (nodup_labels_map_neighbor honce)
      rw [mem_map_neighbor, hdistances]
      refine (Binary.leastIn_iff_mem ?_).symm
      rw [List.length_map]
      exact honce n.label
  | multi =>
      -- the table has kept the least distance of every label
      rw [ranking_multi hmode, distances_eq hrows]
      refine IsRanking.of_mem_iff (fun n => ?_) (PerLabel.nodup_labels_ofList _ _)
      rw [PerLabel.mem_ofList, distancesOf_map_neighbor, hdistances]

/-- Another machine cuts the scan otherwise and lists the labels in another order, and ranks the
    same. -/
theorem Holds.ranking_on (h : i.Holds added) (machine : Machine) (query : Point) :
    (i.on machine).ranking query = i.ranking query := by
  have hon : (i.on machine).Holds added := ⟨h.dimension, h.rows⟩
  exact (hon.isRanking query).unique (fun _ _ => Iff.rfl) (h.isRanking query)

/-! ## Questions -/

theorem nearest_eq (i : Index) (query : Point) (k : Nat) :
    i.nearest query k = (do
      let count ← Count.ofNat k
      let query ← i.prepare query
      .ok ((i.ranking query).take count.val)) := by
  unfold nearest ranking
  simp only [Count.select_eq_take]

theorem within_eq (i : Index) (query : Point) (radius : Single) :
    i.within query radius = (do
      let radius ← Radius.ofSingle radius
      let query ← i.prepare query
      .ok ((i.ranking query).filter fun n => radius.accepts n.distance)) := by
  unfold within ranking
  simp only [Radius.select, Neighbor.sortByRank_filter]

theorem batches_eq (i : Index) (query : Point) :
    i.batches query = (do
      let query ← i.prepare query
      .ok ⟨query, (i.ranking query).toArray, 0, .created⟩) := rfl

section Machine

variable (h : i.Holds added) (machine : Machine) (query : Point)
include h

theorem Holds.nearest_on (k : Nat) : (i.on machine).nearest query k = i.nearest query k := by
  rw [nearest_eq, nearest_eq]
  simp only [h.ranking_on]
  rfl

theorem Holds.within_on (radius : Single) :
    (i.on machine).within query radius = i.within query radius := by
  rw [within_eq, within_eq]
  simp only [h.ranking_on]
  rfl

theorem Holds.batches_on : (i.on machine).batches query = i.batches query := by
  rw [batches_eq, batches_eq]
  simp only [h.ranking_on]
  rfl

end Machine

/-- The points of a label are found through its ids. -/
theorem Holds.distanceFrom_eq (h : i.Holds added) (label : Label) (query : Point) :
    i.distanceFrom label query = (do
      let query ← i.prepare query
      .ok (least? (keptDistances i.settings added query label))) := by
  have hleast (distance : Point → Single) :
      (i.points? label).bind (fun ps => least? (ps.map distance)) =
        least? ((keptPoints i.settings added label).map distance) := by
    rw [h.points?_eq]
    split
    · next hnone =>
        rw [keptPoints_eq_nil_iff.2 hnone]
        rfl
    · rfl
  unfold distanceFrom keptDistances
  simp only [hleast]

/-- The labels that points were added under are ranked. -/
theorem Holds.mem_labels_ranking (h : i.Holds added) (query : Point) {l : Label} :
    l ∈ (i.ranking query).map Neighbor.label ↔ l ∈ added.map Prod.fst := by
  have hranking := h.isRanking query
  rw [← keptDistances_ne_nil_iff, List.mem_map]
  constructor
  · rintro ⟨n, hn, rfl⟩
    exact List.ne_nil_of_mem (hranking.least n hn).1
  · exact hranking.complete l

/-- Labels are counted as often as they are ranked, once each. -/
theorem Holds.length_ranking (h : i.Holds added) (query : Point) :
    (i.ranking query).length = i.labelCount := by
  have hlabel (l : Label) :
      l ∈ (i.ranking query).map Neighbor.label ↔ l ∈ (added.map Prod.fst).dedup := by
    rw [List.mem_dedup, h.mem_labels_ranking]
  have hperm := (List.perm_ext_iff_of_nodup (h.isRanking query).once (List.nodup_dedup _)).2 hlabel
  rw [h.labelCount_eq, ← hperm.length_eq, List.length_map]

theorem prepare_eq_ok {query : Point} (fits : query.length = i.settings.dimension.toNat)
    (finite : query.isFinite = true) :
    i.prepare query = .ok (i.settings.metric.prepare query) :=
  prepare_of_check (Point.check_eq_ok_iff.2 ⟨fits, finite⟩)

theorem nearest_eq_ok {query prepared : Point} (h : i.prepare query = .ok prepared) {k : Nat}
    (hk : 0 < k) : i.nearest query k = .ok ((i.ranking prepared).take k) := by
  rw [nearest_eq, Count.ofNat, dif_pos hk, h]
  rfl

theorem within_eq_ok {query prepared : Point} (h : i.prepare query = .ok prepared)
    {radius : Single} (hnumber : radius.isNaN = false) (hsign : radius.lt (.zero false) = false) :
    i.within query radius = .ok ((i.ranking prepared).filter fun n => n.distance.le radius) := by
  have haccepted : (radius.isNaN || radius.lt (.zero false)) = false := by rw [hnumber, hsign]; rfl
  rw [within_eq, Radius.ofSingle, dif_pos haccepted, h]
  rfl

/-- No answer repeats a label, as the ranking it is taken from does not. -/
theorem Holds.nodup_nearest (h : i.Holds added) {query : Point} {k : Nat} {ns : List Neighbor}
    (hns : i.nearest query k = .ok ns) : (ns.map Neighbor.label).Nodup := by
  rw [nearest_eq] at hns
  obtain ⟨count, -, hns⟩ := bind_eq_ok.1 hns
  obtain ⟨prepared, -, hns⟩ := bind_eq_ok.1 hns
  cases hns
  exact (h.isRanking prepared).once.sublist ((List.take_sublist _ _).map _)

theorem Holds.nodup_within (h : i.Holds added) {query : Point} {radius : Single}
    {ns : List Neighbor} (hns : i.within query radius = .ok ns) :
    (ns.map Neighbor.label).Nodup := by
  rw [within_eq] at hns
  obtain ⟨radius', -, hns⟩ := bind_eq_ok.1 hns
  obtain ⟨prepared, -, hns⟩ := bind_eq_ok.1 hns
  cases hns
  exact (h.isRanking prepared).once.sublist (List.filter_sublist.map _)

/-! ## Exactness -/

/-- **Answers are exact.** Of some calls those succeed whose points are proper. There is a ranking of
    the labels by the least distances of the points kept of what these added, and any proper query is
    answered from it: the nearest few are its front, those within a radius its entries that pass, the
    batches all of it. Its length is the number of labels, and no answer repeats a label. -/
theorem answers_exact {machine : Machine} {settings : Settings} {i₀ : Index}
    (created : create machine settings = .ok i₀)
    (calls : List Row) {query : Point} (fits : query.length = settings.dimension.toNat)
    (finite : query.isFinite = true) :
    let i := i₀.run calls
    let prepared := settings.metric.prepare query
    (i₀.accepted calls = calls.filter fun call =>
      call.2.length = settings.dimension.toNat ∧ call.2.isFinite = true) ∧
    ∃ R, IsRanking (keptDistances settings (i₀.accepted calls) prepared) R ∧
      (∀ k, 1 ≤ k → i.nearest query k = .ok (R.take (min k R.length))) ∧
      (∀ r : Single, r.isNaN = false → r.lt (.zero false) = false →
        i.within query r = .ok (R.filter fun n => n.distance.le r)) ∧
      i.batches query = .ok ⟨prepared, R.toArray, 0, .created⟩ ∧
      R.length = i.labelCount ∧
      (∀ k ns, i.nearest query k = .ok ns → (ns.map Neighbor.label).Nodup) ∧
      ∀ r ns, i.within query r = .ok ns → (ns.map Neighbor.label).Nodup := by
  intro i prepared
  obtain ⟨rfl, hempty⟩ := holds_of_create created
  obtain ⟨hsettings, hholds⟩ := hempty.run calls
  have hprepare : i.prepare query = .ok prepared := by
    have hok : i.prepare query = .ok (i.settings.metric.prepare query) :=
      prepare_eq_ok (by rwa [hsettings]) finite
    rwa [hsettings] at hok
  have hranking := hholds.isRanking prepared
  rw [hsettings] at hranking
  refine ⟨hempty.accepted_eq calls, i.ranking prepared, hranking, ?_, ?_, ?_,
    hholds.length_ranking prepared, ?_, ?_⟩
  · intro k hk
    rw [nearest_eq_ok hprepare hk, List.take_eq_take_min]
  · intro r hnumber hsign
    exact within_eq_ok hprepare hnumber hsign
  · rw [batches_eq, hprepare]
    rfl
  · intro k ns hns
    exact hholds.nodup_nearest hns
  · intro r ns hns
    exact hholds.nodup_within hns

/-- Of two points that share a label the nearer one counts; a point that does not fit does not. -/
theorem answers_exact_shared :
    ∃ i₀, create .small { dimension := 1, mode := .multi } = .ok i₀ ∧
      ([Binary.one] : Point).length = 1 ∧ Point.isFinite [Binary.one] = true ∧
      (i₀.run [(7, [.zero false]), (9, []), (7, [Binary.one])]).nearest [Binary.one] 3 =
        .ok [⟨7, .zero false⟩] := by
  obtain ⟨i₀, created⟩ : ∃ i₀, create .small { dimension := 1, mode := .multi } = .ok i₀ := ⟨_, rfl⟩
  refine ⟨i₀, created, rfl, by decide, ?_⟩
  obtain ⟨-, R, hR, hnearest, -, -, hcount, -⟩ :=
    answers_exact created [(7, [.zero false]), (9, []), (7, [Binary.one])]
      (rfl : ([Binary.one] : Point).length = 1) (by decide)
  cases created
  have hlength : R.length = 1 := hcount
  have hmem : (⟨7, .zero false⟩ : Neighbor) ∈ R := hR.mem_iff.2 (by decide +kernel)
  obtain ⟨n, rfl⟩ := List.length_eq_one_iff.1 hlength
  rw [hnearest 3 (by decide), ← List.mem_singleton.1 hmem]
  rfl

end Index

end ExactNeighbors
