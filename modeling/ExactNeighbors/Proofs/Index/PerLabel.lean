import ExactNeighbors.Proofs.Index.Least
import ExactNeighbors.Proofs.Ranking.Radius
import Mathlib.Data.List.Dedup

set_option autoImplicit false

/-! # One neighbor per label

The table of least distances lists each label that came in once, at the least of its distances, and
its size counts these labels at any time (`PerLabel.lists_least_of_each_label`). What it lists is thus
a matter of the distances that each label has: neither their order shows nor the room that was made,
and a part of the neighbors may be listed before the others come in. But the room that is asked for has
to be made first. A hint that asks for more than there is leaves nothing, however few the labels
(`PerLabel.nothing_listed_beyond_memory`).

Listing the labels and keeping to a radius may change places
(`Radius.label_within_iff_distance_within`). The radius compares values and the table patterns, but
among numbers a pattern that precedes has no greater value, so if any distance of a label is within
the radius, the least one is. -/

namespace ExactNeighbors

namespace PerLabel

/-! ## What is listed -/

variable {p q : PerLabel} {seen seen' : List Neighbor}

/-- Just the labels that came in are listed. -/
theorem Keeps.mem_labels_toList (h : p.Keeps seen) {l : Label} :
    l ∈ p.toList.map Neighbor.label ↔ l ∈ seen.map Neighbor.label := by
  rw [List.mem_map, List.mem_map]
  constructor
  · rintro ⟨n, hn, rfl⟩
    exact ⟨n, mem_distancesOf.1 (h.mem_toList.1 hn).1, rfl⟩
  · rintro ⟨n, hn, rfl⟩
    obtain ⟨d, hd⟩ := Index.exists_leastIn (List.ne_nil_of_mem (mem_distancesOf.2 hn))
    exact ⟨⟨n.label, d⟩, h.mem_toList.2 hd, rfl⟩

theorem Keeps.perm_labels_toList (h : p.Keeps seen) :
    (p.toList.map Neighbor.label).Perm (seen.map Neighbor.label).dedup := by
  refine (List.perm_ext_iff_of_nodup (nodup_labels_toList p) (List.nodup_dedup _)).2 fun l => ?_
  rw [h.mem_labels_toList, List.mem_dedup]

theorem Keeps.size_eq (h : p.Keeps seen) :
    p.size = (seen.map Neighbor.label).dedup.length := by
  rw [← h.perm_labels_toList.length_eq, List.length_map, toList, List.length_map,
    Std.HashMap.length_toList]
  rfl

theorem mem_labels_ofList {ns : List Neighbor} {room : Nat} {l : Label} :
    l ∈ (ofList ns room).map Neighbor.label ↔ l ∈ ns.map Neighbor.label :=
  (keeps_observed _ ns).mem_labels_toList

/-- Two tables list the same if the labels have the same least distances. -/
theorem Keeps.perm_toList (h : p.Keeps seen) (h' : q.Keeps seen')
    (same : ∀ (l : Label) (d : Single),
      d.LeastIn (distancesOf l seen) ↔ d.LeastIn (distancesOf l seen')) :
    p.toList.Perm q.toList := by
  refine Neighbor.perm_of_mem_iff (nodup_labels_toList p) (nodup_labels_toList q) fun n => ?_
  rw [h.mem_toList, h'.mem_toList, same]

/-! ## What does not show -/

/-- The order in which the neighbors come in does not show. -/
theorem leastIn_distancesOf_of_perm {ns ms : List Neighbor} (same : ms.Perm ns) (l : Label)
    (d : Single) : d.LeastIn (distancesOf l ms) ↔ d.LeastIn (distancesOf l ns) :=
  Binary.leastIn_congr fun _ => ((same.filter _).map _).mem_iff

theorem mem_distancesOf_ofList {l : Label} {d : Single} {ns : List Neighbor} {room : Nat} :
    d ∈ distancesOf l (ofList ns room) ↔ d.LeastIn (distancesOf l ns) :=
  (mem_distancesOf (n := ⟨l, d⟩)).trans mem_ofList

/-- Of what is listed before the others come in, only distances are lost that are not the least. -/
theorem leastIn_distancesOf_ofList_append (l : Label) (d : Single) (ns ms : List Neighbor)
    (room room' : Nat) :
    d.LeastIn (distancesOf l (ofList ns room ++ ofList ms room')) ↔
      d.LeastIn (distancesOf l (ns ++ ms)) := by
  have hsub (xs : List Neighbor) (room : Nat) :
      distancesOf l (ofList xs room) ⊆ distancesOf l xs :=
    fun e he => (mem_distancesOf_ofList.1 he).1
  have hlower (xs : List Neighbor) (room : Nat) {e : Single} (he : e ∈ distancesOf l xs) :
      ∃ c ∈ distancesOf l (ofList xs room), c.totalCompare e ≠ .gt := by
    obtain ⟨c, hc⟩ := Index.exists_leastIn (List.ne_nil_of_mem he)
    exact ⟨c, mem_distancesOf_ofList.2 hc, hc.2 e he⟩
  rw [distancesOf_append, distancesOf_append]
  apply Binary.leastIn_iff_of_subset
  · exact List.append_subset.2 ⟨List.subset_append_of_subset_left _ (hsub ns room),
      List.subset_append_of_subset_right _ (hsub ms room')⟩
  · intro e he
    rcases List.mem_append.1 he with he | he
    · obtain ⟨c, hc, hce⟩ := hlower ns room he
      exact ⟨c, List.mem_append_left _ hc, hce⟩
    · obtain ⟨c, hc, hce⟩ := hlower ms room' he
      exact ⟨c, List.mem_append_right _ hc, hce⟩

/-! ## Room in advance -/

variable {tables : Tables} {ns l : List Neighbor} {hint : Nat}

theorem ofList?_eq_some (room : tables.hasRoom hint = true) (ns : List Neighbor) :
    ofList? tables ns hint = some (tables.listing (ofList ns hint)) := if_pos room

/-- There is a list if and only if there is room, whatever would be listed. -/
theorem isSome_ofList? (tables : Tables) (ns : List Neighbor) (hint : Nat) :
    (ofList? tables ns hint).isSome = tables.hasRoom hint := by
  rw [ofList?]
  cases tables.hasRoom hint <;> rfl

/-- The room for the labels of a hint takes its bytes. -/
theorem ofList?_eq_none (beyond : tables.memory < hint * Size.labelled) (ns : List Neighbor) :
    ofList? tables ns hint = none := by
  refine if_neg fun room => ?_
  exact Nat.not_lt.2 (tables.hasRoom_le room) beyond

theorem perm_of_ofList? (h : ofList? tables ns hint = some l) : l.Perm (ofList ns hint) := by
  obtain ⟨-, hl⟩ := Option.ite_none_right_eq_some.1 h
  rw [← Option.some.inj hl]
  exact tables.listing_perm _

/-- What is listed of two lists together, each listed before, is what is listed of both at once. -/
theorem perm_ofList_append (ns ms : List Neighbor) (room₁ room₂ room₃ room₄ : Nat) :
    (ofList (ofList ns room₁ ++ ofList ms room₂) room₃).Perm (ofList (ns ++ ms) room₄) :=
  (keeps_observed _ _).perm_toList (keeps_observed _ _)
    fun l d => leastIn_distancesOf_ofList_append l d ns ms room₁ room₂

theorem perm_ofList {ns ms : List Neighbor} (same : ms.Perm ns) (room room' : Nat) :
    (ofList ms room).Perm (ofList ns room') :=
  (keeps_observed _ ms).perm_toList (keeps_observed _ ns) (leastIn_distancesOf_of_perm same)

/-- **The table lists the least distance of each label.** After each neighbor that comes in, the size
    is the number of labels so far. In the end each label is listed once, at the least of its
    distances in the total order. Asked for in one go, with a hint, there is such a list just where
    there is room for the hint, and none where the hint takes more than the memory. Where there is one,
    it is the same up to its order, whatever the hint and in whatever order the neighbors come in, and
    two parts of the neighbors may each be listed before their lists are put together and listed
    again. -/
theorem lists_least_of_each_label (room : Nat) (ns : List Neighbor) :
    let listed := (observed room ns).toList
    (∀ m, (observed room (ns.take m)).size =
      ((ns.take m).map Neighbor.label).dedup.length) ∧
    (listed.map Neighbor.label).Perm (ns.map Neighbor.label).dedup ∧
    (∀ n ∈ listed, n.distance.LeastIn (distancesOf n.label ns)) ∧
    (∀ (tables : Tables) (hint : Nat),
      (ofList? tables ns hint).isSome = tables.hasRoom hint ∧
      (tables.memory < hint * Size.labelled → ofList? tables ns hint = none) ∧
      ∀ l, ofList? tables ns hint = some l → l.Perm listed) ∧
    (∀ ms : List Neighbor, ms.Perm ns → ∀ (t₁ t₂ : Tables) (hint₁ hint₂ : Nat) l₁ l₂,
      ofList? t₁ ms hint₁ = some l₁ → ofList? t₂ ns hint₂ = some l₂ → l₁.Perm l₂) ∧
    ∀ (ms : List Neighbor) (t₁ t₂ t₃ t₄ : Tables) (hint₁ hint₂ hint₃ hint₄ : Nat) l₁ l₂ l₃ l₄,
      ofList? t₁ ns hint₁ = some l₁ → ofList? t₂ ms hint₂ = some l₂ →
      ofList? t₃ (l₁ ++ l₂) hint₃ = some l₃ → ofList? t₄ (ns ++ ms) hint₄ = some l₄ →
      l₃.Perm l₄ := by
  have h := keeps_observed room ns
  refine ⟨?_, h.perm_labels_toList, ?_, ?_, ?_, ?_⟩
  · intro m
    exact (keeps_observed room _).size_eq
  · intro n hn
    exact h.mem_toList.1 hn
  · intro tables hint
    refine ⟨isSome_ofList? tables ns hint, fun beyond => ofList?_eq_none beyond ns, fun l hl => ?_⟩
    have hlisted : (ofList ns hint).Perm (observed room ns).toList :=
      (keeps_observed _ ns).perm_toList h fun l d => Iff.rfl
    exact (perm_of_ofList? hl).trans hlisted
  · intro ms same t₁ t₂ hint₁ hint₂ l₁ l₂ h₁ h₂
    exact ((perm_of_ofList? h₁).trans (perm_ofList same hint₁ hint₂)).trans
      (perm_of_ofList? h₂).symm
  · intro ms t₁ t₂ t₃ t₄ hint₁ hint₂ hint₃ hint₄ l₁ l₂ l₃ l₄ h₁ h₂ h₃ h₄
    have hparts : (l₁ ++ l₂).Perm (ofList ns hint₁ ++ ofList ms hint₂) :=
      (perm_of_ofList? h₁).append (perm_of_ofList? h₂)
    calc
      l₃.Perm (ofList (l₁ ++ l₂) hint₃) := perm_of_ofList? h₃
      List.Perm _ (ofList (ofList ns hint₁ ++ ofList ms hint₂) hint₃) := perm_ofList hparts _ _
      List.Perm _ (ofList (ns ++ ms) hint₄) := perm_ofList_append ns ms _ _ _ _
      List.Perm _ l₄ := (perm_of_ofList? h₄).symm

/-- Of the two zeros under one label the one with a sign is listed, whichever came in first. -/
theorem lists_least_of_each_label_zeros :
    let ns : List Neighbor := [⟨4, .zero false⟩, ⟨8, .one⟩, ⟨4, .zero true⟩]
    ns.reverse.Perm ns ∧ (observed 0 (ns.take 2)).size = 2 ∧ (observed 0 ns).size = 2 ∧
      ⟨4, .zero true⟩ ∈ (observed 0 ns).toList ∧
      ∃ l, ofList? (.upTo 4096) ns.reverse 9 = some l ∧ ⟨4, .zero true⟩ ∈ l := by
  intro ns
  obtain ⟨hsize, hlabels, hleast, hlisted, hperm, -⟩ := lists_least_of_each_label 0 ns
  have hreverse : ns.reverse.Perm ns := by decide
  have hmem : ⟨4, .zero true⟩ ∈ (observed 0 ns).toList :=
    Neighbor.mem_of_leastIn (fun l => distancesOf l ns) hleast (hlabels.mem_iff.2 (by decide))
      (by decide)
  have hforwards : ofList? (.upTo 4096) ns 0 = some _ := ofList?_eq_some (by decide) ns
  have hbackwards : ofList? (.upTo 4096) ns.reverse 9 = some _ := ofList?_eq_some (by decide) _
  refine ⟨hreverse, (hsize 2).trans (by decide), (hsize 3).trans (by decide), hmem, _, hbackwards, ?_⟩
  have hsame := hperm _ hreverse _ _ _ _ _ _ hbackwards hforwards
  exact hsame.mem_iff.2 (((hlisted _ 0).2.2 _ hforwards).mem_iff.2 hmem)

/-- Two neighbors of one label are listed wherever no room is asked for. With a hint of `2 ^ 56` labels
    they are listed on no machine that has less than `2 ^ 60` bytes for a table, and with the largest
    size as the hint on none at all. -/
theorem nothing_listed_beyond_memory :
    let ns : List Neighbor := [⟨1, .one⟩, ⟨1, .zero false⟩]
    ∀ tables : Tables,
      ofList? tables ns 0 = some [⟨1, .zero false⟩] ∧
      (tables.memory < 1 <<< 60 → ofList? tables ns (1 <<< 56) = none) ∧
      ofList? tables ns Size.limit = none := by
  intro ns tables
  refine ⟨?_, fun h => ofList?_eq_none (Nat.lt_of_lt_of_le h (by decide)) ns, ?_⟩
  · have hlisted := ofList?_eq_some tables.hasRoom_zero ns
    have hlabels : (ofList ns 0).map Neighbor.label = [1] :=
      List.perm_singleton.1 (keeps_observed 0 ns).perm_labels_toList
    have hmem : ⟨1, .zero false⟩ ∈ ofList ns 0 := mem_ofList.2 (by decide)
    obtain ⟨n, hn⟩ : ∃ n, ofList ns 0 = [n] :=
      List.length_eq_one_iff.1 (by rw [← List.length_map Neighbor.label, hlabels]; rfl)
    rw [hn, List.mem_singleton] at hmem
    have hperm := tables.listing_perm (ofList ns 0)
    rw [hn, ← hmem] at hperm
    rw [hlisted, hn, ← hmem, List.perm_singleton.1 hperm]
  · exact ofList?_eq_none (Nat.lt_of_le_of_lt tables.memory_le (by decide)) ns

end PerLabel

/-! ## Within a radius -/

theorem PerLabel.distancesOf_filter (l : Label) (accepts : Single → Bool) (ns : List Neighbor) :
    distancesOf l (ns.filter fun n => accepts n.distance) =
      (distancesOf l ns).filter accepts := by
  rw [distancesOf, distancesOf, List.filter_map, List.filter_filter, List.filter_filter]
  simp only [Bool.and_comm, Function.comp_apply]

namespace Radius

/-- The least of the distances within a radius is the least of all, if that is within the radius. -/
theorem leastIn_filter_iff (radius : Radius) {ds : List Single}
    (numbers : ∀ d ∈ ds, d.isNaN = false) {d : Single} :
    d.LeastIn (ds.filter radius.accepts) ↔ d.LeastIn ds ∧ radius.accepts d = true := by
  constructor
  · rintro ⟨hmem, hle⟩
    obtain ⟨hd, hwithin⟩ := List.mem_filter.1 hmem
    refine ⟨⟨hd, ?_⟩, hwithin⟩
    intro e he
    by_cases hewithin : radius.accepts e = true
    · exact hle e (List.mem_filter.2 ⟨he, hewithin⟩)
    · -- what is outside comes after what is within
      rw [Binary.totalCompare_ne_gt]
      refine Int.le_of_lt (Int.not_le.1 fun hed => hewithin ?_)
      exact Binary.le_of_totalKey_le (numbers e he) hed hwithin
  · rintro ⟨⟨hd, hle⟩, hwithin⟩
    exact ⟨List.mem_filter.2 ⟨hd, hwithin⟩, fun e he => hle e (List.mem_filter.1 he).1⟩

/-- **A label is within a radius just if one of its distances is.** Keeping to the radius after the
    labels are listed gives the ranking of the labels listed after keeping to it, provided that all
    distances are numbers. A label has its least distance there. -/
theorem label_within_iff_distance_within {r : Single} {radius : Radius}
    (accepted : ofSingle r = .ok radius) {ns : List Neighbor}
    (numbers : ∀ n ∈ ns, n.distance.isNaN = false) (room room' : Nat) :
    let within := radius.select (PerLabel.ofList ns room)
    within = Neighbor.sortByRank
      (PerLabel.ofList (ns.filter fun n => radius.accepts n.distance) room') ∧
    (∀ l, l ∈ within.map Neighbor.label ↔ ∃ n ∈ ns, n.label = l ∧ n.distance.le r = true) ∧
    ∀ n ∈ within, n.distance.LeastIn (PerLabel.distancesOf n.label ns) := by
  intro within
  obtain rfl := val_of_ofSingle accepted
  have hlisted : within = Neighbor.sortByRank
      (PerLabel.ofList (ns.filter fun n => radius.accepts n.distance) room') := by
    refine Neighbor.sortByRank_eq_of_perm (Neighbor.perm_of_mem_iff
      ((PerLabel.nodup_labels_ofList ns room).sublist (List.filter_sublist.map _))
      (PerLabel.nodup_labels_ofList _ room') fun n => ?_)
    have hnumbers : ∀ d ∈ PerLabel.distancesOf n.label ns, d.isNaN = false :=
      fun d hd => numbers ⟨n.label, d⟩ (PerLabel.mem_distancesOf.1 hd)
    rw [List.mem_filter, PerLabel.mem_ofList, PerLabel.mem_ofList, PerLabel.distancesOf_filter,
      leastIn_filter_iff radius hnumbers]
  refine ⟨hlisted, ?_, ?_⟩
  · intro l
    rw [hlisted, ((Neighbor.sortByRank_perm _).map _).mem_iff, PerLabel.mem_labels_ofList,
      List.mem_map]
    constructor
    · rintro ⟨n, hn, rfl⟩
      obtain ⟨hmem, hwithin⟩ := List.mem_filter.1 hn
      exact ⟨n, hmem, rfl, hwithin⟩
    · rintro ⟨n, hmem, rfl, hwithin⟩
      exact ⟨n, List.mem_filter.2 ⟨hmem, hwithin⟩, rfl⟩
  · intro n hn
    exact PerLabel.mem_ofList.1 (List.mem_filter.1 (Neighbor.mem_sortByRank.1 hn)).1

/-- The radius of zero with a sign covers the label that has a distance of zero without one, though
    also a farther one, and not the label that is infinitely far. -/
theorem label_within_iff_distance_within_zeros :
    let ns : List Neighbor := [⟨7, .one⟩, ⟨9, .infinite false⟩, ⟨7, .zero false⟩]
    (∀ n ∈ ns, n.distance.isNaN = false) ∧
    ∃ radius, ofSingle (.zero true) = .ok radius ∧
      ⟨7, .zero false⟩ ∈ radius.select (PerLabel.ofList ns 2) ∧
      9 ∉ (radius.select (PerLabel.ofList ns 2)).map Neighbor.label := by
  intro ns
  have hnumbers : ∀ n ∈ ns, n.distance.isNaN = false := by decide
  obtain ⟨radius, haccepted⟩ : ∃ radius, ofSingle (.zero true) = .ok radius := ⟨_, rfl⟩
  obtain ⟨-, hlabels, hleast⟩ := label_within_iff_distance_within haccepted hnumbers 2 0
  refine ⟨hnumbers, radius, haccepted, ?_, ?_⟩
  · exact Neighbor.mem_of_leastIn (fun l => PerLabel.distancesOf l ns) hleast
      ((hlabels 7).2 (by decide)) (by decide)
  · intro h
    exact absurd ((hlabels 9).1 h) (by decide)

end Radius

end ExactNeighbors
