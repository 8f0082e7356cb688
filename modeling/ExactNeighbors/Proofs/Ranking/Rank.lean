import ExactNeighbors.Proofs.Binary.Order
import ExactNeighbors.Ranking.Neighbor
import Mathlib.Data.List.Sort
import Mathlib.Data.Prod.Lex

set_option autoImplicit false

/-! # Rank is a linear order

A neighbor ranks by a key, the place of its distance in the total order followed by its label, and
different neighbors have different keys. So rank is a linear order on neighbors as they are, bit
patterns included, and a list has exactly one ranked arrangement: whatever is ascending and holds the
same neighbors *is* `sortByRank` (`eq_sortByRank`). Every statement about a ranked answer rests on
that.

The arrangement by label is not canonical, since neighbors may share a label. It is the stable one:
the neighbors of a label keep the order they had, and that leaves no choice
(`StableByLabel.unique`). -/

namespace ExactNeighbors

namespace Neighbor

/-! ## The order -/

theorem eq_of_fields {a b : Neighbor} (hlabel : a.label = b.label)
    (hdistance : a.distance = b.distance) : a = b := by
  cases a
  cases b
  cases hlabel
  cases hdistance
  rfl

/-- Lists that have each label once agree up to order if they have the same neighbors. -/
theorem perm_of_mem_iff {xs ys : List Neighbor} (hxs : (xs.map label).Nodup)
    (hys : (ys.map label).Nodup) (same : ∀ n, n ∈ xs ↔ n ∈ ys) : xs.Perm ys :=
  (List.perm_ext_iff_of_nodup hxs.of_map hys.of_map).2 same

/-- What a neighbor ranks by. -/
def rankKey (n : Neighbor) : ℤ ×ₗ ℕ := toLex (n.distance.totalKey, n.label.toNat)

theorem rankKey_injective : Function.Injective rankKey := by
  intro a b h
  obtain ⟨hd, hl⟩ := Prod.mk.inj (toLex.injective h)
  exact eq_of_fields (UInt64.toNat_inj.1 hl) (Binary.totalKey_inj.1 hd)

/-- Neighbors in the order of rank. -/
instance : LinearOrder Neighbor := LinearOrder.lift' rankKey rankKey_injective

theorem lt_iff {a b : Neighbor} :
    a < b ↔ a.distance.totalKey < b.distance.totalKey ∨
      a.distance.totalKey = b.distance.totalKey ∧ a.label < b.label := by
  rw [UInt64.lt_iff_toNat_lt]
  exact Prod.Lex.toLex_lt_toLex

/-- What ranks within has no later distance. -/
theorem totalKey_le_of_le {a b : Neighbor} (h : a ≤ b) :
    a.distance.totalKey ≤ b.distance.totalKey :=
  not_lt.1 fun hlt => not_lt.2 h (lt_iff.2 (Or.inl hlt))

theorem rankCompare_eq_lt {a b : Neighbor} : a.rankCompare b = .lt ↔ a < b := by
  rw [lt_iff, rankCompare, Ordering.then_eq_lt, Binary.totalCompare_eq_lt,
    Binary.totalCompare_eq_eq, ← Binary.totalKey_inj, Std.compare_eq_lt]

theorem rankCompare_eq_gt {a b : Neighbor} : a.rankCompare b = .gt ↔ b < a := by
  rw [lt_iff, rankCompare, Ordering.then_eq_gt, Binary.totalCompare_eq_gt,
    Binary.totalCompare_eq_eq, ← Binary.totalKey_inj, Std.compare_eq_gt,
    @eq_comm _ a.distance.totalKey]

theorem rankCompare_ne_gt {a b : Neighbor} : a.rankCompare b ≠ .gt ↔ a ≤ b := by
  rw [Ne, rankCompare_eq_gt, not_lt]

/-- Only a neighbor itself ranks the same. -/
theorem rankCompare_eq_eq {a b : Neighbor} : a.rankCompare b = .eq ↔ a = b := by
  constructor
  · intro h
    have hle : a ≤ b := rankCompare_ne_gt.1 (by simp [h])
    have hnot : ¬ a < b := fun hlt => by simp [rankCompare_eq_lt.2 hlt] at h
    exact le_antisymm hle (not_lt.1 hnot)
  · rintro rfl
    simp [rankCompare, Binary.totalCompare]

/-- Compared the other way round, the answer is turned around. -/
theorem swap_rankCompare (a b : Neighbor) : (a.rankCompare b).swap = b.rankCompare a := by
  rcases lt_trichotomy a b with hlt | rfl | hlt
  · rw [rankCompare_eq_lt.2 hlt, rankCompare_eq_gt.2 hlt]
    rfl
  · rw [rankCompare_eq_eq.2 rfl]
    rfl
  · rw [rankCompare_eq_lt.2 hlt, rankCompare_eq_gt.2 hlt]
    rfl

theorem ranksBefore_iff {a b : Neighbor} : a.ranksBefore b = true ↔ a < b := by
  rw [ranksBefore, decide_eq_true_eq, rankCompare_eq_lt]

theorem ranksWithin_iff {a b : Neighbor} : a.ranksWithin b = true ↔ a ≤ b := by
  rw [ranksWithin, decide_eq_true_eq, rankCompare_ne_gt]

/-! ## The ranked arrangement -/

theorem sortByRank_perm (ns : List Neighbor) : (sortByRank ns).Perm ns :=
  List.mergeSort_perm ns ranksWithin

@[simp] theorem mem_sortByRank {n : Neighbor} {ns : List Neighbor} : n ∈ sortByRank ns ↔ n ∈ ns :=
  (sortByRank_perm ns).mem_iff

theorem pairwise_sortByRank (ns : List Neighbor) : (sortByRank ns).Pairwise (· ≤ ·) := by
  have htrans : ∀ a b c : Neighbor, a.ranksWithin b = true → b.ranksWithin c = true →
      a.ranksWithin c = true := fun a b c hab hbc =>
    ranksWithin_iff.2 ((ranksWithin_iff.1 hab).trans (ranksWithin_iff.1 hbc))
  have htotal : ∀ a b : Neighbor, (a.ranksWithin b || b.ranksWithin a) = true := fun a b => by
    rw [Bool.or_eq_true, ranksWithin_iff, ranksWithin_iff]
    exact le_total a b
  exact (List.pairwise_mergeSort htrans htotal ns).imp ranksWithin_iff.1

/-- **A list has one ranked arrangement.** Whatever is ascending and holds the same neighbors is
    it. -/
theorem eq_sortByRank {xs ns : List Neighbor} (ascending : xs.Pairwise (· ≤ ·))
    (same : xs.Perm ns) : xs = sortByRank ns :=
  List.Perm.eq_of_pairwise' ascending (pairwise_sortByRank ns)
    (same.trans (sortByRank_perm ns).symm)

/-- The order in which neighbors were gathered does not show. -/
theorem sortByRank_eq_of_perm {xs ys : List Neighbor} (h : xs.Perm ys) :
    sortByRank xs = sortByRank ys :=
  eq_sortByRank (pairwise_sortByRank xs) ((sortByRank_perm xs).trans h)

theorem sortByRank_of_pairwise {xs : List Neighbor} (ascending : xs.Pairwise (· ≤ ·)) :
    sortByRank xs = xs :=
  (eq_sortByRank ascending (List.Perm.refl xs)).symm

/-- Choosing before ranking and choosing from the ranked neighbors are the same. -/
theorem sortByRank_filter (p : Neighbor → Bool) (ns : List Neighbor) :
    sortByRank (ns.filter p) = (sortByRank ns).filter p :=
  (eq_sortByRank ((pairwise_sortByRank ns).filter p) ((sortByRank_perm ns).filter p)).symm

/-- Without repetitions the ranked arrangement ascends strictly. -/
theorem pairwise_lt_sortByRank {ns : List Neighbor} (distinct : ns.Nodup) :
    (sortByRank ns).Pairwise (· < ·) :=
  (pairwise_sortByRank ns).imp₂ (fun _ _ hle hne => lt_of_le_of_ne hle hne)
    ((sortByRank_perm ns).nodup_iff.2 distinct)

/-! ## The ranking is canonical -/

/-- **Rank is a total order of patterns, and so there is one ranking.** Distances are compared as
    signed patterns with the bits below a set sign flipped, then labels where the distances are the
    same. This is antisymmetric, transitive and total; only the same label with the same pattern
    compares as equal, and a distance of less value comes first. So however a list of neighbors is
    brought into an order that ascends in rank, it becomes the same list, and any rearrangement of
    the neighbors becomes that list too. -/
theorem rank_is_canonical :
    (∀ (l m : Label) (v w : BitVec 32),
      rankCompare ⟨l, .ofBits .single v.toNat⟩ ⟨m, .ofBits .single w.toNat⟩ =
        (compare (Binary.flipBelowSign v).toInt (Binary.flipBelowSign w).toInt).then
          (compare l m)) ∧
    (∀ a b : Neighbor, (a.rankCompare b).swap = b.rankCompare a) ∧
    (∀ a b : Neighbor, a.rankCompare b ≠ .gt → b.rankCompare a ≠ .gt → a = b) ∧
    (∀ a b c : Neighbor, a.rankCompare b ≠ .gt → b.rankCompare c ≠ .gt → a.rankCompare c ≠ .gt) ∧
    (∀ a b : Neighbor, a.rankCompare b ≠ .gt ∨ b.rankCompare a ≠ .gt) ∧
    (∀ a b : Neighbor, a.rankCompare b = .eq ↔
      a.label = b.label ∧ a.distance.toBits = b.distance.toBits) ∧
    (∀ a b : Neighbor, a.distance.lt b.distance = true → a.rankCompare b = .lt) ∧
    ∀ ns : List Neighbor,
      (sortByRank ns).Perm ns ∧ (sortByRank ns).Pairwise (fun a b => a.rankCompare b ≠ .gt) ∧
      (∀ ranked : List Neighbor, ranked.Perm ns →
        ranked.Pairwise (fun a b => a.rankCompare b ≠ .gt) → ranked = sortByRank ns) ∧
      ∀ ms : List Neighbor, ms.Perm ns → sortByRank ms = sortByRank ns := by
  simp only [rankCompare_ne_gt]
  refine ⟨?_, swap_rankCompare, fun a b => le_antisymm, fun a b c => le_trans, le_total, ?_, ?_, ?_⟩
  · intro l m v w
    rw [rankCompare, Binary.totalCompare, Binary.totalKey_ofBits, Binary.totalKey_ofBits]
  · intro a b
    rw [rankCompare_eq_eq, Binary.toBits_inj]
    constructor
    · rintro rfl
      exact ⟨rfl, rfl⟩
    · rintro ⟨hlabel, hdistance⟩
      exact eq_of_fields hlabel hdistance
  · intro a b h
    exact rankCompare_eq_lt.2 (lt_iff.2 (Or.inl (Binary.totalKey_lt_of_lt h)))
  · intro ns
    refine ⟨sortByRank_perm ns, pairwise_sortByRank ns, ?_, fun ms => sortByRank_eq_of_perm⟩
    intro ranked same ascending
    exact eq_sortByRank ascending same

/-- The not-a-numbers go to the two ends, the zeros stay apart with the signed one first, and labels
    decide between distances of one pattern. -/
theorem rank_is_canonical_ends :
    let ns : List Neighbor := [⟨4, .zero false⟩, ⟨2, .notANumber⟩, ⟨3, .zero false⟩,
      ⟨9, .zero true⟩, ⟨8, -.infinite false⟩, ⟨6, -.notANumber⟩]
    let ranking : List Neighbor := [⟨6, -.notANumber⟩, ⟨8, -.infinite false⟩, ⟨9, .zero true⟩,
      ⟨3, .zero false⟩, ⟨4, .zero false⟩, ⟨2, .notANumber⟩]
    ranking.Perm ns ∧ ranking.Pairwise (fun a b => a.rankCompare b ≠ .gt) ∧
      ranking = sortByRank ns ∧ sortByRank ns.reverse = ranking ∧
      (-.infinite false : Single).lt (.zero true) = true ∧
      rankCompare ⟨8, -.infinite false⟩ ⟨3, .zero true⟩ = .lt := by
  intro ns ranking
  obtain ⟨-, -, -, -, -, -, hvalue, hsort⟩ := rank_is_canonical
  obtain ⟨-, -, hunique, hreordered⟩ := hsort ns
  have hperm : ranking.Perm ns := by decide
  have hascending : ranking.Pairwise (fun a b => a.rankCompare b ≠ .gt) := by decide
  have hranking : ranking = sortByRank ns := hunique ranking hperm hascending
  have hless : (-.infinite false : Single).lt (.zero true) = true := by decide
  refine ⟨hperm, hascending, hranking, ?_, hless, hvalue _ _ hless⟩
  rw [hranking]
  exact hreordered _ (List.reverse_perm ns)

/-! ## The stable arrangement by label -/

/-- `sorted` holds the neighbors of `ns` by rising label, those of one label in the order they have
    in `ns`. -/
structure StableByLabel (ns sorted : List Neighbor) : Prop where
  perm : sorted.Perm ns
  ascending : sorted.Pairwise fun a b => a.label ≤ b.label
  stable : ∀ l, (sorted.filter (·.label = l)) = ns.filter (·.label = l)

theorem stableByLabel_sortByLabel (ns : List Neighbor) : StableByLabel ns (sortByLabel ns) := by
  have htrans : ∀ a b c : Neighbor, decide (a.label ≤ b.label) = true →
      decide (b.label ≤ c.label) = true → decide (a.label ≤ c.label) = true := by
    intro a b c hab hbc
    rw [decide_eq_true_eq] at *
    exact UInt64.le_trans hab hbc
  have htotal : ∀ a b : Neighbor,
      (decide (a.label ≤ b.label) || decide (b.label ≤ a.label)) = true := by
    intro a b
    rw [Bool.or_eq_true, decide_eq_true_eq, decide_eq_true_eq]
    exact UInt64.le_total a.label b.label
  have hperm : (sortByLabel ns).Perm ns := List.mergeSort_perm _ _
  refine ⟨hperm, (List.pairwise_mergeSort htrans htotal ns).imp of_decide_eq_true, ?_⟩
  intro l
  -- the neighbors of `l` are sorted as they are, and the sort keeps sorted sublists
  have hsorted : (ns.filter (·.label = l)).Pairwise fun a b => decide (a.label ≤ b.label) := by
    apply List.pairwise_of_forall_mem_list
    intro a ha b hb
    rw [List.mem_filter, decide_eq_true_eq] at ha hb
    rw [decide_eq_true_eq, ha.2, hb.2]
    exact UInt64.le_refl l
  have hsub : (ns.filter (·.label = l)).Sublist (sortByLabel ns) :=
    List.sublist_mergeSort htrans htotal hsorted List.filter_sublist
  have hsub' := hsub.filter (·.label = l)
  rw [List.filter_filter] at hsub'
  simp only [Bool.and_self] at hsub'
  exact (hsub'.eq_of_length (hperm.filter _).length_eq.symm).symm

theorem mem_iff_of_filter_label {xs ys : List Neighbor}
    (same : ∀ l, xs.filter (·.label = l) = ys.filter (·.label = l)) (n : Neighbor) :
    n ∈ xs ↔ n ∈ ys := by
  have hself : ∀ zs : List Neighbor, n ∈ zs ↔ n ∈ zs.filter (·.label = n.label) := by simp
  rw [hself xs, hself ys, same]

/-- Two arrangements by label agree if they agree label by label: both heads carry the least label,
    and among its neighbors they come first. -/
theorem eq_of_filter_label {xs ys : List Neighbor}
    (hxs : xs.Pairwise fun a b => a.label ≤ b.label)
    (hys : ys.Pairwise fun a b => a.label ≤ b.label)
    (same : ∀ l, xs.filter (·.label = l) = ys.filter (·.label = l)) : xs = ys := by
  induction xs generalizing ys with
  | nil =>
      cases ys with
      | nil => rfl
      | cons y ys => simpa using same y.label
  | cons x xs ih =>
      cases ys with
      | nil => simpa using same x.label
      | cons y ys =>
          have hmem := mem_iff_of_filter_label same
          -- each head is somewhere in the other list, so its label is not below the other's
          have hlabel : x.label = y.label := by
            refine UInt64.le_antisymm ?_ ?_
            · rcases List.mem_cons.1 ((hmem y).2 List.mem_cons_self) with rfl | hy
              · exact UInt64.le_refl _
              · exact List.rel_of_pairwise_cons hxs hy
            · rcases List.mem_cons.1 ((hmem x).1 List.mem_cons_self) with rfl | hx
              · exact UInt64.le_refl _
              · exact List.rel_of_pairwise_cons hys hx
          have hhead : x = y := by
            have h := same y.label
            rw [List.filter_cons_of_pos (by simpa using hlabel),
              List.filter_cons_of_pos (by simp)] at h
            exact (List.cons.inj h).1
          subst hhead
          congr 1
          apply ih hxs.of_cons hys.of_cons
          intro l
          have h := same l
          by_cases hl : x.label = l
          · rw [List.filter_cons_of_pos (by simpa using hl),
              List.filter_cons_of_pos (by simpa using hl)] at h
            exact (List.cons.inj h).2
          · rwa [List.filter_cons_of_neg (by simpa using hl),
              List.filter_cons_of_neg (by simpa using hl)] at h

/-- The stable arrangement by label is the only one. -/
theorem StableByLabel.unique {ns xs ys : List Neighbor} (hx : StableByLabel ns xs)
    (hy : StableByLabel ns ys) : xs = ys :=
  eq_of_filter_label hx.ascending hy.ascending fun l => (hx.stable l).trans (hy.stable l).symm

end Neighbor

/-! ## Views of a ranked answer -/

namespace Arrangement

/-- A view shows what there is. -/
theorem apply_perm (arrangement : Arrangement) (ns : List Neighbor) :
    (arrangement.apply ns).Perm ns := by
  cases arrangement with
  | byLabel => exact (Neighbor.stableByLabel_sortByLabel ns).perm
  | byRank => exact List.Perm.refl ns

/-- Ranking takes every view of a ranked answer back to it. -/
theorem sortByRank_apply (arrangement : Arrangement) {ns : List Neighbor}
    (ascending : ns.Pairwise (· ≤ ·)) : Neighbor.sortByRank (arrangement.apply ns) = ns := by
  rw [Neighbor.sortByRank_eq_of_perm (arrangement.apply_perm ns),
    Neighbor.sortByRank_of_pairwise ascending]

end Arrangement

end ExactNeighbors
