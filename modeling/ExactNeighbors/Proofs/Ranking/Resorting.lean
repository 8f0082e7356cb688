import ExactNeighbors.Proofs.Ranking.Rank

set_option autoImplicit false

/-! # Sorting an answer again and again

An answer is brought into one arrangement or the other as often as one likes. Ranking forgets what was
there before: neighbors that tie are the same, so a list has one ranked arrangement, and even a sort that
promises no more than an ascending list comes to it (`Arrangement.promises_iff`).

Arranging by label forgets less, since the neighbors of one label stay in the order they had. Which
order that is depends on whether the answer was ever ranked. If the neighbors of every label ascend once
(`RankedPerLabel`), they do after every later call, and then the arrangement by label is the one by label
and distance (`StableByLabel.lexicographic`). However often an answer that is never ranked is arranged by
label, it is the stable arrangement of what it was in the beginning (`stableByLabel_resort`). -/

namespace ExactNeighbors

namespace Neighbor

/-! ## Labels first -/

/-- Compares labels first and distances where the labels are the same. -/
def labelCompare (a b : Neighbor) : Ordering :=
  (compare a.label b.label).then (a.distance.totalCompare b.distance)

/-- Neighbors of one label rank by distance alone. -/
theorem lt_iff_of_label_eq {a b : Neighbor} (same : a.label = b.label) :
    a < b ↔ a.distance.totalKey < b.distance.totalKey := by
  rw [lt_iff, same]
  simp

theorem labelCompare_ne_gt {a b : Neighbor} :
    a.labelCompare b ≠ .gt ↔ a.label ≤ b.label ∧ (a.label = b.label → a ≤ b) := by
  rw [labelCompare, Ne, Ordering.then_eq_gt, Std.compare_eq_gt, Std.compare_eq_iff_eq,
    Binary.totalCompare_eq_gt, not_or, not_and]
  refine and_congr UInt64.not_lt (forall_congr' fun same => ?_)
  rw [← lt_iff_of_label_eq same.symm, not_lt]

theorem labelCompare_antisymm {a b : Neighbor} (hab : a.labelCompare b ≠ .gt)
    (hba : b.labelCompare a ≠ .gt) : a = b := by
  rw [labelCompare_ne_gt] at hab hba
  have same : a.label = b.label := UInt64.le_antisymm hab.1 hba.1
  exact le_antisymm (hab.2 same) (hba.2 same.symm)

/-- A list has one arrangement by label and distance. -/
theorem eq_of_lexicographic {xs ys : List Neighbor} (same : xs.Perm ys)
    (hxs : xs.Pairwise fun a b => a.labelCompare b ≠ .gt)
    (hys : ys.Pairwise fun a b => a.labelCompare b ≠ .gt) : xs = ys :=
  same.eq_of_pairwise (fun _ _ _ _ => labelCompare_antisymm) hxs hys

/-! ## Answers ranked label by label -/

/-- The neighbors of every label ascend in rank, wherever they stand. -/
def RankedPerLabel (ns : List Neighbor) : Prop :=
  ∀ l, (ns.filter (·.label = l)).Pairwise (· ≤ ·)

theorem rankedPerLabel_of_pairwise {ns : List Neighbor} (ascending : ns.Pairwise (· ≤ ·)) :
    RankedPerLabel ns :=
  fun _ => ascending.filter _

namespace StableByLabel

variable {ns sorted : List Neighbor}

theorem rankedPerLabel (h : StableByLabel ns sorted) (ranked : RankedPerLabel ns) :
    RankedPerLabel sorted := by
  intro l
  rw [h.stable l]
  exact ranked l

/-- Where the neighbors of every label ascend, arranging them by label arranges them by label and
    distance. -/
theorem lexicographic (h : StableByLabel ns sorted) (ranked : RankedPerLabel ns) :
    sorted.Pairwise fun a b => a.labelCompare b ≠ .gt := by
  rw [List.pairwise_iff_forall_sublist]
  intro a b hab
  refine labelCompare_ne_gt.2 ⟨List.pairwise_iff_forall_sublist.1 h.ascending hab, fun same => ?_⟩
  -- two neighbors of one label stand among those of that label as they do in the whole list
  have hfilter : [a, b].Sublist (sorted.filter (·.label = b.label)) := by
    have hsub := hab.filter (·.label = b.label)
    rwa [List.filter_eq_self.2 (by simp [same])] at hsub
  exact List.pairwise_iff_forall_sublist.1 (h.rankedPerLabel ranked b.label) hfilter

/-- A stable arrangement of a stable arrangement is one of what was there first. -/
theorem trans {again : List Neighbor} (h : StableByLabel ns sorted)
    (h' : StableByLabel sorted again) : StableByLabel ns again :=
  ⟨h'.perm.trans h.perm, h'.ascending, fun l => (h'.stable l).trans (h.stable l)⟩

end StableByLabel

end Neighbor

/-! ## One call -/

namespace Arrangement

open Neighbor

/-- Arranges an answer, whatever order it has. -/
def sort : Arrangement → List Neighbor → List Neighbor
  | .byLabel, ns => sortByLabel ns
  | .byRank, ns => sortByRank ns

/-- What is promised of a sorted answer. Of neighbors that tie in rank nothing is promised, so a sort by
    rank may put them in any order. -/
def Promises : Arrangement → List Neighbor → List Neighbor → Prop
  | .byLabel, ns, sorted => StableByLabel ns sorted
  | .byRank, ns, sorted => sorted.Perm ns ∧ sorted.Pairwise fun a b => a.rankCompare b ≠ .gt

/-- **The promise leaves no choice.** -/
theorem promises_iff {arrangement : Arrangement} {ns sorted : List Neighbor} :
    arrangement.Promises ns sorted ↔ sorted = arrangement.sort ns := by
  cases arrangement with
  | byLabel =>
      constructor
      · intro h
        exact StableByLabel.unique h (stableByLabel_sortByLabel ns)
      · rintro rfl
        exact stableByLabel_sortByLabel ns
  | byRank =>
      simp only [Promises, rankCompare_ne_gt]
      constructor
      · rintro ⟨same, ascending⟩
        exact eq_sortByRank ascending same
      · rintro rfl
        exact ⟨sortByRank_perm ns, pairwise_sortByRank ns⟩

theorem sort_perm (arrangement : Arrangement) (ns : List Neighbor) :
    (arrangement.sort ns).Perm ns := by
  cases arrangement with
  | byLabel => exact (stableByLabel_sortByLabel ns).perm
  | byRank => exact sortByRank_perm ns

/-- No call takes apart what is ranked label by label. -/
theorem rankedPerLabel_sort (arrangement : Arrangement) {ns : List Neighbor}
    (ranked : RankedPerLabel ns) : RankedPerLabel (arrangement.sort ns) := by
  cases arrangement with
  | byLabel => exact (stableByLabel_sortByLabel ns).rankedPerLabel ranked
  | byRank => exact rankedPerLabel_of_pairwise (pairwise_sortByRank ns)

end Arrangement

/-! ## Call after call -/

namespace Neighbor

/-- An answer after it was arranged by some calls. -/
def resort (ns : List Neighbor) (calls : List Arrangement) : List Neighbor :=
  calls.foldl (fun answer call => call.sort answer) ns

/-- What may become of an answer if all that is known of the sorts is what they promise. -/
inductive Resorted : List Neighbor → List Arrangement → List Neighbor → Prop
  | nil (ns : List Neighbor) : Resorted ns [] ns
  | cons {ns next answer : List Neighbor} {call : Arrangement} {calls : List Arrangement} :
      call.Promises ns next → Resorted next calls answer → Resorted ns (call :: calls) answer

/-- Call after call, the promises leave no choice. -/
theorem resorted_iff {ns answer : List Neighbor} {calls : List Arrangement} :
    Resorted ns calls answer ↔ answer = resort ns calls := by
  induction calls generalizing ns with
  | nil =>
      constructor
      · rintro ⟨⟩
        rfl
      · rintro rfl
        exact .nil _
  | cons call calls ih =>
      constructor
      · rintro (_ | ⟨hcall, hcalls⟩)
        rw [Arrangement.promises_iff.1 hcall] at hcalls
        exact ih.1 hcalls
      · intro h
        exact .cons (Arrangement.promises_iff.2 rfl) (ih.2 h)

theorem resort_append_singleton (ns : List Neighbor) (calls : List Arrangement)
    (call : Arrangement) : resort ns (calls ++ [call]) = call.sort (resort ns calls) := by
  simp [resort]

/-- Nothing is lost and nothing is added. -/
theorem resort_perm (ns : List Neighbor) (calls : List Arrangement) :
    (resort ns calls).Perm ns := by
  induction calls generalizing ns with
  | nil => exact List.Perm.refl ns
  | cons call calls ih => exact (ih (call.sort ns)).trans (call.sort_perm ns)

/-- Once an answer is ranked label by label, it stays so. -/
theorem rankedPerLabel_resort {ns : List Neighbor} (ranked : RankedPerLabel ns)
    (calls : List Arrangement) : RankedPerLabel (resort ns calls) := by
  induction calls generalizing ns with
  | nil => exact ranked
  | cons call calls ih => exact ih (call.rankedPerLabel_sort ranked)

/-- It is so from the first call on that ranks it. -/
theorem rankedPerLabel_resort_of_mem (ns : List Neighbor) {calls : List Arrangement}
    (mem : .byRank ∈ calls) : RankedPerLabel (resort ns calls) := by
  obtain ⟨before, after, rfl⟩ := List.append_of_mem mem
  rw [resort, List.foldl_append, List.foldl_cons]
  exact rankedPerLabel_resort (rankedPerLabel_of_pairwise (pairwise_sortByRank _)) after

/-- An answer that was only ever arranged by label is the stable arrangement of what it was. -/
theorem stableByLabel_resort {ns : List Neighbor} {calls : List Arrangement}
    (unranked : .byRank ∉ calls) : StableByLabel ns (resort ns (calls ++ [.byLabel])) := by
  induction calls generalizing ns with
  | nil => exact stableByLabel_sortByLabel ns
  | cons call calls ih =>
      rw [List.mem_cons, not_or] at unranked
      cases call with
      | byRank => exact absurd rfl unranked.1
      | byLabel => exact (stableByLabel_sortByLabel ns).trans (ih unranked.2)

/-! ## What calls make of an answer -/

/-- **Sorting again is reversible and stable.** After any calls, on any neighbors:

* the answer is the one that the promises of the sorts leave, whatever way they are kept;
* it holds the neighbors there were in the beginning;
* one more call by rank gives the ranking of those, whatever the calls before it were;
* one more call by label gives their only arrangement by label and then distance, if they were ranked in
  the beginning or by one of the calls; if no call was by rank, it gives the stable arrangement of what
  there was in the beginning;
* neighbors that were ranked in the beginning are taken back to it from every view of them. -/
theorem resort_reversible (ns : List Neighbor) (calls : List Arrangement) :
    (∀ answer, Resorted ns calls answer ↔ answer = resort ns calls) ∧
    (resort ns calls).Perm ns ∧
    resort ns (calls ++ [.byRank]) = sortByRank ns ∧
    (ns.Pairwise (fun a b => a.rankCompare b ≠ .gt) ∨ .byRank ∈ calls →
      let answer := resort ns (calls ++ [.byLabel])
      answer.Perm ns ∧ answer.Pairwise (fun a b => a.labelCompare b ≠ .gt) ∧
      ∀ sorted : List Neighbor, sorted.Perm ns →
        sorted.Pairwise (fun a b => a.labelCompare b ≠ .gt) → sorted = answer) ∧
    (.byRank ∉ calls → StableByLabel ns (resort ns (calls ++ [.byLabel]))) ∧
    (ns.Pairwise (fun a b => a.rankCompare b ≠ .gt) →
      resort ns (calls ++ [.byRank]) = ns ∧
      ∀ arrangement : Arrangement, sortByRank (arrangement.apply ns) = ns) := by
  simp only [rankCompare_ne_gt]
  have hperm : ∀ calls, (resort ns calls).Perm ns := resort_perm ns
  have hrank : resort ns (calls ++ [.byRank]) = sortByRank ns := by
    rw [resort_append_singleton]
    exact sortByRank_eq_of_perm (hperm calls)
  refine ⟨fun answer => resorted_iff, hperm calls, hrank, fun ranked => ?_, stableByLabel_resort,
    fun ascending => ⟨?_, fun arrangement => arrangement.sortByRank_apply ascending⟩⟩
  · have hcalls : RankedPerLabel (resort ns calls) := by
      obtain ascending | mem := ranked
      · exact rankedPerLabel_resort (rankedPerLabel_of_pairwise ascending) calls
      · exact rankedPerLabel_resort_of_mem ns mem
    have hlexicographic : (resort ns (calls ++ [.byLabel])).Pairwise
        fun a b => a.labelCompare b ≠ .gt := by
      rw [resort_append_singleton]
      exact (stableByLabel_sortByLabel _).lexicographic hcalls
    refine ⟨hperm _, hlexicographic, fun sorted same hsorted => ?_⟩
    exact eq_of_lexicographic (same.trans (hperm _).symm) hsorted hlexicographic
  · rw [hrank, sortByRank_of_pairwise ascending]

/-- Three neighbors of one label and two of another. Arranged by label alone, those of one label keep the
    order they came in. Arranged by label after they were ranked, they ascend: the zeros stay apart and
    the not-a-number is last. Ranking takes either back. -/
theorem resort_reversible_zeros :
    let ns : List Neighbor := [⟨5, .infinite false⟩, ⟨2, .notANumber⟩, ⟨5, .zero false⟩,
      ⟨2, .infinite false⟩, ⟨5, .zero true⟩]
    let ranking : List Neighbor := [⟨5, .zero true⟩, ⟨5, .zero false⟩, ⟨2, .infinite false⟩,
      ⟨5, .infinite false⟩, ⟨2, .notANumber⟩]
    let labelled : List Neighbor := [⟨2, .infinite false⟩, ⟨2, .notANumber⟩, ⟨5, .zero true⟩,
      ⟨5, .zero false⟩, ⟨5, .infinite false⟩]
    ranking.Pairwise (fun a b => a.rankCompare b ≠ .gt) ∧
      StableByLabel ns (resort ns [.byLabel, .byLabel]) ∧
      resort ns [.byRank, .byLabel] = labelled ∧
      resort ranking [.byLabel] = labelled ∧
      resort ranking [.byLabel, .byRank] = ranking ∧
      sortByRank (Arrangement.byLabel.apply ranking) = ranking := by
  intro ns ranking labelled
  have hranking : ranking.Pairwise (fun a b => a.rankCompare b ≠ .gt) := by decide
  have hlabelled : labelled.Pairwise (fun a b => a.labelCompare b ≠ .gt) := by decide
  obtain ⟨-, -, -, -, hstable, -⟩ := resort_reversible ns [.byLabel]
  obtain ⟨-, -, -, hns, -, -⟩ := resort_reversible ns [.byRank]
  obtain ⟨-, -, -, hascending, -, -⟩ := resort_reversible ranking []
  obtain ⟨-, -, -, -, -, hback⟩ := resort_reversible ranking [.byLabel]
  obtain ⟨hresort, hview⟩ := hback hranking
  refine ⟨hranking, hstable (by decide), ?_, ?_, hresort, hview .byLabel⟩
  · obtain ⟨-, -, hunique⟩ := hns (Or.inr (by decide))
    exact (hunique labelled (by decide) hlabelled).symm
  · obtain ⟨-, -, hunique⟩ := hascending (Or.inl hranking)
    exact (hunique labelled (by decide) hlabelled).symm

end Neighbor

end ExactNeighbors
