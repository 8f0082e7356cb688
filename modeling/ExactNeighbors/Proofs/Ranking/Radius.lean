import ExactNeighbors.Proofs.Ranking.Nearest
import ExactNeighbors.Ranking.Radius
import Mathlib.Data.List.TakeWhile

set_option autoImplicit false

/-! # Within a radius is the ranking up to the radius

A radius is a bound on values, and a ranking is by patterns. Among numbers the two go together: what
ranks within a neighbor that is within the radius is within it too (`Radius.accepts_of_le`). A test
of that kind cuts the ranking in two, and those that pass it come first
(`Neighbor.sortByRank_eq_append`). So it makes no difference whether neighbors are kept to the radius
and then ranked, or ranked and then taken as long as they are within it
(`Radius.select_is_ranking_up_to_radius`). -/

namespace ExactNeighbors

namespace Neighbor

variable {ns : List Neighbor} {p : Neighbor → Bool}

/-- What passes a test comes first in the ranking, if whatever ranks within it passes too. -/
theorem sortByRank_eq_append
    (front : ∀ a ∈ ns, ∀ b ∈ ns, a ≤ b → p b = true → p a = true) :
    sortByRank ns = sortByRank (ns.filter p) ++ sortByRank (ns.filter fun n => !p n) := by
  refine (eq_sortByRank ?_ ?_).symm
  · rw [List.pairwise_append]
    refine ⟨pairwise_sortByRank _, pairwise_sortByRank _, ?_⟩
    intro a ha b hb
    rw [mem_sortByRank, List.mem_filter] at ha hb
    by_contra hnot
    have hpasses := front b hb.1 a ha.1 (le_of_not_ge hnot) ha.2
    simp [hpasses] at hb
  · exact ((sortByRank_perm _).append (sortByRank_perm _)).trans (List.filter_append_perm p ns)

/-- So it is the ranking up to where the test fails. -/
theorem sortByRank_filter_eq_takeWhile
    (front : ∀ a ∈ ns, ∀ b ∈ ns, a ≤ b → p b = true → p a = true) :
    sortByRank (ns.filter p) = (sortByRank ns).takeWhile p := by
  have hpass : ∀ n ∈ sortByRank (ns.filter p), p n = true := by
    intro n hn
    exact (List.mem_filter.1 (mem_sortByRank.1 hn)).2
  have hfail : (sortByRank (ns.filter fun n => !p n)).takeWhile p = [] := by
    cases hrest : sortByRank (ns.filter fun n => !p n) with
    | nil => rfl
    | cons n rest =>
        have hn : n ∈ ns.filter fun n => !p n := by
          rw [← mem_sortByRank, hrest]
          exact List.mem_cons_self
        exact List.takeWhile_cons_of_neg (by simpa using (List.mem_filter.1 hn).2)
  rw [sortByRank_eq_append front, List.takeWhile_append_of_pos hpass, hfail, List.append_nil]

end Neighbor

namespace Radius

variable {ns : List Neighbor}

theorem val_of_ofSingle {r : Single} {radius : Radius} (h : ofSingle r = .ok radius) :
    radius.val = r := by
  unfold ofSingle at h
  split at h
  · cases h
    rfl
  · cases h

theorem isNaN_val (radius : Radius) : radius.val.isNaN = false :=
  (Bool.or_eq_false_iff.1 radius.accepted).1

/-- A number that ranks within what is within a radius is within it. -/
theorem accepts_of_le (radius : Radius) {a b : Neighbor} (number : a.distance.isNaN = false)
    (hab : a ≤ b) (hb : radius.accepts b.distance = true) : radius.accepts a.distance = true :=
  Binary.le_of_totalKey_le number (Neighbor.totalKey_le_of_le hab) hb

theorem select_eq_takeWhile (radius : Radius) (numbers : ∀ n ∈ ns, n.distance.isNaN = false) :
    radius.select ns = (Neighbor.sortByRank ns).takeWhile fun n => radius.accepts n.distance :=
  Neighbor.sortByRank_filter_eq_takeWhile fun a ha _ _ => radius.accepts_of_le (numbers a ha)

/-- **Within a radius is the ranking up to the radius**, provided that all distances are numbers.
    What comes after is beyond the radius. If there are any within it, and just as many of the
    nearest are asked for, the answer is the same; and a larger radius only adds to its end. -/
theorem select_is_ranking_up_to_radius {r : Single} {radius : Radius}
    (accepted : ofSingle r = .ok radius) (numbers : ∀ n ∈ ns, n.distance.isNaN = false) :
    let ranking := Neighbor.sortByRank ns
    let within := radius.select ns
    within = ranking.takeWhile (fun n => n.distance.le r) ∧
    (∀ n ∈ ranking.drop within.length, r.lt n.distance = true) ∧
    (∀ m, ns.countP (fun n => n.distance.le r) = m → 0 < m →
      ∃ count, Count.ofNat m = .ok count ∧ count.select ns = within) ∧
    ∀ larger wider, ofSingle larger = .ok wider → r.le larger = true →
      within <+: wider.select ns := by
  intro ranking within
  obtain rfl := val_of_ofSingle accepted
  have hcut : ranking =
      within ++ Neighbor.sortByRank (ns.filter fun n => !radius.accepts n.distance) :=
    Neighbor.sortByRank_eq_append fun a ha _ _ => radius.accepts_of_le (numbers a ha)
  refine ⟨radius.select_eq_takeWhile numbers, ?_, ?_, ?_⟩
  · intro n hn
    rw [hcut, List.drop_left, Neighbor.mem_sortByRank, List.mem_filter] at hn
    exact Binary.lt_of_le_eq_false (numbers n hn.1) radius.isNaN_val (by simpa [accepts] using hn.2)
  · intro m hm hpos
    have hlength : within.length = m := by
      rw [← hm, List.countP_eq_length_filter]
      exact (Neighbor.sortByRank_perm _).length_eq
    refine ⟨⟨m, hpos⟩, dif_pos hpos, ?_⟩
    rw [Count.select_eq_take]
    change ranking.take m = within
    rw [hcut, ← hlength, List.take_left]
  · intro larger wider haccepted hle
    obtain rfl := val_of_ofSingle haccepted
    -- what is within the radius is within the larger one, so the walk to the first goes along
    -- the walk to the second
    have hwithin : within = (wider.select ns).takeWhile fun n => radius.accepts n.distance := by
      rw [select_eq_takeWhile wider numbers, List.takeWhile_takeWhile]
      refine (select_eq_takeWhile radius numbers).trans (congrArg (List.takeWhile · ranking) ?_)
      funext n
      rw [Bool.eq_iff_iff, decide_eq_true_iff]
      exact (and_iff_left_of_imp fun h => Binary.le_of_le_of_le h hle).symm
    rw [hwithin]
    exact List.takeWhile_prefix _

/-- The radius of zero with a sign covers three neighbors, one at either zero and one twice, and all of
    them are in front of what is infinitely far. -/
theorem select_is_ranking_up_to_radius_zeros :
    let ns : List Neighbor := [⟨4, .zero false⟩, ⟨1, .infinite false⟩, ⟨9, .zero true⟩,
      ⟨4, .zero false⟩]
    let within : List Neighbor := [⟨9, .zero true⟩, ⟨4, .zero false⟩, ⟨4, .zero false⟩]
    (∀ n ∈ ns, n.distance.isNaN = false) ∧
    ∃ radius wider, ofSingle (.zero true) = .ok radius ∧ ofSingle (.infinite false) = .ok wider ∧
      (.zero true : Single).le (.infinite false) = true ∧ radius.select ns = within ∧
      ns.countP (fun n => n.distance.le (.zero true)) = 3 ∧ 0 < 3 ∧
      (∃ count, Count.ofNat 3 = .ok count ∧ count.select ns = within) ∧
      within <+: wider.select ns := by
  intro ns within
  have hnumbers : ∀ n ∈ ns, n.distance.isNaN = false := by decide
  obtain ⟨radius, haccepted⟩ : ∃ radius, ofSingle (.zero true) = .ok radius := ⟨_, rfl⟩
  obtain ⟨wider, hwider⟩ : ∃ wider, ofSingle (.infinite false) = .ok wider := ⟨_, rfl⟩
  have hle : (.zero true : Single).le (.infinite false) = true := by decide
  have hcount : ns.countP (fun n => n.distance.le (.zero true)) = 3 := by decide
  obtain ⟨hfront, -, hnearest, hlarger⟩ := select_is_ranking_up_to_radius haccepted hnumbers
  have hranking : within ++ [⟨1, .infinite false⟩] = Neighbor.sortByRank ns :=
    Neighbor.eq_sortByRank (by decide) (by decide)
  have hwithin : radius.select ns = within := by
    rw [hfront, ← hranking]
    decide
  rw [← hwithin]
  exact ⟨hnumbers, radius, wider, haccepted, hwider, hle, rfl, hcount, by decide,
    hnearest 3 hcount (by decide), hlarger _ _ hwider hle⟩

end Radius

end ExactNeighbors
