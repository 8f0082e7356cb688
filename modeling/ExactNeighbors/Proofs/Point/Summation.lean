import ExactNeighbors.Proofs.Binary.Whole
import ExactNeighbors.Proofs.Point.LaneSum
import Mathlib.Data.List.Perm.Basic
import Mathlib.Algebra.Order.BigOperators.Group.List

set_option autoImplicit false

/-! # Every term is added once

In which order a sum in lanes adds its terms depends on their number only. The additions form a tree
(`Summation`) with the places of the terms at its leaves, beside the zeros that the lanes and the sum
over them start from, and every place stands at one leaf (`exists_laneSum_eq_sum`).

So a sum in lanes of whole numbers is the whole number it should be as long as no partial sum can
leave the numbers of a significand: by induction on the tree no addition is rounded
(`Summation.whole_sum`). -/

namespace ExactNeighbors

/-- In which order the terms at some places are added up. -/
inductive Summation where
  | zero (negative : Bool)
  | term (place : ℕ)
  | add (first second : Summation)

namespace Summation

/-- The places whose terms are added, from left to right. -/
def places : Summation → List ℕ
  | .zero _ => []
  | .term i => [i]
  | .add s t => s.places ++ t.places

/-- What the terms add up to. -/
def sum (term : ℕ → Single) : Summation → Single
  | .zero negative => .zero negative
  | .term i => term i
  | .add s t => s.sum term + t.sum term

/-! ## Sums that are not rounded -/

/-- **Whole numbers are added exactly** if their sizes add up to no more than a significand holds. -/
theorem whole_sum (s : Summation) {term : ℕ → Single} {n : ℕ → ℤ}
    (whole : ∀ i ∈ s.places, (term i).Whole (n i))
    (short : (s.places.map fun i => |n i|).sum ≤ 2 ^ 24) :
    (s.sum term).Whole (s.places.map n).sum := by
  induction s with
  | zero negative => exact ⟨(Binary.bounded_zero negative 0).finite, Binary.value_zero negative⟩
  | term i => simpa [places, sum] using whole i (List.mem_singleton_self i)
  | add s t ihs iht =>
      obtain ⟨hs, ht⟩ := List.forall_mem_append.1 whole
      rw [places, List.map_append, List.sum_append] at short ⊢
      have hnonneg (u : Summation) : 0 ≤ (u.places.map fun i => |n i|).sum :=
        List.sum_nonneg (List.forall_mem_map.2 fun i _ => abs_nonneg (n i))
      have habs (u : Summation) : |(u.places.map n).sum| ≤ (u.places.map fun i => |n i|).sum := by
        have h := List.le_sum_of_subadditive (|·| : ℤ → ℤ) abs_zero.le abs_add_le (u.places.map n)
        rwa [List.map_map] at h
      have hsshort := hnonneg s
      have htshort := hnonneg t
      refine Binary.Whole.add (by decide) (ihs hs (by omega)) (iht ht (by omega)) ?_
      calc |(s.places.map n).sum + (t.places.map n).sum| ≤ _ := abs_add_le _ _
        _ ≤ _ := add_le_add (habs s) (habs t)
        _ ≤ 2 ^ 24 := short

/-! ## The order of the lanes -/

theorem map_sum_zipWith_add (term : ℕ → Single) (lanes terms : List Summation) :
    (List.zipWith add lanes terms).map (sum term) =
      List.zipWith (· + ·) (lanes.map (sum term)) (terms.map (sum term)) := by
  rw [List.map_zipWith, List.zipWith_map]
  rfl

theorem places_zipWith_add {lanes terms : List Summation} (length : lanes.length = terms.length) :
    ((List.zipWith add lanes terms).flatMap places).Perm
      (lanes.flatMap places ++ terms.flatMap places) := by
  induction lanes generalizing terms with
  | nil =>
      obtain rfl := List.length_eq_zero_iff.1 length.symm
      exact List.Perm.refl _
  | cons l lanes ih =>
      obtain ⟨t, terms, rfl⟩ := List.exists_cons_of_length_eq_add_one length.symm
      simp only [List.zipWith_cons_cons, List.flatMap_cons, places, List.append_assoc]
      refine List.Perm.append_left _ ?_
      refine ((ih (Nat.succ_inj.1 length)).append_left _).trans ?_
      simp only [← List.append_assoc]
      exact List.Perm.append_right _ List.perm_append_comm

/-- Adding full groups to the lanes loses no place. -/
theorem exists_addGroups_eq (lanes terms : List Summation) (count : lanes.length = laneCount) :
    ∃ lanes' rest : List Summation,
      (∀ term : ℕ → Single, addGroups (lanes.map (sum term)) (terms.map (sum term)) =
        (lanes'.map (sum term), rest.map (sum term))) ∧
      ((lanes' ++ rest).flatMap places).Perm ((lanes ++ terms).flatMap places) := by
  induction hlength : terms.length using Nat.strongRecOn generalizing lanes terms with
  | ind n ih =>
      by_cases hshort : n < laneCount
      · refine ⟨lanes, terms, fun term => ?_, List.Perm.refl _⟩
        rw [addGroups, List.length_map, hlength, if_pos hshort]
      · have htake : lanes.length = (terms.take laneCount).length := by
          rw [List.length_take]
          omega
        have hcount : (List.zipWith add lanes (terms.take laneCount)).length = laneCount := by
          rw [List.length_zipWith, ← htake, count, Nat.min_self]
        have hdrop : (terms.drop laneCount).length < n := by
          rw [List.length_drop, hlength]
          exact Nat.sub_lt (Nat.lt_of_lt_of_le (by decide) (Nat.not_lt.1 hshort)) (by decide)
        obtain ⟨lanes', rest, hgroups, hperm⟩ := ih _ hdrop _ _ hcount rfl
        refine ⟨lanes', rest, fun term => ?_, hperm.trans ?_⟩
        · rw [addGroups, List.length_map, hlength, if_neg hshort, ← List.map_take, ← List.map_drop,
            ← map_sum_zipWith_add]
          exact hgroups term
        · simp only [List.flatMap_append]
          refine ((places_zipWith_add htake).append_right _).trans ?_
          rw [List.append_assoc, ← List.flatMap_append, List.take_append_drop]

theorem sum_foldl_add (term : ℕ → Single) (start : Summation) (terms : List Summation) :
    (terms.foldl add start).sum term = (terms.map (sum term)).foldl (· + ·) (start.sum term) := by
  induction terms generalizing start with
  | nil => rfl
  | cons t terms ih => exact ih (start.add t)

theorem places_foldl_add (start : Summation) (terms : List Summation) :
    (terms.foldl add start).places = start.places ++ terms.flatMap places := by
  induction terms generalizing start with
  | nil => exact (List.append_nil _).symm
  | cons t terms ih => rw [List.foldl_cons, ih, List.flatMap_cons, places, List.append_assoc]

end Summation

open Summation

/-- **A sum in lanes adds every term once**, in an order that only the number of terms decides. -/
theorem exists_laneSum_eq_sum (n : ℕ) :
    ∃ s : Summation, s.places.Perm (List.range n) ∧
      ∀ term : ℕ → Single, laneSum ((List.range n).map term) = s.sum term := by
  obtain ⟨lanes, rest, hgroups, hperm⟩ := exists_addGroups_eq
    (List.replicate laneCount (.zero false)) ((List.range n).map .term) List.length_replicate
  have hplaces : ((List.replicate laneCount (.zero false) : List Summation) ++
      (List.range n).map Summation.term).flatMap places = List.range n := by
    have hzeros : (List.replicate laneCount (.zero false) : List Summation).flatMap places = [] :=
      List.flatMap_eq_nil_iff.2 fun s hs => by rw [List.eq_of_mem_replicate hs, places]
    rw [List.flatMap_append, hzeros, List.nil_append, List.flatMap_map]
    exact List.flatMap_singleton' _
  refine ⟨rest.foldl add (lanes.foldl add (.zero true)), ?_, fun term => ?_⟩
  · rw [hplaces, List.flatMap_append] at hperm
    rwa [places_foldl_add, places_foldl_add, places, List.nil_append]
  · have hterms : ((List.range n).map Summation.term).map (sum term) = (List.range n).map term := by
      rw [List.map_map]
      rfl
    have hlanes : (List.replicate laneCount (.zero false)).map (sum term) =
        List.replicate laneCount (.zero false) := List.map_replicate
    have h := hgroups term
    rw [hterms, hlanes] at h
    rw [laneSum, h, sum_foldl_add, sum_foldl_add]
    rfl

end ExactNeighbors
