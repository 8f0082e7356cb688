import ExactNeighbors.Proofs.Binary.Sign
import ExactNeighbors.Proofs.Point.Summation

set_option autoImplicit false

/-! # Kernels of whole numbers

Between points of whole numbers both kernels of a scan give the sum that is meant, without rounding,
if this sum is short enough for a significand. That is a matter of the terms, which are then whole and
short themselves, and of every term being added once (`Point.kernels_exact`). -/

namespace ExactNeighbors

theorem forall₂_zipWith {α β γ δ ε ζ : Type} {R : α → δ → Prop} {S : β → ε → Prop}
    {T : γ → ζ → Prop} {P : γ → Prop} {g : α → β → γ} {f : δ → ε → ζ} {ms : List α} {ns : List β}
    {xs : List δ} {ys : List ε} (hx : List.Forall₂ R ms xs) (hy : List.Forall₂ S ns ys)
    (small : ∀ z ∈ List.zipWith g ms ns, P z)
    (combine : ∀ {m x n y}, R m x → S n y → P (g m n) → T (g m n) (f x y)) :
    List.Forall₂ T (List.zipWith g ms ns) (List.zipWith f xs ys) := by
  induction hx generalizing ns ys with
  | nil => exact .nil
  | cons hm _ ih =>
      cases hy with
      | nil => exact .nil
      | cons hn hns =>
          obtain ⟨hfirst, hothers⟩ := List.forall_mem_cons.1 small
          exact .cons (combine hm hn hfirst) (ih hns hothers)

/-- A list is what stands at its places. -/
theorem map_getD_range {α : Type} (xs : List α) (default : α) :
    ((List.range xs.length).map fun i => xs.getD i default) = xs := by
  refine List.ext_getElem (by simp) fun i _ h => ?_
  simp [h]

/-- **A sum in lanes of whole numbers is not rounded** if their sizes add up to no more than a
    significand holds. -/
theorem whole_laneSum {terms : List Single} {ns : List ℤ}
    (whole : List.Forall₂ Binary.Whole ns terms) (short : (ns.map (|·|)).sum ≤ 2 ^ 24) :
    (laneSum terms).Whole ns.sum := by
  have hlength := whole.length_eq
  obtain ⟨s, hplaces, hsum⟩ := exists_laneSum_eq_sum terms.length
  have hns := map_getD_range ns 0
  have hterm : ∀ i ∈ s.places, (terms.getD i (.zero false)).Whole (ns.getD i 0) := by
    intro i hi
    have hi := List.mem_range.1 (hplaces.mem_iff.1 hi)
    simpa [hi, hlength] using whole.get (hlength ▸ hi) hi
  have hwhole := s.whole_sum hterm (by
    rw [(hplaces.map _).sum_eq, ← hlength]
    rw [← hns, List.map_map] at short
    exact short)
  rw [(hplaces.map _).sum_eq, ← hlength, hns] at hwhole
  rwa [← hsum, map_getD_range] at hwhole

namespace Point

variable {a b : Point} {as bs : List ℤ}

/-! ## Kernels as sums over the places -/

/-- The component at a place. -/
def component (a : Point) (i : ℕ) : Single := a.getD i (.zero false)

theorem zipWith_eq_map_range (combine : Single → Single → Single) (length : a.length = b.length) :
    List.zipWith combine a b =
      (List.range a.length).map fun i => combine (a.component i) (b.component i) := by
  refine List.ext_getElem (by simp [length]) fun i h _ => ?_
  have hi : i < a.length ∧ i < b.length := by simpa using h
  simp [component, hi.1, hi.2]

/-! ## Whole terms -/

theorem whole_square {x y : Single} {m n : ℤ} (hx : x.Whole m) (hy : y.Whole n)
    (short : |(m - n) ^ 2| ≤ 2 ^ 24) : ((x - y) * (x - y)).Whole ((m - n) ^ 2) := by
  rw [abs_sq] at short
  have hdifference : |m - n| ≤ 2 ^ 12 := abs_le_of_sq_le_sq (by rwa [← pow_mul]) (by positivity)
  have hsub := hx.sub (by decide) hy (hdifference.trans (by decide))
  rw [sq] at short ⊢
  exact hsub.mul (by decide) hsub (by rwa [abs_mul_self])

/-- What a sum of sizes bounds, each of them is bounded by. -/
theorem abs_le_of_sum_abs_le {ns : List ℤ} {bound : ℤ} (h : (ns.map (|·|)).sum ≤ bound) :
    ∀ n ∈ ns, |n| ≤ bound := by
  intro n hn
  have hnonneg : ∀ size ∈ ns.map (|·|), 0 ≤ size := List.forall_mem_map.2 fun n _ => abs_nonneg n
  exact (List.single_le_sum hnonneg _ (List.mem_map_of_mem hn)).trans h

theorem finite_of_whole (h : List.Forall₂ Binary.Whole as a) : ∀ x ∈ a, x.isFinite = true := by
  intro x hx
  obtain ⟨i, hi, rfl⟩ := List.getElem_of_mem hx
  exact (h.get (h.length_eq ▸ hi) hi).finite

/-- **Kernels of whole numbers are exact.** Take points of whole numbers, of one dimension. If the
    squares of the differences add up to no more than two to the 24, their sum is the squared distance
    of the points; and if the sizes of the products do, the sum of the products is the value of the
    inner product. Indeed the order in which either kernel adds its terms depends on the dimension
    only, and every place has its term added once. -/
theorem kernels_exact (ha : List.Forall₂ Binary.Whole as a) (hb : List.Forall₂ Binary.Whole bs b)
    (length : a.length = b.length) :
    (∀ total : ℕ, (List.zipWith (fun m n => (m - n) ^ 2) as bs).sum = (total : ℤ) →
      total ≤ 2 ^ 24 → a.squaredDistance b = .ofNat total) ∧
    ((List.zipWith (fun m n => |m * n|) as bs).sum ≤ 2 ^ 24 →
      (a.dot b).isFinite = true ∧
      (a.dot b).value = ((List.zipWith (fun m n => m * n) as bs).sum : ℤ)) ∧
    ∃ s : Summation, s.places.Perm (List.range a.length) ∧
      ∀ a' b' : Point, a'.length = a.length → b'.length = b.length →
        a'.squaredDistance b' = s.sum (fun i =>
          (a'.component i - b'.component i) * (a'.component i - b'.component i)) ∧
        a'.dot b' = s.sum fun i => a'.component i * b'.component i := by
  refine ⟨fun total htotal hshort => ?_, fun hshort => ?_, ?_⟩
  · have hfinite := plain_squaredDistance (finite_of_whole ha) (finite_of_whole hb)
    have hnonneg : ∀ z ∈ List.zipWith (fun m n => (m - n) ^ 2) as bs, 0 ≤ z :=
      forall_mem_zipWith fun m _ n _ => sq_nonneg (m - n)
    have hsizes : (List.zipWith (fun m n => (m - n) ^ 2) as bs).map (|·|) =
        List.zipWith (fun m n => (m - n) ^ 2) as bs :=
      (List.map_congr_left fun z hz => abs_of_nonneg (hnonneg z hz)).trans (List.map_id _)
    have hsum : ((List.zipWith (fun m n => (m - n) ^ 2) as bs).map (|·|)).sum ≤ 2 ^ 24 := by
      rw [hsizes, htotal]
      exact_mod_cast hshort
    have hwhole : (a.squaredDistance b).Whole _ :=
      whole_laneSum (forall₂_zipWith ha hb (abs_le_of_sum_abs_le hsum) whole_square) hsum
    have hnumber : (Binary.ofNat total : Single).Whole total :=
      Binary.whole_ofNat (by decide) hshort
    refine Binary.eq_of_value_eq ?_ (hfinite.clear.trans rfl)
    rw [hwhole.value_eq, htotal, hnumber.value_eq]
  · have hsum : ((List.zipWith (fun m n => m * n) as bs).map (|·|)).sum ≤ 2 ^ 24 := by
      rwa [List.map_zipWith]
    have hwhole : (a.dot b).Whole _ :=
      whole_laneSum (forall₂_zipWith ha hb (abs_le_of_sum_abs_le hsum)
        fun hx hy hxy => hx.mul (by decide) hy hxy) hsum
    exact ⟨hwhole.finite, hwhole.value_eq⟩
  · obtain ⟨s, hplaces, hsum⟩ := exists_laneSum_eq_sum a.length
    refine ⟨s, hplaces, fun a' b' ha' hb' => ?_⟩
    have hlength : a'.length = b'.length := by rw [ha', hb', length]
    rw [squaredDistance, dot, zipWith_eq_map_range _ hlength, zipWith_eq_map_range _ hlength, ha']
    exact ⟨hsum _, hsum _⟩

theorem whole_map_ofNat (ns : List ℕ) (short : ∀ n ∈ ns, n ≤ 2 ^ 24) :
    List.Forall₂ Binary.Whole (ns.map Int.ofNat) (ns.map Binary.ofNat : Point) := by
  rw [List.forall₂_map_left_iff, List.forall₂_map_right_iff, List.forall₂_same]
  exact fun n hn => Binary.whole_ofNat (by decide) (short n hn)

/-- A full group of eight and one component after it. -/
theorem kernels_exact_of_nine :
    let a : Point := [3, 1, 4, 1, 5, 9, 2, 6, 5].map Binary.ofNat
    let b : Point := [2, 7, 1, 8, 2, 8, 1, 8, 2].map Binary.ofNat
    a.squaredDistance b = .ofNat 119 ∧ (a.dot b).isFinite = true ∧ (a.dot b).value = (167 : ℤ) := by
  intro a b
  have ha := whole_map_ofNat [3, 1, 4, 1, 5, 9, 2, 6, 5] (by decide)
  have hb := whole_map_ofNat [2, 7, 1, 8, 2, 8, 1, 8, 2] (by decide)
  obtain ⟨hdistance, hdot, -⟩ := kernels_exact ha hb rfl
  exact ⟨hdistance 119 (by decide) (by decide), hdot (by decide)⟩

end Point

end ExactNeighbors
