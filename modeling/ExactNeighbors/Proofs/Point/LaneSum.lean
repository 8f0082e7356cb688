import ExactNeighbors.Point.Basic
import ExactNeighbors.Proofs.Binary.Sums

set_option autoImplicit false

/-! # Sums in lanes

A sum in lanes adds in one fixed order, and what it preserves is shown along that order once
(`laneSum_induction`): of the lanes, which start from zero and take terms, then of the sum over the
lanes, which takes them and afterwards the terms that are left. The two kernels of a scan are cases of
it: squared distances keep off a sign and stay numbers, and inner products of components that are at
most one stay bounded. -/

namespace ExactNeighbors

theorem forall_mem_zipWith {α β γ : Type} {combine : α → β → γ} {P : γ → Prop} {xs : List α}
    {ys : List β} (h : ∀ x ∈ xs, ∀ y ∈ ys, P (combine x y)) :
    ∀ z ∈ List.zipWith combine xs ys, P z := by
  rw [← List.map_uncurry_zip_eq_zipWith, List.forall_mem_map]
  rintro ⟨x, y⟩ hmem
  obtain ⟨hx, hy⟩ := List.of_mem_zip hmem
  exact h x hx y hy

/-! ## What a sum in lanes preserves -/

section Lanes

variable {Lane Term : Single → Prop}

theorem addGroups_induction (add : ∀ l t, Lane l → Term t → Lane (l + t))
    {lanes terms : List Single} (hlanes : ∀ l ∈ lanes, Lane l) (hterms : ∀ t ∈ terms, Term t)
    (hcount : lanes.length = laneCount) :
    (∀ l ∈ (addGroups lanes terms).1, Lane l) ∧ (addGroups lanes terms).1.length = laneCount ∧
      ∀ t ∈ (addGroups lanes terms).2, Term t := by
  fun_induction addGroups lanes terms with
  | case1 lanes terms hshort => exact ⟨hlanes, hcount, hterms⟩
  | case2 lanes terms hlong ih =>
      refine ih (forall_mem_zipWith ?_) ?_ ?_
      · intro l hl t ht
        exact add l t (hlanes l hl) (hterms t (List.mem_of_mem_take ht))
      · intro t ht
        exact hterms t (List.mem_of_mem_drop ht)
      · rw [List.length_zipWith, List.length_take, hcount]
        omega

/-- What the lanes keep and what the sum over them keeps. There is a first lane, so nothing is asked
    of the number that the sum over the lanes starts from but what adding that lane makes of it. -/
theorem laneSum_induction (Lane Term Sum : Single → Prop) (zero : Lane (.zero false))
    (addToLane : ∀ l t, Lane l → Term t → Lane (l + t))
    (first : ∀ l, Lane l → Sum (.zero true + l)) (addLane : ∀ s l, Sum s → Lane l → Sum (s + l))
    (addTerm : ∀ s t, Sum s → Term t → Sum (s + t)) {terms : List Single}
    (hterms : ∀ t ∈ terms, Term t) : Sum (laneSum terms) := by
  have hstart : ∀ l ∈ List.replicate laneCount (.zero false), Lane l := by
    intro l hl
    rw [List.eq_of_mem_replicate hl]
    exact zero
  obtain ⟨hlanes, hcount, hrest⟩ :=
    addGroups_induction addToLane hstart hterms List.length_replicate
  rw [laneSum]
  generalize addGroups (List.replicate laneCount (.zero false)) terms = answer at *
  obtain ⟨lanes, rest⟩ := answer
  obtain ⟨l, lanes, rfl⟩ := List.exists_cons_of_length_pos (hcount ▸ show 0 < laneCount by decide)
  obtain ⟨hl, hlanes⟩ := List.forall_mem_cons.1 hlanes
  have hsum : Sum (lanes.foldl (· + ·) (.zero true + l)) :=
    List.foldlRecOn lanes (· + ·) (first l hl) fun s hs l' hl' => addLane s l' hs (hlanes l' hl')
  exact List.foldlRecOn rest (· + ·) hsum fun s hs t ht => addTerm s t hs (hrest t ht)

end Lanes

namespace Point

variable {a b : Point}

/-- **A squared distance is a number without a sign**, if perhaps infinite. -/
theorem plain_squaredDistance (ha : ∀ x ∈ a, x.isFinite = true) (hb : ∀ y ∈ b, y.isFinite = true) :
    (a.squaredDistance b).Plain := by
  have hadd (s t : Single) (hs : s.Plain) (ht : t.Plain) : (s + t).Plain :=
    Binary.Plain.add (Or.inl hs) ht
  have hfirst (l : Single) (hl : l.Plain) : (Binary.zero true + l).Plain :=
    Binary.Plain.add (Or.inr rfl) hl
  refine laneSum_induction Binary.Plain Binary.Plain Binary.Plain ⟨rfl, rfl⟩ hadd hfirst hadd hadd
    (forall_mem_zipWith ?_)
  intro x hx y hy
  exact Binary.Plain.mul_self (Binary.isNaN_sub (ha x hx) (hb y hy))

/-- **An inner product stays bounded**, however many components there are, if these are at most
    one. -/
theorem bounded_dot (ha : ∀ x ∈ a, x.Bounded 0) (hb : ∀ y ∈ b, y.Bounded 0) :
    (a.dot b).Bounded 48 := by
  have hlane (l t : Single) (hl : l.Bounded 24) (ht : t.Bounded 0) : (l + t).Bounded 24 :=
    Binary.Bounded.add (by decide) hl ht
  have hsum (s t : Single) (hs : s.Bounded 48) (ht : t.Bounded 24) : (s + t).Bounded 48 :=
    Binary.Bounded.add (by decide) hs ht
  have hfirst (l : Single) (hl : l.Bounded 24) : (Binary.zero true + l).Bounded 48 :=
    hsum _ l (Binary.bounded_zero _ _) hl
  have htail (s t : Single) (hs : s.Bounded 48) (ht : t.Bounded 0) : (s + t).Bounded 48 :=
    hsum s t hs (ht.mono (Nat.zero_le _))
  refine laneSum_induction (Binary.Bounded 24) (Binary.Bounded 0) (Binary.Bounded 48)
    (Binary.bounded_zero _ _) hlane hfirst hsum htail (forall_mem_zipWith ?_)
  intro x hx y hy
  refine (Binary.mul_rounded (ha x hx).finite (hb y hy).finite).bounded (by decide) ?_
  rw [abs_mul]
  have hx' := (ha x hx).abs_le
  have hy' := (hb y hy).abs_le
  rw [pow_zero] at hx' hy' ⊢
  exact mul_le_one₀ hx' (abs_nonneg _) hy'

end Point

end ExactNeighbors
