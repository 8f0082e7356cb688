import ExactNeighbors.Proofs.Ranking.Rank
import ExactNeighbors.Index.Basic

set_option autoImplicit false

/-! # The least distance of a label

A label counts at the least of its distances in the total order. It is found in two ways, for one
label by folding over its distances (`Index.least?`) and for all labels at once by keeping the least
while the distances come in (`PerLabel`). Both are tied to one description, `Binary.LeastIn`: the
least is one of the distances and none precedes it. As the total order leaves no two numbers
undecided there is one least, whatever the order of the distances, zeros and not-a-numbers
included. -/

namespace ExactNeighbors

namespace Binary

variable {f : Format}

/-- `d` is one of the numbers and none of them precedes it in the total order. -/
def LeastIn (d : Binary f) (ds : List (Binary f)) : Prop :=
  d ∈ ds ∧ ∀ e ∈ ds, d.totalCompare e ≠ .gt

instance (d : Binary f) (ds : List (Binary f)) : Decidable (d.LeastIn ds) :=
  inferInstanceAs (Decidable (_ ∧ _))

theorem LeastIn.unique {d e : Binary f} {ds : List (Binary f)} (hd : d.LeastIn ds)
    (he : e.LeastIn ds) : d = e := by
  have hde := totalCompare_ne_gt.1 (hd.2 e he.1)
  have hed := totalCompare_ne_gt.1 (he.2 d hd.1)
  exact totalKey_inj.1 (Int.le_antisymm hde hed)

/-- Which numbers there are decides the least, their order and repetitions do not. -/
theorem leastIn_congr {d : Binary f} {ds es : List (Binary f)} (same : ∀ e, e ∈ ds ↔ e ∈ es) :
    d.LeastIn ds ↔ d.LeastIn es := by
  rw [LeastIn, LeastIn]
  simp only [same]

/-- Numbers can be left out as long as none of those left out precedes all that stay. -/
theorem leastIn_iff_of_subset {d : Binary f} {ds es : List (Binary f)} (sub : ds ⊆ es)
    (lower : ∀ e ∈ es, ∃ c ∈ ds, c.totalCompare e ≠ .gt) : d.LeastIn ds ↔ d.LeastIn es := by
  simp only [LeastIn, totalCompare_ne_gt] at lower ⊢
  constructor
  · rintro ⟨hd, hle⟩
    refine ⟨sub hd, fun e he => ?_⟩
    obtain ⟨c, hc, hce⟩ := lower e he
    exact (hle c hc).trans hce
  · rintro ⟨hd, hle⟩
    obtain ⟨c, hc, hcd⟩ := lower d hd
    obtain rfl : c = d := totalKey_inj.1 (Int.le_antisymm hcd (hle c (sub hc)))
    exact ⟨hc, fun e he => hle e (sub he)⟩

/-- A number that is alone is the least. -/
theorem leastIn_iff_mem {d : Binary f} {ds : List (Binary f)} (alone : ds.length ≤ 1) :
    d.LeastIn ds ↔ d ∈ ds := by
  refine ⟨fun h => h.1, fun hd => ⟨hd, fun e he => ?_⟩⟩
  obtain ⟨x, rfl⟩ : ∃ x, ds = [x] :=
    List.length_eq_one_iff.1 (Nat.le_antisymm alone (List.length_pos_of_mem hd))
  rw [List.mem_singleton.1 hd, List.mem_singleton.1 he]
  exact totalCompare_ne_gt.2 (Int.le_refl _)

end Binary

/-- A list that has every label at its least distance has whatever else is said to be that. -/
theorem Neighbor.mem_of_leastIn (distances : Label → List Single) {ns : List Neighbor}
    (least : ∀ n ∈ ns, n.distance.LeastIn (distances n.label)) {n : Neighbor}
    (listed : n.label ∈ ns.map Neighbor.label) (hn : n.distance.LeastIn (distances n.label)) :
    n ∈ ns := by
  obtain ⟨m, hm, hlabel⟩ := List.mem_map.1 listed
  have hleast := least m hm
  rw [hlabel] at hleast
  rwa [← Neighbor.eq_of_fields hlabel (hleast.unique hn)]

namespace Index

/-! ## Of one label -/

theorem smaller_eq_or (a b : Single) : smaller a b = a ∨ smaller a b = b := by
  unfold smaller
  split
  · exact Or.inr rfl
  · exact Or.inl rfl

theorem totalKey_smaller (a b : Single) :
    (smaller a b).totalKey = min a.totalKey b.totalKey := by
  unfold smaller
  split
  · next h =>
      rw [Binary.totalCompare_eq_lt] at h
      omega
  · next h =>
      rw [Binary.totalCompare_eq_lt] at h
      omega

theorem leastIn_foldl_smaller (d : Single) (ds : List Single) :
    (ds.foldl smaller d).LeastIn (d :: ds) := by
  induction ds generalizing d with
  | nil =>
      refine ⟨List.mem_singleton_self d, ?_⟩
      intro e he
      rw [List.mem_singleton.1 he]
      exact Binary.totalCompare_ne_gt.2 (Int.le_refl _)
  | cons e ds ih =>
      -- the smaller of the first two stands for both of them
      obtain ⟨hmem, hle⟩ := ih (smaller d e)
      have hkey := totalKey_smaller d e
      have hsmaller := Binary.totalCompare_ne_gt.1 (hle _ List.mem_cons_self)
      rw [List.foldl_cons]
      refine ⟨?_, fun x hx => ?_⟩
      · rcases List.mem_cons.1 hmem with h | h
        · rw [h]
          rcases smaller_eq_or d e with h' | h' <;> simp [h']
        · exact List.mem_cons_of_mem _ (List.mem_cons_of_mem _ h)
      · rcases List.mem_cons.1 hx with rfl | hx
        · exact Binary.totalCompare_ne_gt.2 (by omega)
        · rcases List.mem_cons.1 hx with rfl | hx
          · exact Binary.totalCompare_ne_gt.2 (by omega)
          · exact hle x (List.mem_cons_of_mem _ hx)

/-- The fold finds the least. -/
theorem least?_eq_some_iff {ds : List Single} {d : Single} :
    least? ds = some d ↔ d.LeastIn ds := by
  cases ds with
  | nil => simp [least?, Binary.LeastIn]
  | cons e ds =>
      rw [least?, Option.some.injEq]
      have h := leastIn_foldl_smaller e ds
      exact ⟨fun heq => heq ▸ h, fun hd => h.unique hd⟩

theorem least?_eq_none_iff {ds : List Single} : least? ds = none ↔ ds = [] := by
  cases ds <;> simp [least?]

/-- The least does not depend on the order of the distances, nor on repetitions. -/
theorem least?_congr {ds es : List Single} (h : ∀ d, d ∈ ds ↔ d ∈ es) : least? ds = least? es := by
  ext d
  rw [least?_eq_some_iff, least?_eq_some_iff, Binary.leastIn_congr h]

theorem exists_leastIn {ds : List Single} (h : ds ≠ []) : ∃ d : Single, d.LeastIn ds := by
  obtain ⟨d, hd⟩ := Option.ne_none_iff_exists'.1 fun hnone => h (least?_eq_none_iff.1 hnone)
  exact ⟨d, least?_eq_some_iff.1 hd⟩

theorem least?_append_singleton (ds : List Single) (d : Single) :
    least? (ds ++ [d]) = some (((least? ds).map (smaller · d)).getD d) := by
  cases ds with
  | nil => rfl
  | cons e ds => simp [least?, List.foldl_append]

end Index

namespace PerLabel

open Index

/-! ## Of all labels at once -/

/-- The distances that a label has among some neighbors. -/
def distancesOf (l : Label) (ns : List Neighbor) : List Single :=
  (ns.filter (·.label = l)).map Neighbor.distance

theorem mem_distancesOf {n : Neighbor} {ns : List Neighbor} :
    n.distance ∈ distancesOf n.label ns ↔ n ∈ ns := by
  simp only [distancesOf, List.mem_map, List.mem_filter, decide_eq_true_eq]
  constructor
  · rintro ⟨m, ⟨hm, hl⟩, hd⟩
    rwa [← Neighbor.eq_of_fields hl hd]
  · intro hm
    exact ⟨n, ⟨hm, rfl⟩, rfl⟩

theorem distancesOf_append (l : Label) (ns ms : List Neighbor) :
    distancesOf l (ns ++ ms) = distancesOf l ns ++ distancesOf l ms := by
  rw [distancesOf, List.filter_append, List.map_append]
  rfl

theorem distancesOf_cons (l : Label) (n : Neighbor) (ns : List Neighbor) :
    distancesOf l (n :: ns) =
      if n.label = l then n.distance :: distancesOf l ns else distancesOf l ns := by
  by_cases h : n.label = l <;> simp [distancesOf, h]

theorem distancesOf_singleton (l : Label) (n : Neighbor) :
    distancesOf l [n] = if n.label = l then [n.distance] else [] :=
  distancesOf_cons l n []

/-- What is kept once some neighbors came in. -/
def Keeps (p : PerLabel) (seen : List Neighbor) : Prop :=
  ∀ l, p.least[l]? = least? (distancesOf l seen)

theorem getElem?_observe (p : PerLabel) (n : Neighbor) (l : Label) :
    (p.observe n).least[l]? =
      if n.label = l then some ((p.least[l]?.map (smaller · n.distance)).getD n.distance)
      else p.least[l]? := by
  have hinsert : (p.least.insert n.label n.distance)[l]? =
      if n.label = l then some n.distance else p.least[l]? := by
    rw [Std.HashMap.getElem?_insert]
    simp only [beq_iff_eq]
  by_cases hl : n.label = l
  · rw [if_pos hl] at hinsert ⊢
    subst hl
    unfold observe
    split
    · next hnone => simp [hnone]
    · next d hsome =>
        split
        · next hlt => simp [hsome, smaller, hlt]
        · next hge => simp [hsome, smaller, hge]
  · rw [if_neg hl] at hinsert ⊢
    unfold observe
    split
    · exact hinsert
    · split
      · exact hinsert
      · rfl

theorem Keeps.observe {p : PerLabel} {seen : List Neighbor} (h : p.Keeps seen) (n : Neighbor) :
    (p.observe n).Keeps (seen ++ [n]) := by
  intro l
  rw [getElem?_observe, h l, distancesOf_append, distancesOf_singleton]
  by_cases hl : n.label = l
  · rw [if_pos hl, if_pos hl, least?_append_singleton]
  · rw [if_neg hl, if_neg hl, List.append_nil]

theorem Keeps.foldl {p : PerLabel} {seen : List Neighbor} (h : p.Keeps seen)
    (ns : List Neighbor) : (ns.foldl PerLabel.observe p).Keeps (seen ++ ns) := by
  induction ns generalizing p seen with
  | nil => simpa using h
  | cons n ns ih => simpa using ih (h.observe n)

theorem keeps_empty (room : Nat) : (empty room).Keeps [] := fun _ =>
  Std.HashMap.getElem?_emptyWithCapacity

/-- The table that has taken in some neighbors, one after the other. -/
def observed (room : Nat) (ns : List Neighbor) : PerLabel :=
  ns.foldl PerLabel.observe (empty room)

theorem keeps_observed (room : Nat) (ns : List Neighbor) : (observed room ns).Keeps ns := by
  have h := (keeps_empty room).foldl ns
  rwa [List.nil_append] at h

/-- A label is listed at the least of the distances that came in. -/
theorem Keeps.mem_toList {p : PerLabel} {seen : List Neighbor} (h : p.Keeps seen)
    {n : Neighbor} : n ∈ p.toList ↔ n.distance.LeastIn (distancesOf n.label seen) := by
  obtain ⟨l, d⟩ := n
  have hmem : (⟨l, d⟩ : Neighbor) ∈ p.toList ↔ (l, d) ∈ p.least.toList := by
    simp only [toList, List.mem_map, Neighbor.mk.injEq, Prod.exists]
    exact ⟨fun ⟨_, _, hm, hl, hd⟩ => hl ▸ hd ▸ hm, fun hm => ⟨l, d, hm, rfl, rfl⟩⟩
  rw [hmem, Std.HashMap.mem_toList_iff_getElem?_eq_some, h l, least?_eq_some_iff]

/-- Every label is listed once. -/
theorem nodup_labels_toList (p : PerLabel) : (p.toList.map Neighbor.label).Nodup := by
  have hlabels : p.toList.map Neighbor.label = p.least.keys := by
    rw [toList, List.map_map, ← Std.HashMap.map_fst_toList_eq_keys]
    rfl
  rw [hlabels]
  exact Std.HashMap.nodup_keys

theorem mem_ofList {n : Neighbor} {ns : List Neighbor} {room : Nat} :
    n ∈ ofList ns room ↔ n.distance.LeastIn (distancesOf n.label ns) :=
  (keeps_observed room ns).mem_toList

theorem nodup_labels_ofList (ns : List Neighbor) (room : Nat) :
    ((ofList ns room).map Neighbor.label).Nodup :=
  nodup_labels_toList _

end PerLabel

end ExactNeighbors
