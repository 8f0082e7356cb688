import ExactNeighbors.Proofs.Ranking.Rank
import ExactNeighbors.Ranking.Nearest
import Mathlib.Algebra.Order.Group.Multiset

set_option autoImplicit false

/-! # The nearest few are the front of the ranking

Which neighbors a heap holds is read off as a multiset (`FarthestHeap.members`), so that how a merge
happens to shape the tree is forgotten, and `FarthestHeap.Ordered` says that every top is the
farthest of what lies below it. An ordered heap is emptied from farthest to nearest.

A selection keeps apart what it holds and what it turned away: the two together are what it was
offered, every neighbor held ranks within every one turned away, and none is turned away before the
heap is full (`Count.Selects`). One offer keeps this, so a run of offers does, and from it the heap
emptied backwards is the front of the ranked arrangement (`Count.select_eq_take`), in whatever order
the neighbors were offered (`Count.select_front_of_ranking`). -/

namespace ExactNeighbors

namespace FarthestHeap

/-! ## What a heap holds -/

/-- The neighbors of a heap, however they are arranged in it. -/
def members : FarthestHeap → Multiset Neighbor
  | .empty => 0
  | .node _ top left right => top ::ₘ (left.members + right.members)

@[simp] theorem members_empty : empty.members = 0 := rfl

@[simp] theorem members_node (d : Nat) (top : Neighbor) (left right : FarthestHeap) :
    (node d top left right).members = top ::ₘ (left.members + right.members) := rfl

@[simp] theorem members_join (top : Neighbor) (a b : FarthestHeap) :
    (join top a b).members = top ::ₘ (a.members + b.members) := by
  unfold join
  split
  · rw [members_node, add_comm]
  · rfl

@[simp] theorem members_merge (a b : FarthestHeap) :
    (merge a b).members = a.members + b.members := by
  fun_induction merge a b with
  | case1 => simp
  | case2 => simp
  | case3 da x la ra db y lb rb h ih =>
      simp only [members_join, ih, members_node, Multiset.cons_add, Multiset.add_cons]
      rw [add_left_comm lb.members]
  | case4 da x la ra db y lb rb h ih =>
      simp only [members_join, ih, members_node, Multiset.cons_add, Multiset.add_cons, add_assoc]
      rw [Multiset.cons_swap]

@[simp] theorem members_push (h : FarthestHeap) (n : Neighbor) :
    (h.push n).members = n ::ₘ h.members := by
  simp [push, add_comm]

theorem coe_toList (h : FarthestHeap) : (h.toList : Multiset Neighbor) = h.members := by
  fun_induction toList h with
  | case1 => rfl
  | case2 d top left right ih =>
      rw [← Multiset.cons_coe, ih, members_merge, members_node]

/-! ## The order of a heap -/

/-- Every top ranks no nearer than what lies below it. -/
def Ordered : FarthestHeap → Prop
  | .empty => True
  | .node _ top left right =>
      (∀ n ∈ left.members + right.members, n ≤ top) ∧ left.Ordered ∧ right.Ordered

theorem Ordered.join {top : Neighbor} {a b : FarthestHeap}
    (below : ∀ n ∈ a.members + b.members, n ≤ top) (ha : a.Ordered) (hb : b.Ordered) :
    (FarthestHeap.join top a b).Ordered := by
  unfold FarthestHeap.join
  split
  · exact ⟨by rwa [add_comm], hb, ha⟩
  · exact ⟨below, ha, hb⟩

theorem Ordered.merge {a b : FarthestHeap} (ha : a.Ordered) (hb : b.Ordered) :
    (FarthestHeap.merge a b).Ordered := by
  fun_induction FarthestHeap.merge a b with
  | case1 => exact hb
  | case2 => exact ha
  | case3 da x la ra db y lb rb h ih =>
      -- `y` is the farther top; `x` bounds its own heap, so `y` does too
      have hxy : x ≤ y := (Neighbor.ranksBefore_iff.1 h).le
      refine Ordered.join (fun n hn => ?_) hb.2.1 (ih ha hb.2.2)
      rw [members_merge, members_node, Multiset.mem_add, Multiset.mem_add, Multiset.mem_cons] at hn
      rcases hn with hn | (rfl | hn) | hn
      · exact hb.1 n (Multiset.mem_add.2 (Or.inl hn))
      · exact hxy
      · exact (ha.1 n hn).trans hxy
      · exact hb.1 n (Multiset.mem_add.2 (Or.inr hn))
  | case4 da x la ra db y lb rb h ih =>
      have hyx : y ≤ x := not_lt.1 fun hlt => h (Neighbor.ranksBefore_iff.2 hlt)
      refine Ordered.join (fun n hn => ?_) ha.2.1 (ih ha.2.2 hb)
      rw [members_merge, members_node, Multiset.mem_add, Multiset.mem_add, Multiset.mem_cons] at hn
      rcases hn with hn | hn | rfl | hn
      · exact ha.1 n (Multiset.mem_add.2 (Or.inl hn))
      · exact ha.1 n (Multiset.mem_add.2 (Or.inr hn))
      · exact hyx
      · exact (hb.1 n hn).trans hyx

theorem Ordered.push {h : FarthestHeap} (ho : h.Ordered) (n : Neighbor) :
    (h.push n).Ordered :=
  Ordered.merge ho ⟨by simp, trivial, trivial⟩

/-- An ordered heap is emptied from farthest to nearest. -/
theorem Ordered.pairwise_toList {h : FarthestHeap} (ho : h.Ordered) :
    h.toList.Pairwise fun a b => b ≤ a := by
  fun_induction toList h with
  | case1 => exact List.Pairwise.nil
  | case2 d top left right ih =>
      refine List.pairwise_cons.2 ⟨fun n hn => ho.1 n ?_, ih (ho.2.1.merge ho.2.2)⟩
      rwa [← Multiset.mem_coe, coe_toList, members_merge] at hn

end FarthestHeap

namespace Count

/-! ## Selecting -/

/-- Of the neighbors offered, `held` are kept and `rejected` turned away, rightly so. -/
structure Selects (k : Count) (offered : Multiset Neighbor) (held : Nat × FarthestHeap)
    (rejected : Multiset Neighbor) : Prop where
  count : held.1 = Multiset.card held.2.members
  atMost : held.1 ≤ k.val
  ordered : held.2.Ordered
  all : held.2.members + rejected = offered
  nearer : ∀ a ∈ held.2.members, ∀ b ∈ rejected, a ≤ b
  full : held.1 < k.val → rejected = 0

theorem selects_empty (k : Count) : k.Selects 0 (0, .empty) 0 where
  count := rfl
  atMost := Nat.zero_le _
  ordered := trivial
  all := rfl
  nearer := by simp
  full _ := rfl

/-- One more neighbor is offered: it is kept, or takes the place of the farthest, or is turned
    away. -/
theorem Selects.offer {k : Count} {offered rejected : Multiset Neighbor}
    {held : Nat × FarthestHeap} (h : k.Selects offered held rejected) (n : Neighbor) :
    ∃ rejected', k.Selects (n ::ₘ offered) (k.offer held n) rejected' := by
  obtain ⟨size, heap⟩ := held
  unfold Count.offer
  split
  · next hlt =>
      -- there is room, and nothing was turned away so far
      have hnone := h.full hlt
      refine ⟨0, ?_, hlt, h.ordered.push n, ?_, by simp, fun _ => rfl⟩
      · simpa using h.count
      · simp [← h.all, hnone]
  · next hge =>
      cases heap with
      | empty =>
          have := h.count
          have := k.pos
          simp only [FarthestHeap.members_empty, Multiset.card_zero] at *
          omega
      | node d top left right =>
          obtain ⟨hbelow, hleft, hright⟩ := h.ordered
          have htop : ∀ b ∈ rejected, top ≤ b := h.nearer top (by simp)
          dsimp only
          split
          · next hn =>
              -- the top is turned away after all; nothing held is farther
              have hlt : n < top := Neighbor.ranksBefore_iff.1 hn
              refine ⟨top ::ₘ rejected, ?_, h.atMost, (hleft.merge hright).push n, ?_, ?_, ?_⟩
              · simpa using h.count
              · rw [← h.all]
                simp [Multiset.cons_swap]
              · intro a ha b hb
                have hatop : a ≤ top := by
                  rw [FarthestHeap.members_push, FarthestHeap.members_merge,
                    Multiset.mem_cons] at ha
                  rcases ha with rfl | ha
                  · exact hlt.le
                  · exact hbelow a ha
                rcases Multiset.mem_cons.1 hb with rfl | hb
                · exact hatop
                · exact hatop.trans (htop b hb)
              · exact fun hlt' => absurd hlt' hge
          · next hn =>
              -- `n` is turned away; nothing held is farther than the top, nor is the top than `n`
              have hle : top ≤ n := not_lt.1 fun hlt => hn (Neighbor.ranksBefore_iff.2 hlt)
              refine ⟨n ::ₘ rejected, h.count, h.atMost, h.ordered, ?_, ?_, ?_⟩
              · rw [← h.all, Multiset.add_cons]
              · intro a ha b hb
                have hatop : a ≤ top := by
                  rcases Multiset.mem_cons.1 ha with rfl | ha
                  · exact le_rfl
                  · exact hbelow a ha
                rcases Multiset.mem_cons.1 hb with rfl | hb
                · exact hatop.trans hle
                · exact hatop.trans (htop b hb)
              · exact fun hlt' => absurd hlt' hge

theorem Selects.foldl {k : Count} {offered rejected : Multiset Neighbor}
    {held : Nat × FarthestHeap} (h : k.Selects offered held rejected) (ns : List Neighbor) :
    ∃ rejected', k.Selects (offered + ns) (ns.foldl k.offer held) rejected' := by
  induction ns generalizing offered held rejected with
  | nil => exact ⟨rejected, by simpa using h⟩
  | cons n ns ih =>
      obtain ⟨rejected', h'⟩ := h.offer n
      obtain ⟨rejected'', h''⟩ := ih h'
      refine ⟨rejected'', ?_⟩
      rwa [Multiset.cons_add, ← Multiset.add_cons, Multiset.cons_coe] at h''

/-- What is held, emptied backwards, is the front of the ranked arrangement. -/
theorem Selects.reverse_toList {k : Count} {ns : List Neighbor} {rejected : Multiset Neighbor}
    {held : Nat × FarthestHeap} (h : k.Selects ns held rejected) :
    held.2.toList.reverse = (Neighbor.sortByRank ns).take k.val := by
  obtain ⟨rest, rfl⟩ := Quot.exists_rep rejected
  have hmem : ∀ a, a ∈ held.2.toList ↔ a ∈ held.2.members := fun a => by
    rw [← FarthestHeap.coe_toList, Multiset.mem_coe]
  have hranked : held.2.toList.reverse ++ Neighbor.sortByRank rest = Neighbor.sortByRank ns := by
    refine Neighbor.eq_sortByRank ?_ ?_
    · rw [List.pairwise_append, List.pairwise_reverse]
      refine ⟨h.ordered.pairwise_toList, Neighbor.pairwise_sortByRank rest, ?_⟩
      intro a ha b hb
      exact h.nearer a ((hmem a).1 (List.mem_reverse.1 ha)) b (Neighbor.mem_sortByRank.1 hb)
    · rw [← Multiset.coe_eq_coe, ← h.all, ← FarthestHeap.coe_toList, ← Multiset.coe_add,
        Multiset.coe_reverse, Multiset.coe_eq_coe.2 (Neighbor.sortByRank_perm rest)]
      rfl
  have hlength : held.2.toList.reverse.length = held.1 := by
    rw [List.length_reverse, h.count, ← FarthestHeap.coe_toList, Multiset.coe_card]
  rw [← hranked]
  obtain hlt | heq := Nat.lt_or_eq_of_le h.atMost
  · -- the heap never filled, so nothing was turned away
    have hrest : rest = [] := (Multiset.coe_eq_zero rest).1 (h.full hlt)
    rw [hrest, Neighbor.sortByRank_of_pairwise List.Pairwise.nil, List.append_nil,
      List.take_of_length_le (by omega)]
  · rw [← heq, ← hlength, List.take_left]

/-- **Selecting is ranking and taking the front**, whatever the order in which the neighbors come
    and however often one is repeated. -/
theorem select_eq_take (k : Count) (ns : List Neighbor) :
    k.select ns = (Neighbor.sortByRank ns).take k.val := by
  obtain ⟨rejected, h⟩ := k.selects_empty.foldl ns
  rw [zero_add] at h
  exact h.reverse_toList

/-- **The nearest few are the front of any ranking.** One neighbor or more may be asked for. What is
    selected are the first entries of whatever arrangement of the neighbors ascends in rank, as many
    as are asked for or else all of them, so the order in which they are offered does not show. -/
theorem select_front_of_ranking {k : Nat} (hk : 1 ≤ k) (ns : List Neighbor) :
    ∃ count, ofNat k = .ok count ∧
      count.select ns = (Neighbor.sortByRank ns).take (min k ns.length) ∧
      (∀ ranked : List Neighbor, ranked.Perm ns →
        ranked.Pairwise (fun a b => a.rankCompare b ≠ .gt) →
        count.select ns = ranked.take (min k ns.length)) ∧
      ∀ ms : List Neighbor, ms.Perm ns → count.select ms = count.select ns := by
  have hselect : select ⟨k, hk⟩ ns = (Neighbor.sortByRank ns).take (min k ns.length) := by
    rw [select_eq_take, List.take_eq_take_min, (Neighbor.sortByRank_perm ns).length_eq]
  refine ⟨⟨k, hk⟩, dif_pos hk, hselect, ?_, ?_⟩
  · intro ranked same ascending
    have hle : ranked.Pairwise (· ≤ ·) :=
      ascending.imp fun h => Neighbor.ranksWithin_iff.1 (decide_eq_true h)
    rw [hselect, Neighbor.eq_sortByRank hle same]
  · intro ms same
    rw [select_eq_take, select_eq_take, Neighbor.sortByRank_eq_of_perm same]

/-- A not-a-number with a sign ranks first, the zero with a sign before the other zero, and the cut
    falls between two labels at the same distance. -/
theorem select_front_of_ranking_cut :
    1 ≤ 2 ∧ ∃ count, ofNat 2 = .ok count ∧
      count.select [⟨7, .zero false⟩, ⟨7, .zero true⟩, ⟨9, -.notANumber⟩, ⟨3, .zero true⟩] =
        [⟨9, -.notANumber⟩, ⟨3, .zero true⟩] := by
  obtain ⟨count, hcount, -, hfront, -⟩ := select_front_of_ranking (k := 2) (by decide)
    [⟨7, .zero false⟩, ⟨7, .zero true⟩, ⟨9, -.notANumber⟩, ⟨3, .zero true⟩]
  refine ⟨by decide, count, hcount, ?_⟩
  exact hfront [⟨9, -.notANumber⟩, ⟨3, .zero true⟩, ⟨7, .zero true⟩, ⟨7, .zero false⟩]
    (by decide) (by decide)

end Count

end ExactNeighbors
