import ExactNeighbors.Proofs.Ranking.Rank
import ExactNeighbors.Ranking.Batches
import Mathlib.Data.List.Induction

set_option autoImplicit false

/-! # What a whole run of requests serves

Batches are asked for the next few entries, in either arrangement and of any size, and are told to
start over, in any order. One request is a step; a run records, beside the batches, what was served
since they last started over.

The record is governed by one invariant (`Batches.Serves`): put back in rank order and put together,
the served batches are exactly the part of the ranking in front of the position. Everything else
about a run follows from it and from what one request does (`Batches.next_of_pos`), which separates
the entries taken and the place moved to from the arrangement the entries are shown in. -/

namespace ExactNeighbors

namespace Batches

/-! ## One request -/

/-- The entries that a request for `n` takes. -/
def taken (b : Batches) (n : Nat) : List Neighbor :=
  b.ranked.toList.extract b.position (min (b.position + n) b.size)

/-- Where a request for `n` leads. -/
def advance (b : Batches) (n : Nat) : Batches :=
  let stop := min (b.position + n) b.size
  { b with position := stop, phase := if b.size ≤ stop then .exhausted else .active }

theorem next_zero (b : Batches) (arrangement : Arrangement) :
    b.next 0 arrangement = .error (.invalidArgument .zeroBatch) := rfl

/-- The arrangement shows in the batch only, neither in what is taken nor in what is left. -/
theorem next_of_pos (b : Batches) {n : Nat} (hn : 0 < n) (arrangement : Arrangement) :
    b.next n arrangement = .ok (arrangement.apply (b.taken n), b.advance n) := by
  have hbatch : (b.ranked.extract b.position (min (b.position + n) b.size)).toList = b.taken n :=
    Array.toList_extract
  rw [next, if_neg (Nat.ne_of_gt hn), ← hbatch]
  rfl

@[simp] theorem position_advance (b : Batches) (n : Nat) :
    (b.advance n).position = min (b.position + n) b.size := rfl

/-- A request leads to the last phase just if it leads to the end. -/
theorem phase_advance_eq_exhausted (b : Batches) (n : Nat) :
    (b.advance n).phase = .exhausted ↔ (b.advance n).position = b.size := by
  have hle : min (b.position + n) b.size ≤ b.size := Nat.min_le_right _ _
  simp only [advance]
  split
  · simp
    omega
  · simp
    omega

@[simp] theorem ranked_reset (b : Batches) : b.reset.ranked = b.ranked := rfl

/-! ## Runs of requests -/

/-- What is asked of batches. -/
inductive Request where
  | next (n : Nat) (arrangement : Arrangement)
  | reset

/-- A batch as it was served, with the arrangement it was asked for in. -/
structure Served where
  arrangement : Arrangement
  batch : List Neighbor

/-- The batch in rank order; only one arranged by label has to be put back. -/
def Served.ranked : Served → List Neighbor
  | ⟨.byLabel, batch⟩ => Neighbor.sortByRank batch
  | ⟨.byRank, batch⟩ => batch

/-- The batches after a request, and what was served since they last started over. A request that is
    refused changes neither. -/
def handle (state : Batches × List Served) : Request → Batches × List Served
  | .next n arrangement =>
    match state.1.next n arrangement with
    | .ok (batch, b) => (b, state.2 ++ [⟨arrangement, batch⟩])
    | .error _ => state
  | .reset => (state.1.reset, [])

/-- The batches after some requests, and what was served since they last started over. -/
def run (b : Batches) (requests : List Request) : Batches × List Served :=
  requests.foldl handle (b, [])

theorem run_append_singleton (b : Batches) (requests : List Request) (r : Request) :
    b.run (requests ++ [r]) = handle (b.run requests) r := by
  simp [run]

theorem handle_zero (state : Batches × List Served) (arrangement : Arrangement) :
    handle state (.next 0 arrangement) = state := rfl

theorem handle_of_pos (state : Batches × List Served) {n : Nat} (hn : 0 < n)
    (arrangement : Arrangement) :
    handle state (.next n arrangement) =
      (state.1.advance n,
        state.2 ++ [⟨arrangement, arrangement.apply (state.1.taken n)⟩]) := by
  rw [handle, next_of_pos _ hn]

/-! ## The invariant -/

/-- The served batches, each in rank order, make up the front of the ranking `S`. -/
structure Serves (S : List Neighbor) (state : Batches × List Served) : Prop where
  ranked : state.1.ranked.toList = S
  within : state.1.position ≤ S.length
  served : (state.2.map Served.ranked).flatten = S.take state.1.position

/-- A part of the ranking that was shown by label is put back by ranking it. -/
theorem ranked_apply {slice : List Neighbor} (ascending : slice.Pairwise (· ≤ ·))
    (arrangement : Arrangement) :
    Served.ranked ⟨arrangement, arrangement.apply slice⟩ = slice := by
  cases arrangement with
  | byLabel => exact Arrangement.byLabel.sortByRank_apply ascending
  | byRank => rfl

theorem Serves.handle {S : List Neighbor} (ascending : S.Pairwise (· ≤ ·))
    {state : Batches × List Served} (h : Serves S state) (r : Request) :
    Serves S (Batches.handle state r) := by
  cases r with
  | reset => exact ⟨h.ranked, Nat.zero_le _, rfl⟩
  | next n arrangement =>
      obtain rfl | hn := Nat.eq_zero_or_pos n
      · rw [handle_zero]
        exact h
      · have hsize : state.1.size = S.length := by rw [← h.ranked]; rfl
        rw [handle_of_pos state hn]
        refine ⟨h.ranked, ?_, ?_⟩
        · rw [position_advance, hsize]
          exact Nat.min_le_right _ _
        · -- a slice of the ranking ascends, so ranking what was shown of it puts it back
          have hslice : (state.1.taken n).Pairwise (· ≤ ·) := by
            rw [taken, h.ranked]
            exact (ascending.drop).take
          rw [List.map_append, List.flatten_append, h.served, List.map_singleton,
            ranked_apply hslice, List.flatten_singleton, position_advance, taken, h.ranked, hsize,
            List.extract_eq_take_drop, ← List.take_add]
          congr 1
          have := h.within
          omega

theorem serves_run (query : Point) (ns : List Neighbor) (requests : List Request) :
    Serves (Neighbor.sortByRank ns) ((ofNeighbors query ns).run requests) := by
  induction requests using List.reverseRecOn with
  | nil => exact ⟨by simp [run, ofNeighbors], Nat.zero_le _, rfl⟩
  | append_singleton requests r ih =>
      rw [run_append_singleton]
      exact ih.handle (Neighbor.pairwise_sortByRank ns) r

theorem Served.mem_ranked {n : Neighbor} (s : Served) : n ∈ s.ranked ↔ n ∈ s.batch := by
  obtain ⟨arrangement, batch⟩ := s
  cases arrangement with
  | byLabel => exact Neighbor.mem_sortByRank
  | byRank => exact Iff.rfl

/-- What was served earlier ranks within what was served later. -/
theorem Serves.pairwise_served {S : List Neighbor} (ascending : S.Pairwise (· ≤ ·))
    {state : Batches × List Served} (h : Serves S state) :
    state.2.Pairwise fun earlier later =>
      ∀ x ∈ earlier.batch, ∀ y ∈ later.batch, x.ranksWithin y = true := by
  have hpairwise : ((state.2.map Served.ranked).flatten).Pairwise (· ≤ ·) := by
    rw [h.served]
    exact ascending.take
  refine ((List.pairwise_map.1 (List.pairwise_flatten.1 hpairwise).2)).imp ?_
  intro earlier later hle x hx y hy
  exact Neighbor.ranksWithin_iff.2 (hle x (earlier.mem_ranked.2 hx) y (later.mem_ranked.2 hy))

/-! ## What does not depend on the arrangement -/

/-- Two requests that differ at most in the arrangement asked for. -/
inductive Request.Alike : Request → Request → Prop
  | next (n : Nat) (arrangement arrangement' : Arrangement) :
      Alike (.next n arrangement) (.next n arrangement')
  | reset : Alike .reset .reset

/-- The same batches with the same entries each, possibly shown in another arrangement. -/
def SameEntries : List Served → List Served → Prop :=
  List.Forall₂ fun s t => s.batch.Perm t.batch

theorem handle_alike {r r' : Request} (alike : r.Alike r')
    {state state' : Batches × List Served} (place : state.1 = state'.1)
    (same : SameEntries state.2 state'.2) :
    (handle state r).1 = (handle state' r').1 ∧
      SameEntries (handle state r).2 (handle state' r').2 := by
  cases alike with
  | reset => exact ⟨congrArg reset place, List.Forall₂.nil⟩
  | next n arrangement arrangement' =>
      obtain rfl | hn := Nat.eq_zero_or_pos n
      · rw [handle_zero, handle_zero]
        exact ⟨place, same⟩
      · rw [handle_of_pos _ hn, handle_of_pos _ hn, place]
        have hbatch := (arrangement.apply_perm (state'.1.taken n)).trans
          (arrangement'.apply_perm (state'.1.taken n)).symm
        exact ⟨rfl, List.rel_append same (List.Forall₂.cons hbatch List.Forall₂.nil)⟩

theorem foldl_handle_alike {rs rs' : List Request} (alike : List.Forall₂ Request.Alike rs rs')
    {state state' : Batches × List Served} (place : state.1 = state'.1)
    (same : SameEntries state.2 state'.2) :
    (rs.foldl handle state).1 = (rs'.foldl handle state').1 ∧
      SameEntries (rs.foldl handle state).2 (rs'.foldl handle state').2 := by
  induction alike generalizing state state' with
  | nil => exact ⟨place, same⟩
  | cons hr _ ih =>
      obtain ⟨hplace, hsame⟩ := handle_alike hr place same
      exact ih hplace hsame

/-! ## What does not depend on the past -/

/-- Batches over the same ranking that stand at the same position are served alike, whatever their
    phases and whatever was served before. -/
theorem foldl_handle_congr {b b' : Batches} (ranked : b.ranked = b'.ranked)
    (position : b.position = b'.position) (served : List Served) (rs : List Request) :
    (rs.foldl handle (b, served)).2 = (rs.foldl handle (b', served)).2 := by
  induction rs generalizing b b' served with
  | nil => rfl
  | cons r rs ih =>
      rw [List.foldl_cons, List.foldl_cons]
      cases r with
      | reset => exact @ih b.reset b'.reset ranked rfl []
      | next n arrangement =>
          obtain rfl | hn := Nat.eq_zero_or_pos n
          · rw [handle_zero, handle_zero]
            exact ih ranked position served
          · have hsize : b.size = b'.size := congrArg Array.size ranked
            have htaken : b.taken n = b'.taken n := by
              rw [taken, taken, hsize, ranked, position]
            have hposition : (b.advance n).position = (b'.advance n).position := by
              rw [position_advance, position_advance, hsize, position]
            rw [handle_of_pos _ hn, handle_of_pos _ hn, htaken]
            exact @ih (b.advance n) (b'.advance n) ranked hposition _

/-! ## The law of a whole run -/

/-- **What a run serves.** The ranking of some neighbors is the one arrangement of them in which the
rank ascends. After any requests, on any neighbors:

* a request for some entries is served the slice of the ranking from the position on, as it is or in
  the stable arrangement by label, and moves to the end of the slice; a request for none is refused;
* the batches served since the last start, put back in rank order, make up the ranking up to the
  position;
* what was served earlier ranks within what was served later;
* a run that asks for other arrangements goes through the same states and serves the same entries;
* after starting over, requests are served as they would have been in the beginning. -/
theorem run_serves_ranking (query : Point) (ns : List Neighbor) (rs : List Request) :
    let S := Neighbor.sortByRank ns
    let start := ofNeighbors query ns
    let b := (start.run rs).1
    let served := (start.run rs).2
    (S.Perm ns ∧ S.Pairwise fun a b => a.ranksWithin b = true) ∧
    (∀ arrangement, b.next 0 arrangement = .error (.invalidArgument .zeroBatch)) ∧
    (∀ n, 0 < n →
      let slice := S.extract b.position (min (b.position + n) S.length)
      b.next n .byRank = .ok (slice, b.advance n) ∧
      (∃ batch, b.next n .byLabel = .ok (batch, b.advance n) ∧
        Neighbor.StableByLabel slice batch) ∧
      (b.advance n).position = min (b.position + n) S.length) ∧
    (served.map Served.ranked).flatten = S.take b.position ∧
    (served.Pairwise fun earlier later =>
      ∀ x ∈ earlier.batch, ∀ y ∈ later.batch, x.ranksWithin y = true) ∧
    (∀ rs', List.Forall₂ Request.Alike rs rs' → ∀ m,
      (start.run (rs.take m)).1 = (start.run (rs'.take m)).1 ∧
      SameEntries (start.run (rs.take m)).2 (start.run (rs'.take m)).2) ∧
    (∀ rs', (b.reset.run rs').2 = (start.run rs').2) := by
  intro S start b served
  have h : Serves S (b, served) := serves_run query ns rs
  have hsize : b.size = S.length := by rw [← h.ranked]; rfl
  have htaken : ∀ n, b.taken n = S.extract b.position (min (b.position + n) S.length) := fun n => by
    rw [taken, h.ranked, hsize]
  have hascending : S.Pairwise (· ≤ ·) := Neighbor.pairwise_sortByRank ns
  refine ⟨⟨Neighbor.sortByRank_perm ns, hascending.imp Neighbor.ranksWithin_iff.2⟩,
    next_zero b, fun n hn => ⟨?_, ⟨_, next_of_pos b hn .byLabel, ?_⟩, ?_⟩, h.served,
    h.pairwise_served hascending, fun rs' alike m => ?_, fun rs' => ?_⟩
  · rw [next_of_pos b hn, ← htaken]
    rfl
  · rw [← htaken]
    exact Neighbor.stableByLabel_sortByLabel _
  · rw [position_advance, hsize]
  · exact foldl_handle_alike (List.forall₂_take m alike) rfl List.Forall₂.nil
  · have hranked : b.reset.ranked = start.ranked := by
      rw [ranked_reset, ← Array.toList_inj, h.ranked]
      rfl
    exact foldl_handle_congr hranked rfl [] rs'

/-- Three neighbors, of which two tie in distance. Two of them are served by label, a request for none
    is refused, and a request for more than there are gets the last. -/
theorem run_serves_ranking_to_end :
    let ns : List Neighbor := [⟨8, .one⟩, ⟨7, .one⟩, ⟨9, .zero false⟩]
    let b := ((ofNeighbors [] ns).run [.next 2 .byLabel, .next 0 .byRank]).1
    let served := ((ofNeighbors [] ns).run [.next 2 .byLabel, .next 0 .byRank]).2
    (served.map Served.ranked).flatten = [⟨9, .zero false⟩, ⟨7, .one⟩] ∧
      b.next 5 .byRank = .ok ([⟨8, .one⟩], b.advance 5) ∧ (b.advance 5).position = 3 ∧
      (b.reset.run [.next 1 .byRank]).2 = [⟨.byRank, [⟨9, .zero false⟩]⟩] := by
  intro ns b served
  have hranking : [⟨9, .zero false⟩, ⟨7, .one⟩, ⟨8, .one⟩] = Neighbor.sortByRank ns :=
    Neighbor.eq_sortByRank (by decide +kernel) (by decide +kernel)
  have hstart : ofNeighbors [] ns = ⟨[], #[⟨9, .zero false⟩, ⟨7, .one⟩, ⟨8, .one⟩], 0, .created⟩ := by
    rw [ofNeighbors, ← hranking]
  have hposition : b.position = 2 := by
    show ((ofNeighbors [] ns).run [.next 2 .byLabel, .next 0 .byRank]).1.position = 2
    rw [hstart]
    rfl
  obtain ⟨-, -, hnext, hserved, -, -, hreset⟩ :=
    run_serves_ranking [] ns [.next 2 .byLabel, .next 0 .byRank]
  obtain ⟨hslice, -, hstop⟩ := hnext 5 (by decide)
  rw [← hranking, hposition] at hslice hstop
  rw [← hranking, hposition] at hserved
  refine ⟨hserved, hslice, hstop, (hreset _).trans ?_⟩
  rw [hstart]
  rfl

end Batches

end ExactNeighbors
