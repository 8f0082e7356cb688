import ExactNeighbors.Proofs.Ranking.Serving
import Mathlib.Algebra.Order.Floor.Div
import Mathlib.Logic.Function.Iterate

set_option autoImplicit false

/-! # Serving all that is left

Batches are drained by asking for more while there is more. Each request divides what is left into
what it takes and what is left after it (`taken_append_rest`), and takes `n` entries off what
remains, or else all of them (`remaining_advance`). The arrangements that are asked for leave no
trace in the batches, so `k` requests lead to one place, whichever they choose (`afterCalls`).

Hence what remains, divided by `n` and rounded up, is the number of requests (`drained_in_calls`),
and the batches served are exactly the entries that were still to come (`drain_eq`), from any
position. The induction is that of the loop itself. -/

namespace ExactNeighbors.Batches

/-- The entries that are still to be served, in rank order. -/
def rest (b : Batches) : List Neighbor := b.ranked.toList.drop b.position

/-- A request takes the front of what is left. -/
theorem taken_append_rest (b : Batches) (n : Nat) : b.taken n ++ (b.advance n).rest = b.rest := by
  have hrest : (b.advance n).rest = b.ranked.toList.drop (min (b.position + n) b.size) := rfl
  rw [hrest, taken, rest, List.extract_eq_take_drop]
  obtain hlt | hle := Nat.lt_or_ge (min (b.position + n) b.size) b.position
  · -- the position is past the end, where nothing is left
    have hsize : b.size = b.ranked.toList.length := rfl
    rw [List.drop_eq_nil_of_le (by omega), List.drop_eq_nil_of_le (by omega), List.take_nil,
      List.append_nil]
  · have hdrop : b.ranked.toList.drop (min (b.position + n) b.size) =
        (b.ranked.toList.drop b.position).drop
          (min (b.position + n) b.size - b.position) := by
      rw [List.drop_drop, Nat.add_sub_cancel' hle]
    rw [hdrop, List.take_append_drop]

/-! ## What remains -/

theorem hasNext_iff (b : Batches) : b.hasNext = true ↔ 0 < b.remaining := by
  simp [hasNext, remaining]

@[simp] theorem remaining_advance (b : Batches) (n : Nat) :
    (b.advance n).remaining = b.remaining - n := by
  change b.size - min (b.position + n) b.size = b.size - b.position - n
  omega

theorem length_taken (b : Batches) (n : Nat) : (b.taken n).length = min n b.remaining := by
  have hsize : b.ranked.toList.length = b.size := rfl
  rw [taken, List.extract_eq_take_drop, List.length_take, List.length_drop, hsize, remaining]
  omega

/-- A request after which nothing remains reaches the end. -/
theorem phase_advance_of_remaining (b : Batches) {n : Nat} (h : (b.advance n).remaining = 0) :
    (b.advance n).phase = .exhausted := by
  have hle : min (b.position + n) b.size ≤ b.size := Nat.min_le_right _ _
  rw [phase_advance_eq_exhausted, position_advance]
  change b.size - min (b.position + n) b.size = 0 at h
  omega

/-- The batches after `k` requests for `n` entries each. -/
def afterCalls (b : Batches) (n k : Nat) : Batches := (fun b => b.advance n)^[k] b

@[simp] theorem afterCalls_zero (b : Batches) (n : Nat) : b.afterCalls n 0 = b := rfl

theorem afterCalls_succ (b : Batches) (n k : Nat) :
    b.afterCalls n (k + 1) = (b.advance n).afterCalls n k := rfl

theorem afterCalls_succ_last (b : Batches) (n k : Nat) :
    b.afterCalls n (k + 1) = (b.afterCalls n k).advance n :=
  Function.iterate_succ_apply' _ k b

theorem remaining_afterCalls (b : Batches) (n k : Nat) :
    (b.afterCalls n k).remaining = b.remaining - n * k := by
  induction k with
  | zero => simp
  | succ k ih => rw [afterCalls_succ_last, remaining_advance, ih, Nat.mul_succ, Nat.sub_sub]

/-- Any of the requests is met, in any arrangement, with as many entries as it asks for or else with
    those that remain by then. -/
theorem next_afterCalls (b : Batches) {n : Nat} (hn : 0 < n) (k : Nat)
    (arrangement : Arrangement) :
    ∃ batch, (b.afterCalls n k).next n arrangement = .ok (batch, b.afterCalls n (k + 1)) ∧
      batch.length = min n (b.remaining - n * k) := by
  refine ⟨arrangement.apply ((b.afterCalls n k).taken n), ?_, ?_⟩
  · rw [next_of_pos _ hn, afterCalls_succ_last]
  · rw [(arrangement.apply_perm _).length_eq, length_taken, remaining_afterCalls]

/-! ## The loop -/

/-- More remains just before each of the requests that drain the batches. -/
theorem lt_calls_iff {remaining n : Nat} (hn : 0 < n) (k : Nat) :
    k < remaining ⌈/⌉ n ↔ n * k < remaining := by
  rw [← not_le, ceilDiv_le_iff_le_mul hn, not_le]

theorem calls_eq_succ {remaining n : Nat} (hn : 0 < n) (more : 0 < remaining) :
    remaining ⌈/⌉ n = (remaining - n) ⌈/⌉ n + 1 := by
  refine eq_of_forall_ge_iff fun k => ?_
  cases k with
  | zero =>
      rw [ceilDiv_le_iff_le_mul hn]
      omega
  | succ k =>
      rw [Nat.add_le_add_iff_right, ceilDiv_le_iff_le_mul hn, ceilDiv_le_iff_le_mul hn, Nat.mul_succ]
      omega

/-- **Draining serves what is left**, each entry once, and does not fail. -/
theorem drain_eq (b : Batches) {n : Nat} (hn : 0 < n) (arrangement : Arrangement) :
    ∃ served, b.drain n arrangement = (served, none, b.afterCalls n (b.remaining ⌈/⌉ n)) ∧
      served.length = b.remaining ⌈/⌉ n ∧ served.flatten.Perm b.rest := by
  fun_induction drain b n arrangement with
  | case1 b more e herror =>
      rw [next_of_pos b hn] at herror
      cases herror
  | case2 b more batch b' hnext served error last hdrain ih =>
      obtain ⟨served', hdrain', hlength, hperm⟩ := ih
      rw [hdrain] at hdrain'
      cases hdrain'
      rw [next_of_pos b hn] at hnext
      cases hnext
      rw [remaining_advance] at hlength ⊢
      rw [calls_eq_succ hn ((hasNext_iff b).1 more), afterCalls_succ]
      refine ⟨_, rfl, congrArg (· + 1) hlength, ?_⟩
      rw [List.flatten_cons, ← taken_append_rest b n]
      exact (arrangement.apply_perm (b.taken n)).append hperm
  | case3 b done =>
      have hremaining : b.remaining = 0 := by simpa [hasNext_iff] using done
      have hrest : b.rest = [] := List.drop_eq_nil_of_le (Nat.le_of_sub_eq_zero hremaining)
      rw [hremaining, zero_ceilDiv, hrest]
      exact ⟨[], rfl, rfl, List.Perm.refl []⟩

/-- **The number of requests that drain the batches** is that of the entries that remain, divided by
    `n` and rounded up. Wherever the batches stand, asking for `n` while there are more comes to an
    end after just as many requests. Each is met, whichever arrangement it chooses, with `n` entries,
    or with fewer but at least one if it is the last. Then nothing remains, and if there was a
    request at all the last phase is reached. -/
theorem drained_in_calls (b : Batches) {n : Nat} (hn : 0 < n) :
    let calls := b.remaining ⌈/⌉ n
    ∃ stand : ℕ → Batches, stand 0 = b ∧
      (∀ k < calls, (stand k).hasNext = true ∧ ∀ arrangement, ∃ batch,
        (stand k).next n arrangement = .ok (batch, stand (k + 1)) ∧
        1 ≤ batch.length ∧ batch.length ≤ n ∧ (k + 1 < calls → batch.length = n)) ∧
      (stand calls).hasNext = false ∧ (stand calls).remaining = 0 ∧
      (0 < calls → (stand calls).phase = .exhausted) ∧
      ∀ arrangement, ∃ served, b.drain n arrangement = (served, none, stand calls) ∧
        served.length = calls := by
  intro calls
  have hmore (k : ℕ) : k < calls ↔ n * k < b.remaining := lt_calls_iff hn k
  have hend : (b.afterCalls n calls).remaining = 0 := by
    have hstop := (hmore calls).not.1 (lt_irrefl _)
    rw [remaining_afterCalls]
    omega
  refine ⟨b.afterCalls n, rfl, ?_, ?_, hend, ?_, ?_⟩
  · intro k hk
    have hlt := (hmore k).1 hk
    have hremaining := remaining_afterCalls b n k
    refine ⟨(hasNext_iff _).2 (by omega), fun arrangement => ?_⟩
    obtain ⟨batch, hnext, hlength⟩ := next_afterCalls b hn k arrangement
    refine ⟨batch, hnext, by omega, by omega, fun hlast => ?_⟩
    -- there is a request after it, so this one does not take all that remains
    have hlater := (hmore (k + 1)).1 hlast
    rw [Nat.mul_succ] at hlater
    omega
  · rw [Bool.eq_false_iff, Ne, hasNext_iff, hend]
    exact lt_irrefl 0
  · intro hsome
    obtain ⟨k, hk⟩ : ∃ k, calls = k + 1 := ⟨calls - 1, (Nat.sub_add_cancel hsome).symm⟩
    rw [hk, afterCalls_succ_last] at hend ⊢
    exact phase_advance_of_remaining _ hend
  · intro arrangement
    obtain ⟨served, hdrain, hlength, -⟩ := drain_eq b hn arrangement
    exact ⟨served, hdrain, hlength⟩

/-- Of four neighbors one was served already; two at a time, the others take two requests, and the
    second finds one only. -/
theorem drained_in_calls_short_tail :
    let ns : List Neighbor := [⟨7, .zero false⟩, ⟨3, .zero false⟩, ⟨5, .zero true⟩,
      ⟨3, .zero false⟩]
    let b := ((ofNeighbors [] ns).run [.next 1 .byLabel]).1
    0 < 2 ∧ b.remaining = 3 ∧
      ∃ served last, b.drain 2 .byLabel = (served, none, last) ∧ served.length = 2 ∧
        last.remaining = 0 ∧ last.hasNext = false ∧ last.phase = .exhausted := by
  intro ns b
  have hremaining : b.remaining = 3 := by
    have hsize : (ofNeighbors [] ns).size = 4 := (Neighbor.sortByRank_perm ns).length_eq
    change ((ofNeighbors [] ns).advance 1).remaining = 3
    rw [remaining_advance, remaining, hsize]
    rfl
  have hcalls : b.remaining ⌈/⌉ 2 = 2 := by
    rw [hremaining]
    rfl
  obtain ⟨stand, -, -, hdone, hend, hphase, hdrain⟩ := drained_in_calls b (by decide : 0 < 2)
  obtain ⟨served, hserved, hlength⟩ := hdrain .byLabel
  rw [hcalls] at hphase hlength
  refine ⟨by decide, hremaining, served, _, hserved, hlength, hend, hdone, ?_⟩
  rw [hcalls]
  exact hphase (by decide)

end ExactNeighbors.Batches
