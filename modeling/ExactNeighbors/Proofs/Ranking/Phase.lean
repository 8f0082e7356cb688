import ExactNeighbors.Proofs.Ranking.Serving

set_option autoImplicit false

/-! # Phase and position

Batches keep their phase apart from their position. A request for entries sets both, starting over
sets the position and goes by the phase it finds, and a refused request sets neither. What ties the
two together is the request that was met last (`Batches.ServedLast`). If it was one for entries, the
phase says whether the position is at the end. If not, nothing was served since the batches were made
or started over, and the position is zero.

This is the invariant of a run (`Batches.InPhase`). One request keeps it, so at any time the phase
can be told from the requests so far and the position (`Batches.phase_after_run`). Starting over is
the only way out of the last phase (`Batches.run_of_exhausted`). -/

namespace ExactNeighbors.Batches

/-! ## Requests that are met -/

/-- Whether a request is met; one for no entries is refused. -/
def Request.isMet : Request → Bool
  | .next n _ => n ≠ 0
  | .reset => true

/-- The requests of a run that are met. -/
def met (requests : List Request) : List Request := requests.filter Request.isMet

/-- The last request that was met is one for entries, not one to start over. -/
def ServedLast (requests : List Request) : Prop :=
  ∃ n arrangement, (met requests).getLast? = some (.next n arrangement)

theorem isMet_next {n : Nat} (hn : 0 < n) (arrangement : Arrangement) :
    (Request.next n arrangement).isMet = true :=
  decide_eq_true (Nat.ne_of_gt hn)

/-- The batches meet just these requests, wherever they stand. -/
theorem isOk_next (b : Batches) (n : Nat) (arrangement : Arrangement) :
    (b.next n arrangement).isOk = (Request.next n arrangement).isMet := by
  obtain rfl | hn := Nat.eq_zero_or_pos n
  · rfl
  · rw [next_of_pos b hn, isMet_next hn]
    rfl

@[simp] theorem met_nil : met [] = [] := rfl

theorem met_append_refused (requests : List Request) {r : Request} (refused : r.isMet = false) :
    met (requests ++ [r]) = met requests := by
  simp [met, refused]

theorem met_append_met (requests : List Request) {r : Request} (h : r.isMet = true) :
    met (requests ++ [r]) = met requests ++ [r] := by
  simp [met, h]

theorem servedLast_append_next (requests : List Request) {n : Nat} (hn : 0 < n)
    (arrangement : Arrangement) : ServedLast (requests ++ [.next n arrangement]) := by
  refine ⟨n, arrangement, ?_⟩
  rw [met_append_met requests (isMet_next hn arrangement), List.getLast?_concat]

theorem not_servedLast_append_reset (requests : List Request) :
    ¬ ServedLast (requests ++ [.reset]) := by
  rintro ⟨n, arrangement, hlast⟩
  rw [met_append_met requests rfl, List.getLast?_concat] at hlast
  cases hlast

/-! ## The invariant -/

theorem phase_advance_ne_created (b : Batches) (n : Nat) : (b.advance n).phase ≠ .created := by
  simp only [advance]
  split <;> simp

theorem phase_reset_eq_created (b : Batches) : b.reset.phase = .created ↔ b.phase = .created := by
  simp only [reset]
  split <;> simp_all

theorem phase_reset_ne_exhausted (b : Batches) : b.reset.phase ≠ .exhausted := by
  simp only [reset]
  split <;> simp

/-- How the batches stand after the requests: the phase is told from those that were met, and with
    the position if the last of them was for entries. -/
structure InPhase (size : Nat) (requests : List Request) (b : Batches) : Prop where
  size_eq : b.size = size
  within : b.position ≤ b.size
  rewound : ¬ ServedLast requests → b.position = 0
  created_iff : b.phase = .created ↔ ∀ r ∈ met requests, r = .reset
  exhausted_iff : b.phase = .exhausted ↔ ServedLast requests ∧ b.position = b.size

theorem inPhase_ofNeighbors (query : Point) (ns : List Neighbor) :
    InPhase ns.length [] (ofNeighbors query ns) where
  size_eq := (Neighbor.sortByRank_perm ns).length_eq
  within := Nat.zero_le _
  rewound _ := rfl
  created_iff := by simp [ofNeighbors]
  exhausted_iff := by simp [ofNeighbors, ServedLast]

/-- One request keeps the batches in phase. -/
theorem InPhase.handle {size : Nat} {requests : List Request} {state : Batches × List Served}
    (h : InPhase size requests state.1) (r : Request) :
    InPhase size (requests ++ [r]) (Batches.handle state r).1 := by
  obtain ⟨b, served⟩ := state
  cases r with
  | reset =>
      have hlast := not_servedLast_append_reset requests
      refine ⟨h.size_eq, Nat.zero_le _, fun _ => rfl, ?_, ?_⟩
      · rw [met_append_met requests rfl]
        refine (phase_reset_eq_created b).trans (h.created_iff.trans ?_)
        simp [or_imp]
      · exact iff_of_false (phase_reset_ne_exhausted b) fun h => hlast h.1
  | next n arrangement =>
      obtain rfl | hn := Nat.eq_zero_or_pos n
      · -- the request is refused: neither the batches nor the requests that were met change
        have hmet := met_append_refused requests (rfl : (Request.next 0 arrangement).isMet = false)
        have hlast : ServedLast (requests ++ [.next 0 arrangement]) = ServedLast requests := by
          rw [ServedLast, hmet, ServedLast]
        rw [handle_zero]
        exact ⟨h.size_eq, h.within, hlast ▸ h.rewound, hmet ▸ h.created_iff,
          hlast ▸ h.exhausted_iff⟩
      · have hlast := servedLast_append_next requests hn arrangement
        rw [handle_of_pos _ hn]
        refine ⟨h.size_eq, Nat.min_le_right _ _, fun hnot => absurd hlast hnot, ?_, ?_⟩
        · refine iff_of_false (phase_advance_ne_created b n) fun hall => ?_
          rw [met_append_met requests (isMet_next hn arrangement)] at hall
          cases hall (.next n arrangement) (by simp)
        · exact (phase_advance_eq_exhausted b n).trans (and_iff_right hlast).symm

theorem inPhase_run (query : Point) (ns : List Neighbor) (requests : List Request) :
    InPhase ns.length requests ((ofNeighbors query ns).run requests).1 := by
  induction requests using List.reverseRecOn with
  | nil => exact inPhase_ofNeighbors query ns
  | append_singleton requests r ih =>
      rw [run_append_singleton]
      exact ih.handle r

/-! ## The last phase -/

/-- At the end there is nothing more to serve and nothing to change. -/
theorem next_of_exhausted {b : Batches} (last : b.phase = .exhausted) (atEnd : b.position = b.size)
    {n : Nat} (hn : 0 < n) (arrangement : Arrangement) :
    b.next n arrangement = .ok ([], b) := by
  have hstop : min (b.position + n) b.size = b.position := by omega
  have htaken : b.taken n = [] := by simp [taken, hstop]
  have hadvance : b.advance n = b := by
    simp only [advance, hstop, if_pos (Nat.le_of_eq atEnd.symm)]
    rw [← last]
  have hshown : arrangement.apply [] = [] := by
    cases arrangement <;> simp [Arrangement.apply, Neighbor.sortByLabel]
  rw [next_of_pos b hn, htaken, hadvance, hshown]

/-- Only starting over leaves the end. -/
theorem run_of_exhausted {b : Batches} (last : b.phase = .exhausted) (atEnd : b.position = b.size)
    {requests : List Request} (noReset : ∀ r ∈ requests, r ≠ .reset) :
    (b.run requests).1 = b ∧ ∀ s ∈ (b.run requests).2, s.batch = [] := by
  induction requests using List.reverseRecOn with
  | nil => simp [run]
  | append_singleton requests r ih =>
      obtain ⟨hsame, hempty⟩ := ih fun r hr => noReset r (by simp [hr])
      rw [run_append_singleton]
      cases r with
      | reset => exact absurd rfl (noReset .reset (by simp))
      | next n arrangement =>
          obtain rfl | hn := Nat.eq_zero_or_pos n
          · rw [handle_zero]
            exact ⟨hsame, hempty⟩
          · simp only [handle, hsame, next_of_exhausted last atEnd hn]
            refine ⟨trivial, fun s hs => ?_⟩
            rcases List.mem_append.1 hs with hs | hs
            · exact hempty s hs
            · rw [List.mem_singleton.1 hs]

/-! ## The phases of a run -/

/-- **The phase and the position after a run.** After any requests, on any neighbors:

* a request for entries is met just if it asks for some;
* the position is within the neighbors, all of which are still there, and the entries that remain
  are those after it;
* the first phase lasts until a request for entries is met, and its position is zero;
* the last phase is that of a position at the end, provided that the last request met was for
  entries and not to start over; otherwise, once entries were served, it is the phase in between;
* if there are any neighbors, the last phase is that of having no more to serve;
* in the last phase requests for entries are served none and change nothing until a restart. -/
theorem phase_after_run (query : Point) (ns : List Neighbor) (rs : List Request) :
    let b := ((ofNeighbors query ns).run rs).1
    (∀ n arrangement, (b.next n arrangement).isOk = (Request.next n arrangement).isMet) ∧
    (b.position ≤ b.size ∧ b.remaining + b.position = b.size ∧ b.size = ns.length) ∧
    (b.phase = .created ↔ ∀ r ∈ met rs, r = .reset) ∧
    (b.phase = .created → b.position = 0) ∧
    (b.phase = .exhausted ↔ ServedLast rs ∧ b.position = b.size) ∧
    (b.phase = .active ↔
      (∃ r ∈ met rs, r ≠ .reset) ∧ ¬ (ServedLast rs ∧ b.position = b.size)) ∧
    (ns ≠ [] → (b.phase = .exhausted ↔ b.hasNext = false)) ∧
    (b.phase = .exhausted →
      (∀ n, 0 < n → ∀ arrangement, b.next n arrangement = .ok ([], b)) ∧
      ∀ rs', (∀ r ∈ rs', r ≠ .reset) →
        (b.run rs').1 = b ∧ ∀ s ∈ (b.run rs').2, s.batch = []) := by
  intro b
  have h : InPhase ns.length rs b := inPhase_run query ns rs
  have hposition := h.within
  refine ⟨isOk_next b, ⟨h.within, Nat.sub_add_cancel h.within, h.size_eq⟩, h.created_iff, ?_,
    h.exhausted_iff, ?_, ?_, ?_⟩
  · intro hcreated
    -- nothing but restarts were met, so the last request met is none for entries
    refine h.rewound ?_
    rintro ⟨n, arrangement, hlast⟩
    cases h.created_iff.1 hcreated _ (List.mem_of_getLast? hlast)
  · have hasked : (∃ r ∈ met rs, r ≠ .reset) ↔ b.phase ≠ .created := by
      rw [Ne, h.created_iff]
      simp
    rw [hasked, ← h.exhausted_iff]
    cases b.phase <;> simp
  · intro hsome
    have hpos := List.length_pos_iff.2 hsome
    rw [h.exhausted_iff, hasNext, decide_eq_false_iff_not]
    constructor
    · rintro ⟨-, hend⟩
      omega
    · intro hend
      -- a position at the end is not zero, so it is not that of a restart
      have hsize := h.size_eq
      refine ⟨by_contra fun hnot => ?_, by omega⟩
      have hzero := h.rewound hnot
      omega
  · intro hlast
    have hend := (h.exhausted_iff.1 hlast).2
    exact ⟨fun n hn => next_of_exhausted hlast hend hn, fun rs' => run_of_exhausted hlast hend⟩

/-- Refused requests leave the last phase alone, and so do those for more. Without any neighbors the
    position is at the end all along, and yet a restart leaves the last phase. -/
theorem phase_after_run_served :
    let ns : List Neighbor := [⟨7, .zero false⟩, ⟨3, .zero false⟩]
    let b := ((ofNeighbors [] ns).run
      [.reset, .next 0 .byRank, .next 9 .byLabel, .next 0 .byLabel]).1
    ns ≠ [] ∧ b.phase = .exhausted ∧ b.hasNext = false ∧ 0 < 3 ∧
      b.next 3 .byLabel = .ok ([], b) ∧
      (∀ r ∈ [.next 1 .byRank, .next 0 .byRank], r ≠ Request.reset) ∧
      (b.run [.next 1 .byRank, .next 0 .byRank]).1 = b ∧
      ((ofNeighbors [] []).run [.next 1 .byRank, .reset]).1.phase = .active := by
  intro ns b
  obtain ⟨-, ⟨-, -, hsize⟩, -, -, hexhausted, -, hnext, hlast⟩ := phase_after_run [] ns
    [.reset, .next 0 .byRank, .next 9 .byLabel, .next 0 .byLabel]
  obtain ⟨-, -, -, -, -, hactive, -, -⟩ := phase_after_run [] [] [.next 1 .byRank, .reset]
  have hposition : b.position = b.size := by
    have hstop : b.position = min (0 + 9) b.size := rfl
    rw [hstop, hsize]
    rfl
  have hphase : b.phase = .exhausted := hexhausted.2 ⟨⟨9, .byLabel, rfl⟩, hposition⟩
  obtain ⟨hnone, hstays⟩ := hlast hphase
  have hnoReset : ∀ r ∈ [.next 1 .byRank, .next 0 .byRank], r ≠ Request.reset := by simp
  refine ⟨by decide, hphase, (hnext (by decide)).1 hphase, by decide, hnone 3 (by decide) .byLabel,
    hnoReset, (hstays _ hnoReset).1, hactive.2 ⟨⟨.next 1 .byRank, ?_, by simp⟩, ?_⟩⟩
  · simp [met, Request.isMet]
  · rintro ⟨⟨n, arrangement, hserved⟩, -⟩
    cases hserved

end ExactNeighbors.Batches
