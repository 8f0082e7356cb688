import ExactNeighbors.Proofs.Index.Radius
import ExactNeighbors.Proofs.Ranking.Serving
import ExactNeighbors.Proofs.Ranking.Stored

set_option autoImplicit false

/-! # Stored answers

Whatever an index answers can be stored as JSON, and what is stored is the answer itself as long as its
distances are finite (`Index.answers_read_back`). Under the cosine metric they always are. A squared
distance may overflow. An infinite distance is a distance like any other in an answer, but JSON has no
number for it, and so the text of this answer is not read as one (`Index.infinite_not_read_back`). -/

namespace ExactNeighbors

namespace Index

/-- A query is answered with these neighbors: with the nearest few, with all within a radius, or with a
    batch, whatever was asked of the batches before. -/
inductive Answers (i : Index) (query : Point) : List Neighbor → Prop
  | nearest {k : Nat} {ns : List Neighbor} (answer : i.nearest query k = .ok ns) :
      Answers i query ns
  | within {radius : Single} {ns : List Neighbor} (answer : i.within query radius = .ok ns) :
      Answers i query ns
  | batch {b b' : Batches} (opened : i.batches query = .ok b) (requests : List Batches.Request)
      {n : Nat} {arrangement : Arrangement} {batch : List Neighbor}
      (served : (b.run requests).1.next n arrangement = .ok (batch, b')) : Answers i query batch

variable {machine : Machine} {settings : Settings} {i i₀ : Index} {query : Point}
  {ns : List Neighbor}

theorem mem_ranked_of_next {b b' : Batches} {n : Nat} {arrangement : Arrangement}
    {batch : List Neighbor} (served : b.next n arrangement = .ok (batch, b')) {m : Neighbor}
    (hm : m ∈ batch) : m ∈ b.ranked.toList := by
  rcases Nat.eq_zero_or_pos n with rfl | hn
  · cases served
  · rw [Batches.next_of_pos b hn, Except.ok.injEq, Prod.mk.injEq] at served
    rw [← served.1, (arrangement.apply_perm _).mem_iff, Batches.taken,
      List.extract_eq_take_drop] at hm
    exact List.mem_of_mem_drop (List.mem_of_mem_take hm)

/-- Only a proper query is answered, and from its candidates. -/
theorem Answers.exists_prepared (h : i.Answers query ns) :
    ∃ prepared, i.prepare query = .ok prepared ∧ ∀ n ∈ ns, n ∈ i.candidates prepared := by
  have hranking {prepared : Point} {n : Neighbor} (hn : n ∈ i.ranking prepared) :
      n ∈ i.candidates prepared := (Neighbor.sortByRank_perm _).mem_iff.1 hn
  cases h with
  | nearest answer =>
      rw [nearest_eq] at answer
      obtain ⟨count, -, answer⟩ := bind_eq_ok.1 answer
      obtain ⟨prepared, hprepare, answer⟩ := bind_eq_ok.1 answer
      cases answer
      exact ⟨prepared, hprepare, fun n hn => hranking (List.mem_of_mem_take hn)⟩
  | within answer =>
      rw [within_eq] at answer
      obtain ⟨radius, -, answer⟩ := bind_eq_ok.1 answer
      obtain ⟨prepared, hprepare, answer⟩ := bind_eq_ok.1 answer
      cases answer
      exact ⟨prepared, hprepare, fun n hn => hranking (List.mem_filter.1 hn).1⟩
  | batch opened requests served =>
      obtain ⟨prepared, hprepare, opened⟩ := bind_eq_ok.1 opened
      cases opened
      have hserves := Batches.serves_run prepared (i.candidates prepared) requests
      refine ⟨prepared, hprepare, fun n hn => hranking ?_⟩
      have hmem := mem_ranked_of_next served hn
      rwa [hserves.ranked] at hmem

/-- So its distances are those that the metric may give. -/
theorem Answers.gives (created : create machine settings = .ok i₀) {calls : List Row}
    (h : (i₀.run calls).Answers query ns) : ∀ n ∈ ns, settings.metric.Gives n.distance := by
  obtain ⟨prepared, hprepare, hcandidates⟩ := h.exists_prepared
  obtain ⟨hsettings, -⟩ := holds_run created calls
  obtain ⟨⟨⟩, hcheck, hprepared⟩ := bind_eq_ok.1 hprepare
  cases hprepared
  rw [hsettings] at hcandidates
  exact fun n hn => gives_distance created calls (Point.check_eq_ok_iff.1 hcheck).2
    (.inr (hcandidates n hn))

/-- **An answer is read back as it was stored unless it has an infinite distance.** After any calls, take
    what a query is answered with, in any of the forms. If all distances are finite, the text of the
    answer is read as the same entries in the same order, with the same labels and the same bits of
    the distances; under the cosine metric they always are. If one is not, it is the infinity without
    a sign, as a squared distance that has overflowed, and the text is not read as any answer. -/
theorem answers_read_back (created : create machine settings = .ok i₀) (calls : List Row)
    (answer : (i₀.run calls).Answers query ns) :
    ((∀ n ∈ ns, n.distance.isFinite = true) → Neighbor.readAnswer? ns = some ns) ∧
    (settings.metric = .cosine → Neighbor.readAnswer? ns = some ns) ∧
    ∀ n ∈ ns, n.distance.isFinite = false →
      n.distance = .infinite false ∧ settings.metric = .l2 ∧ Neighbor.readAnswer? ns = none := by
  have hgives := answer.gives created
  refine ⟨fun hfinite => Neighbor.readAnswer?_eq_some_iff.2 ⟨rfl, hfinite⟩, fun cosine => ?_,
    fun n hn hinfinite => ?_⟩
  · rw [cosine] at hgives
    exact Neighbor.readAnswer?_eq_some_iff.2 ⟨rfl, hgives⟩
  · have hlost : Neighbor.readAnswer? ns = none := by
      refine Option.eq_none_iff_forall_ne_some.2 fun ms hms => ?_
      have hfinite := (Neighbor.readAnswer?_eq_some_iff.1 hms).2 n hn
      rw [hinfinite] at hfinite
      cases hfinite
    have hgiven := hgives n hn
    cases hmetric : settings.metric with
    | l2 =>
        rw [hmetric] at hgiven
        obtain ⟨hclear, hinf | hfinite⟩ := hgiven
        · exact ⟨Binary.eq_of_magnitude_eq (of_decide_eq_true hinf) hclear, rfl, hlost⟩
        · rw [hinfinite] at hfinite
          cases hfinite
    | cosine =>
        rw [hmetric] at hgiven
        rw [show n.distance.isFinite = true from hgiven] at hinfinite
        cases hinfinite

/-- The greatest label at one of the least distances, and another at one of the largest. -/
theorem answers_read_back_extremes :
    let ns : List Neighbor := [⟨0xffffffffffffffff, .ofBits .single 0x00000002⟩,
      ⟨7, .ofBits .single 0x7e800000⟩]
    ∃ i₀, create .small { dimension := 1 } = .ok i₀ ∧
      (i₀.run [(7, [.ofBits .single 0x5f000000]),
        (0xffffffffffffffff, [.ofBits .single 0x1a800000])]).Answers [.zero false] ns ∧
      Neighbor.readAnswer? ns = some ns := by
  intro ns
  obtain ⟨i₀, created⟩ : ∃ i₀, create .small { dimension := 1 } = .ok i₀ := ⟨_, rfl⟩
  have answer : (i₀.run [(7, [.ofBits .single 0x5f000000]),
      (0xffffffffffffffff, [.ofBits .single 0x1a800000])]).Answers [.zero false] ns := by
    refine .nearest (k := 2) ?_
    cases created
    decide +kernel
  obtain ⟨hback, -, -⟩ := answers_read_back created _ answer
  exact ⟨i₀, created, answer, hback (by decide)⟩

/-- The largest component and its negative are infinitely far apart, and this is not read back. -/
theorem infinite_not_read_back :
    let largest : Single := .ofBits .single 0x7f7fffff
    ∃ i₀, create .small { dimension := 1 } = .ok i₀ ∧
      (i₀.run [(7, [largest])]).nearest [-largest] 1 = .ok [⟨7, .infinite false⟩] ∧
      Neighbor.readAnswer? [⟨7, .infinite false⟩] = none := by
  intro largest
  obtain ⟨i₀, created⟩ : ∃ i₀, create .small { dimension := 1 } = .ok i₀ := ⟨_, rfl⟩
  refine ⟨i₀, created, ?_, ?_⟩
  · cases created
    decide +kernel
  · decide +kernel

end Index

end ExactNeighbors
