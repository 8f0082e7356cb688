import ExactNeighbors.Proofs.Index.Answers

set_option autoImplicit false

/-! # The order of insertion is invisible

Two indexes of the same settings may have taken in their points in different orders, and where labels
are not shared, along different replacements. Their ids, blocks and scans differ, and so does the
order in which a hash table lists their labels. If they keep the same, they nevertheless answer every
question alike (`Index.insertion_order_invisible`), an improper one with the same error: an answer
depends on which distances a label has and on nothing else (`IsRanking.unique`, `least?_congr`). -/

namespace ExactNeighbors

/-- The two histories of added points leave the same: with shared labels they have the same points
    under the same labels, and otherwise the same last point under each. -/
def LabelMode.SameKept : LabelMode → List Row → List Row → Prop
  | .single, xs, ys => ∀ l, (pointsOf l xs).getLast? = (pointsOf l ys).getLast?
  | .multi, xs, ys => xs.Perm ys

/-- Histories that leave the same leave the same points under every label. -/
theorem LabelMode.SameKept.mem_iff {m : LabelMode} {xs ys : List Row} (h : m.SameKept xs ys)
    (l : Label) (point : Point) :
    point ∈ m.kept (pointsOf l xs) ↔ point ∈ m.kept (pointsOf l ys) := by
  cases m with
  | single =>
      rw [kept, kept, h l]
  | multi =>
      have hperm : (pointsOf l xs).Perm (pointsOf l ys) :=
        (List.Perm.filter (fun r : Row => decide (r.1 = l)) h).map Prod.snd
      exact hperm.mem_iff

namespace Index

theorem mem_keptDistances_congr {settings : Settings} {xs ys : List Row}
    (same : settings.mode.SameKept xs ys) (query : Point) (l : Label) (d : Single) :
    d ∈ keptDistances settings xs query l ↔ d ∈ keptDistances settings ys query l := by
  unfold keptDistances keptPoints
  simp only [List.mem_map, same.mem_iff l]

/-- The same answer or the same error to every question, proper or not. -/
structure SameAnswers (i j : Index) : Prop where
  nearest : ∀ query k, i.nearest query k = j.nearest query k
  within : ∀ query radius, i.within query radius = j.within query radius
  batches : ∀ query, i.batches query = j.batches query
  drained : ∀ query n arrangement,
    (i.batches query).map (·.drain n arrangement) = (j.batches query).map (·.drain n arrangement)
  distanceFrom : ∀ label query, i.distanceFrom label query = j.distanceFrom label query

/-- Indexes of the same settings that keep the same answer alike. -/
theorem Holds.sameAnswers {i j : Index} {xs ys : List Row} (hi : i.Holds xs) (hj : j.Holds ys)
    (hsettings : i.settings = j.settings) (same : i.settings.mode.SameKept xs ys) :
    SameAnswers i j := by
  have hmem := mem_keptDistances_congr same
  have hranking (query : Point) : i.ranking query = j.ranking query := by
    have hjranking := hj.isRanking query
    rw [← hsettings] at hjranking
    exact (hi.isRanking query).unique (hmem query) hjranking
  have hprepare (query : Point) : i.prepare query = j.prepare query := by
    rw [prepare, prepare, hsettings]
  have hbatches (query : Point) : i.batches query = j.batches query := by
    simp only [batches_eq, hprepare, hranking]
  refine ⟨?_, ?_, hbatches, ?_, ?_⟩
  · intro query k
    simp only [nearest_eq, hprepare, hranking]
  · intro query radius
    simp only [within_eq, hprepare, hranking]
  · intro query n arrangement
    rw [hbatches]
  · intro label query
    have hleast (q : Point) : least? (keptDistances i.settings xs q label) =
        least? (keptDistances j.settings ys q label) := by
      rw [← hsettings]
      exact least?_congr (hmem q label)
    simp only [hi.distanceFrom_eq, hj.distanceFrom_eq, hprepare, hleast]

/-- **The order of insertion is invisible.** Two runs of calls from the same empty index that leave
    the same answer every question alike, bit for bit. -/
theorem insertion_order_invisible {machine : Machine} {settings : Settings} {i₀ : Index}
    (created : create machine settings = .ok i₀) {calls calls' : List Row}
    (same : settings.mode.SameKept (i₀.accepted calls) (i₀.accepted calls')) :
    SameAnswers (i₀.run calls) (i₀.run calls') := by
  obtain ⟨rfl, hempty⟩ := holds_of_create created
  obtain ⟨hsettings, hholds⟩ := hempty.run calls
  obtain ⟨hsettings', hholds'⟩ := hempty.run calls'
  refine hholds.sameAnswers hholds' (hsettings.trans hsettings'.symm) ?_
  rw [hsettings]
  exact same

/-- A replaced point and two labels in one order; a refused call and the labels in the other. -/
theorem insertion_order_invisible_replaced :
    ∃ i₀, create .small { dimension := 1 } = .ok i₀ ∧
      LabelMode.single.SameKept
        (i₀.accepted [(7, [Binary.one]), (9, [Binary.one]), (7, [.zero false])])
        (i₀.accepted [(7, [.zero false]), (9, []), (9, [Binary.one])]) ∧
      SameAnswers (i₀.run [(7, [Binary.one]), (9, [Binary.one]), (7, [.zero false])])
        (i₀.run [(7, [.zero false]), (9, []), (9, [Binary.one])]) := by
  obtain ⟨i₀, created⟩ : ∃ i₀, create .small { dimension := 1 } = .ok i₀ := ⟨_, rfl⟩
  have same : LabelMode.single.SameKept
      (i₀.accepted [(7, [Binary.one]), (9, [Binary.one]), (7, [.zero false])])
      (i₀.accepted [(7, [.zero false]), (9, []), (9, [Binary.one])]) := by
    cases created
    show ∀ l, (pointsOf l [(7, [Binary.one]), (9, [Binary.one]), (7, [.zero false])]).getLast? =
      (pointsOf l [(7, [.zero false]), (9, [Binary.one])]).getLast?
    intro l
    by_cases h7 : 7 = l
    · subst h7
      rfl
    · by_cases h9 : 9 = l
      · subst h9
        rfl
      · simp [pointsOf, h7, h9]
  exact ⟨i₀, created, same, insertion_order_invisible created same⟩

end Index

end ExactNeighbors
