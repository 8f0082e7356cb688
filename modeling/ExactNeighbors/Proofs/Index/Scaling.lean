import ExactNeighbors.Proofs.Index.Answers
import ExactNeighbors.Proofs.Point.Scaling

set_option autoImplicit false

/-! # Scaling is invisible to cosine indexes

A cosine index sees a point only once it is prepared, and scaling a point by a power of two changes
nothing in its prepared form. So whatever is asked about a point is answered as for its multiples, on
whichever machine, and whatever is added could as well have been added in multiples, each by a power
of its own: not one bit of the index would be different (`Index.scaling_invisible`). -/

namespace ExactNeighbors

variable {e : ℤ} {a b : Point}

/-- Points that are scaled pass the same checks. -/
theorem Point.Scaled.check_eq (h : Scaled e a b) (dimension : ℕ) :
    a.check dimension = b.check dimension := by
  have hfinite {e : ℤ} {a b : Point} (h : Scaled e a b) : a.isFinite = true :=
    List.all_eq_true.2 h.finite_left
  rw [check, check, checkDimension, checkDimension, h.length_eq, hfinite h, hfinite h.symm]

namespace Index

variable {i : Index}

/-- What is done with a point begins with preparing it, which leads to the same point or the same
    error. -/
theorem prepare_eq_of_scaled (cosine : i.settings.metric = .cosine) (h : a.Scaled e b) :
    i.prepare a = i.prepare b := by
  rw [prepare, prepare, h.check_eq, cosine]
  exact congrArg (Except.bind _) (funext fun _ => congrArg Except.ok (Point.normalize_eq_of_scaled h))

theorem add_eq_of_scaled (cosine : i.settings.metric = .cosine) (h : a.Scaled e b) (label : Label) :
    i.add a label = i.add b label := by
  simp only [add, prepare_eq_of_scaled cosine h]

/-- A point that is added leaves the settings. -/
theorem Holds.settings_add {added : List Row} {j : Index} {label : Label} (h : i.Holds added)
    (hadd : i.add a label = .ok j) : j.settings = i.settings ∧ ∃ added', j.Holds added' := by
  rcases h.add a label with ⟨e, -, herror⟩ | ⟨-, store, hok, hholds⟩
  · rw [herror] at hadd
    cases hadd
  · rw [hok] at hadd
    cases hadd
    exact ⟨rfl, _, hholds⟩

/-- The same label, and points of which one is the other times a power of two. -/
def ScaledCall (call call' : Row) : Prop :=
  call.1 = call'.1 ∧ ∃ e : ℤ, call.2.Scaled e call'.2

/-- **A run does not notice what its points are scaled by.** -/
theorem Holds.run_eq_of_scaled {added calls calls' : List Row} (h : i.Holds added)
    (cosine : i.settings.metric = .cosine) (scaled : List.Forall₂ ScaledCall calls calls') :
    i.run calls = i.run calls' := by
  induction scaled generalizing i added with
  | nil => rfl
  | @cons call call' calls calls' hcall _ ih =>
      obtain ⟨label, a⟩ := call
      obtain ⟨label', b⟩ := call'
      obtain ⟨rfl, e, hscaled⟩ : label = label' ∧ ∃ e : ℤ, a.Scaled e b := hcall
      rw [Index.run, Index.run, ← add_eq_of_scaled cosine hscaled]
      cases hadd : i.add a label with
      | error _ => exact ih h cosine
      | ok j =>
          obtain ⟨hsettings, added', hholds⟩ := h.settings_add hadd
          exact ih hholds (hsettings ▸ cosine)

/-- **Scaling by powers of two is invisible to cosine indexes.** A point is normalized to the same
    components as each of its multiples by powers of two. So after any calls to a cosine index every
    question about a point is answered as about a multiple, in every bit or with the same error,
    though one machine answers the one question and another the other. If the points of the calls are
    scaled, each by a power of its own, the index is the same. -/
theorem scaling_invisible {machine : Machine} {settings : Settings} {i₀ : Index}
    (created : create machine settings = .ok i₀)
    (cosine : settings.metric = .cosine) :
    (∀ (e : ℤ) (a b : Point), a.Scaled e b → a.normalize = b.normalize) ∧
    (∀ (calls : List Row) (e : ℤ) (query query' : Point), query.Scaled e query' →
      ∀ machine₁ machine₂ : Machine,
        let i := (i₀.run calls).on machine₁
        let j := (i₀.run calls).on machine₂
        (∀ k, i.nearest query k = j.nearest query' k) ∧
        (∀ radius, i.within query radius = j.within query' radius) ∧
        (∀ label, i.distanceFrom label query = j.distanceFrom label query') ∧
        i.batches query = j.batches query') ∧
    ∀ calls calls' : List Row, List.Forall₂ ScaledCall calls calls' →
      i₀.run calls = i₀.run calls' := by
  refine ⟨fun e a b => Point.normalize_eq_of_scaled, fun calls e query query' hscaled => ?_,
    fun calls calls' hscaled => ?_⟩
  · intro machine₁ machine₂ i j
    obtain ⟨hsettings, hholds⟩ := holds_run created calls
    have hprepare := prepare_eq_of_scaled (hsettings ▸ cosine) hscaled
    -- either machine answers as the one that the index was created on
    refine ⟨fun k => ?_, fun radius => ?_, fun label => ?_, ?_⟩
    · rw [hholds.nearest_on, hholds.nearest_on, nearest, nearest, hprepare]
    · rw [hholds.within_on, hholds.within_on, within, within, hprepare]
    · show (i₀.run calls).distanceFrom label query = (i₀.run calls).distanceFrom label query'
      rw [distanceFrom, distanceFrom, hprepare]
    · rw [hholds.batches_on, hholds.batches_on, batches, batches, hprepare]
  · obtain ⟨rfl, hempty⟩ := holds_of_create created
    exact hempty.run_eq_of_scaled cosine hscaled

/-- The two smallest numbers, and their multiples beside the largest. -/
theorem scaling_invisible_smallest :
    let small : Point := [.ofBits .single 0x00000001, .ofBits .single 0x80000002]
    let large : Point := [.ofBits .single 0x7e800000, .ofBits .single 0xff000000]
    ∃ i₀, create .small { dimension := 2, metric := .cosine } = .ok i₀ ∧ small.Scaled 275 large ∧
      small.normalize = large.normalize ∧
      (i₀.run [(7, small)]).nearest small 1 = (i₀.run [(7, large)]).nearest large 1 := by
  intro small large
  obtain ⟨i₀, created⟩ : ∃ i₀, create .small { dimension := 2, metric := .cosine } = .ok i₀ :=
    ⟨_, rfl⟩
  have hscaled : small.Scaled 275 large :=
    .cons ⟨.of_units rfl rfl rfl (by decide +kernel), rfl⟩
      (.cons ⟨.of_units rfl rfl rfl (by decide +kernel), rfl⟩ .nil)
  obtain ⟨hnormalize, hquery, hcalls⟩ := scaling_invisible created rfl
  have hrun := hcalls [(7, small)] [(7, large)] (.cons ⟨rfl, 275, hscaled⟩ .nil)
  refine ⟨i₀, created, hscaled, hnormalize _ _ _ hscaled, ?_⟩
  have hnearest := (hquery [(7, small)] 275 small large hscaled .small .small).1 1
  have hholds := (holds_run created [(7, small)]).2
  rw [hholds.nearest_on, hholds.nearest_on] at hnearest
  rw [hnearest, hrun]

end Index

end ExactNeighbors
