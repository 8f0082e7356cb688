import ExactNeighbors.Index.Settings
import ExactNeighbors.Proofs.Json.Shape

set_option autoImplicit false

/-! # Stored settings are read back

Settings are stored as a record with a line for each field. The text is read as the very record it
was made of, each field is found under its name and gives back what was put there, so reading ends
with the settings themselves, and with what checking says of them. -/

namespace ExactNeighbors

/-! ## Choices -/

theorem LabelMode.ofJson?_toJson (m : LabelMode) : ofJson? m.toJson = some m := by
  rw [ofJson?, toJson, Json.choice?_ofChoice]
  cases m <;> rfl

theorem Metric.ofJson?_toJson (m : Metric) : ofJson? m.toJson = some m := by
  rw [ofJson?, toJson, Json.choice?_ofChoice]
  cases m <;> rfl

namespace Settings

/-! ## The record -/

/-- The fields of settings under their names. -/
def members (s : Settings) : List (String × Json) :=
  [ ("dimension", .ofUInt64 s.dimension),
    ("metric", s.metric.toJson),
    ("mode", s.mode.toJson),
    ("initial_capacity", .ofUInt64 s.initialCapacity),
    ("block_size", .ofUInt64 s.blockSize),
    ("num_threads", .ofOption .ofUInt64 s.numThreads) ]

theorem toJson_eq (s : Settings) : s.toJson = .ofRecord s.members := rfl

theorem map_fst_members (s : Settings) : s.members.map Prod.fst = fieldNames := rfl

theorem nodup_members (s : Settings) : (s.members.map Prod.fst).Nodup := by
  rw [map_fst_members]
  decide

theorem clean_of_mem_members {s : Settings} {m : String × Json} (hm : m ∈ s.members) :
    m.2.Clean := by
  simp only [members, List.mem_cons, List.not_mem_nil, or_false] at hm
  rcases hm with rfl | rfl | rfl | rfl | rfl | rfl
  · exact Json.clean_ofUInt64 _
  · exact Json.clean_ofChoice _
  · exact Json.clean_ofChoice _
  · exact Json.clean_ofUInt64 _
  · exact Json.clean_ofUInt64 _
  · exact Json.clean_ofOption Json.clean_ofUInt64 _

theorem clean_toJson (s : Settings) : s.toJson.Clean := by
  rw [toJson_eq]
  exact Json.clean_ofRecord fun _ hm => clean_of_mem_members hm

/-- The record of settings describes them. -/
theorem ofJson?_toJson (s : Settings) : ofJson? s.toJson = some s := by
  have hfields : s.toJson.fields? fieldNames =
      some [some (.ofUInt64 s.dimension), some s.metric.toJson, some s.mode.toJson,
        some (.ofUInt64 s.initialCapacity), some (.ofUInt64 s.blockSize),
        some (.ofOption .ofUInt64 s.numThreads)] :=
    Json.fields?_ofRecord s.nodup_members
  rw [ofJson?, hfields]
  simp only [Json.required?, Json.orDefault?, Option.bind_some, Json.toUInt64?_ofUInt64,
    Metric.ofJson?_toJson, LabelMode.ofJson?_toJson, Json.toOption?_ofOption_ofUInt64]
  rfl

theorem check_ne_malformedJson (s : Settings) : s.check ≠ .error .malformedJson := by
  intro h
  simp only [check] at h
  repeat' split at h
  all_goals cases h

/-- **Stored settings are read back.** Whatever the settings, their text is the text of settings, and
    reading it ends as checking them does: with the settings themselves or with the same fault. -/
theorem ofText_toText (s : Settings) :
    (ofText s.toText =
      match s.check with
      | .ok () => .ok s
      | .error e => .error e) ∧
    ofText s.toText ≠ .error .malformedJson := by
  have hread : ofText s.toText = s.checked := by
    rw [ofText, toText, Json.read?_pretty s.clean_toJson, Option.bind_some, s.ofJson?_toJson]
  rw [hread, checked]
  have hcheck := s.check_ne_malformedJson
  cases h : s.check with
  | ok _ => exact ⟨rfl, nofun⟩
  | error e =>
      refine ⟨rfl, fun hmalformed => hcheck ?_⟩
      cases hmalformed
      exact h

end Settings

end ExactNeighbors
