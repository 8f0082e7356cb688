import ExactNeighbors.Proofs.Index.Settings
import ExactNeighbors.Proofs.Json.Members

set_option autoImplicit false

/-! # Settings in any order

Settings need not be stored as they are written here. Their fields are found in any order and among
other members, a field may be left out if it has its default value, and what the other members hold
does not matter as long as it is JSON (`Settings.ofText_of_rearranges`). A field that is given twice
makes the text malformed, whatever its values.

The defaults are declared with the settings. They are listed here as stored members
(`Settings.defaultMembers`), and reading puts these very values where a field is missing. -/

namespace ExactNeighbors.Settings

/-- The fields that may be left out, with the values they then have. -/
def defaultMembers : List (String × Json) :=
  [ ("metric", Metric.l2.toJson),
    ("mode", LabelMode.single.toJson),
    ("initial_capacity", .ofUInt64 0),
    ("block_size", .ofUInt64 1024),
    ("num_threads", .null) ]

theorem nodup_defaultMembers : (defaultMembers.map Prod.fst).Nodup := by decide

section Rearranged

variable {s : Settings} {omitted extra named : List (String × Json)}

/-- A field is found with its value, or it is missing and has its value by default. -/
theorem lookup_eq_or_default (rearranged : Json.Rearranges s.members omitted extra named)
    (defaults : ∀ m ∈ omitted, m ∈ defaultMembers) {name : String} {v : Json}
    (hm : (name, v) ∈ s.members) :
    named.lookup name = some v ∨ defaultMembers.lookup name = some v ∧ named.lookup name = none := by
  rcases rearranged.lookup_eq s.nodup_members hm with hgiven | ⟨homitted, hmissing⟩
  · exact .inl hgiven
  · exact .inr ⟨Json.lookup_eq_some nodup_defaultMembers (defaults _ homitted), hmissing⟩

/-- So it is read with its value. -/
theorem orDefault?_lookup (rearranged : Json.Rearranges s.members omitted extra named)
    (defaults : ∀ m ∈ omitted, m ∈ defaultMembers) {α : Type} {value? : Json → Option α}
    {value : α → Json} (back : ∀ a, value? (value a) = some a) {name : String} {a default : α}
    (hm : (name, value a) ∈ s.members)
    (hdefault : defaultMembers.lookup name = some (value default)) :
    Json.orDefault? value? default (named.lookup name) = some a := by
  refine Json.orDefault?_eq_some back ?_
  rcases lookup_eq_or_default rearranged defaults hm with hgiven | ⟨hsame, hmissing⟩
  · exact .inl hgiven
  · rw [hdefault] at hsame
    exact .inr ⟨(Option.some.inj hsame).symm, hmissing⟩

/-- Rearranged members describe the settings. -/
theorem ofJson?_of_rearranges (rearranged : Json.Rearranges s.members omitted extra named)
    (defaults : ∀ m ∈ omitted, m ∈ defaultMembers) {members : List (Quoted × Json)}
    (spelled : Json.Spell members named) : ofJson? (.object members) = some s := by
  have hfields : (Json.object members).fields? fieldNames =
      some [named.lookup "dimension", named.lookup "metric", named.lookup "mode",
        named.lookup "initial_capacity", named.lookup "block_size", named.lookup "num_threads"] :=
    Json.fieldsOfObject?_eq_some_iff.2
      ⟨named, spelled, rearranged.nodup_known s.nodup_members, rfl⟩
  have hdimension : Json.required? Json.toUInt64? (named.lookup "dimension") =
      some s.dimension := by
    rcases lookup_eq_or_default rearranged defaults
      (show ("dimension", .ofUInt64 s.dimension) ∈ s.members by simp [Settings.members])
      with hgiven | ⟨hdefault, -⟩
    · rw [hgiven]
      exact Json.toUInt64?_ofUInt64 s.dimension
    · -- there is no default to fall back on
      cases hdefault
  have hmetric : Json.orDefault? Metric.ofJson? .l2 (named.lookup "metric") = some s.metric :=
    orDefault?_lookup rearranged defaults Metric.ofJson?_toJson (by simp [Settings.members]) rfl
  have hmode : Json.orDefault? LabelMode.ofJson? .single (named.lookup "mode") = some s.mode :=
    orDefault?_lookup rearranged defaults LabelMode.ofJson?_toJson (by simp [Settings.members]) rfl
  have hcapacity : Json.orDefault? Json.toUInt64? 0 (named.lookup "initial_capacity") =
      some s.initialCapacity :=
    orDefault?_lookup rearranged defaults Json.toUInt64?_ofUInt64 (by simp [Settings.members]) rfl
  have hblock : Json.orDefault? Json.toUInt64? 1024 (named.lookup "block_size") =
      some s.blockSize :=
    orDefault?_lookup rearranged defaults Json.toUInt64?_ofUInt64 (by simp [Settings.members]) rfl
  have hthreads : Json.orDefault? (Json.toOption? Json.toUInt64?) none
      (named.lookup "num_threads") = some s.numThreads :=
    orDefault?_lookup rearranged defaults Json.toOption?_ofOption_ofUInt64
      (by simp [Settings.members]) rfl
  rw [ofJson?, hfields]
  simp only [hdimension, hmetric, hmode, hcapacity, hblock, hthreads]
  rfl

/-- Rearranged members are clean if the names and the further values are well formed. -/
theorem clean_of_rearranges (rearranged : Json.Rearranges s.members omitted extra named)
    {members : List (Quoted × Json)} (spelled : Json.Spell members named)
    (names : ∀ m ∈ members, m.1.WellFormed) (values : ∀ m ∈ extra, m.2.WellFormed) :
    (Json.object members).Clean := by
  refine Json.clean_object fun m hm => ⟨Json.Token.clean_string (names m hm), ?_⟩
  have hvalue : m.2 ∈ named.map Prod.snd := spelled.map_snd ▸ List.mem_map_of_mem hm
  obtain ⟨n, hn, hsame⟩ := List.mem_map.1 hvalue
  rw [← hsame]
  rcases rearranged.mem_or_mem hn with hrecord | hextra
  · exact clean_of_mem_members hrecord
  · exact (values n hextra).clean

end Rearranged

/-- A text that gives a field twice is malformed. -/
theorem ofText_of_repeated {members : List (Quoted × Json)}
    (wellFormed : ∀ m ∈ members, m.1.WellFormed ∧ m.2.WellFormed) {name : String}
    (known : name ∈ fieldNames)
    (twice : 2 ≤ (members.map fun m => m.1.text?).count (some name)) :
    ofText (Json.object members).compact = .error .malformedJson := by
  have hclean : (Json.object members).Clean := Json.clean_object fun m hm =>
    ⟨Json.Token.clean_string (wellFormed m hm).1, (wellFormed m hm).2.clean⟩
  have hfields : (Json.object members).fields? fieldNames = none :=
    Json.fieldsOfObject?_eq_none known twice
  rw [ofText, Json.read?_compact hclean, Option.bind_some, ofJson?, hfields]

/-- **Stored settings are read whatever their order, with defaults left out and other members put in.**
    Take settings that pass the check, leave out fields that have their default values, put in members
    of other names with any well-formed values, and write all in any order, the names in any spelling.
    The compact text is read as the settings. A text in which a field is given twice is malformed. -/
theorem ofText_of_rearranges {s : Settings} (accepted : s.check = .ok ())
    {members : List (Quoted × Json)} {omitted extra named : List (String × Json)}
    (rearranged : Json.Rearranges s.members omitted extra named)
    (defaults : ∀ m ∈ omitted, m ∈ defaultMembers) (spelled : Json.Spell members named)
    (names : ∀ m ∈ members, m.1.WellFormed) (values : ∀ m ∈ extra, m.2.WellFormed) :
    ofText (Json.object members).compact = .ok s ∧
    ∀ repeated : List (Quoted × Json), (∀ m ∈ repeated, m.1.WellFormed ∧ m.2.WellFormed) →
      ∀ name ∈ fieldNames, 2 ≤ (repeated.map fun m => m.1.text?).count (some name) →
        ofText (Json.object repeated).compact = .error .malformedJson := by
  have hclean := clean_of_rearranges rearranged spelled names values
  have hdescribes := ofJson?_of_rearranges rearranged defaults spelled
  refine ⟨?_, fun repeated wellFormed name known twice => ofText_of_repeated wellFormed known twice⟩
  rw [ofText, Json.read?_compact hclean, Option.bind_some, hdescribes]
  simp only [checked, accepted]
  rfl

/-- The dimension comes last, one letter of its name as an escape, and after a member whose value has
    no text. With that spelling it may still not be given twice. -/
theorem ofText_of_rearranges_escaped :
    let dimension : Quoted :=
      ⟨'\\' :: 'u' :: '0' :: '0' :: '6' :: '4' :: (Quoted.ofText "imension").body⟩
    let note : Json := .array [.string ⟨['\\', 'u', 'd', '8', '0', '0']⟩, .null]
    let s : Settings := { dimension := 3, blockSize := 7 }
    s.check = .ok () ∧
    ofText (Json.object [(.ofText "note", note), (.ofText "block_size", .ofUInt64 7),
      (dimension, .ofUInt64 3)]).compact = .ok s ∧
    ofText (Json.object [(.ofText "dimension", .ofUInt64 3),
      (dimension, .ofUInt64 4)]).compact = .error .malformedJson := by
  intro dimension note s
  have haccepted : s.check = .ok () := by decide
  have hname : dimension.WellFormed := .code (by decide) (Quoted.wellFormed_ofText "imension")
  have hnote : note.WellFormed := by
    have hlone : Quoted.WellFormed ⟨['\\', 'u', 'd', '8', '0', '0']⟩ := .code (by decide) .nil
    simpa [note, Json.WellFormed, Json.tokens, Json.itemTokens, Json.Token.WellFormed] using hlone
  have hcount (n : UInt64) : (Json.ofUInt64 n).WellFormed :=
    List.forall_mem_singleton.2 (Numeral.wellFormed_ofNat n.toNat)
  let kept : List (String × Json) := [("block_size", .ofUInt64 7), ("dimension", .ofUInt64 3)]
  let omitted : List (String × Json) := [("metric", Metric.l2.toJson),
    ("mode", LabelMode.single.toJson), ("initial_capacity", .ofUInt64 0), ("num_threads", .null)]
  have hrearranged : Json.Rearranges s.members omitted [("note", note)] (("note", note) :: kept) := by
    refine ⟨⟨kept, ?_, (List.perm_append_singleton _ kept).symm⟩, ?_⟩
    · exact @List.perm_middle _ ("block_size", Json.ofUInt64 7)
        (("dimension", .ofUInt64 3) :: omitted.take 3) (omitted.drop 3)
    · rw [List.forall_mem_singleton, map_fst_members]
      decide
  have hspelled : Json.Spell [(.ofText "note", note), (.ofText "block_size", .ofUInt64 7),
      (dimension, .ofUInt64 3)] (("note", note) :: kept) :=
    .cons ⟨by decide, rfl⟩ (.cons ⟨by decide, rfl⟩ (.cons ⟨by decide, rfl⟩ .nil))
  obtain ⟨hread, hrepeated⟩ := ofText_of_rearranges haccepted hrearranged
    (by simp [omitted, defaultMembers]) hspelled
    (by simp [Quoted.wellFormed_ofText, hname]) (by simpa using hnote)
  refine ⟨haccepted, hread, hrepeated _ ?_ "dimension" (.head _) (by decide)⟩
  simp [Quoted.wellFormed_ofText, hname, hcount]

end ExactNeighbors.Settings
