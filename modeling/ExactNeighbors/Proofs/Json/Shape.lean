import ExactNeighbors.Json.Shape
import ExactNeighbors.Proofs.Json.Text
import Mathlib.Data.List.Forall2
import Mathlib.Data.List.Nodup

set_option autoImplicit false

/-! # Reading back values of a known shape

What was made from counts, names and fields is clean, so its texts are read back, and each part is
found again in the place it was put. -/

namespace ExactNeighbors.Json

/-! ## Clean values -/

theorem clean_null : Clean .null :=
  List.forall_mem_singleton.2 (Token.clean_fixed nofun nofun)

theorem clean_ofUInt64 (n : UInt64) : (ofUInt64 n).Clean :=
  List.forall_mem_singleton.2 (Token.clean_number (Numeral.wellFormed_ofNat _))

theorem clean_ofChoice (name : String) : (ofChoice name).Clean :=
  List.forall_mem_singleton.2 (Token.clean_string (Quoted.wellFormed_ofText name))

theorem clean_ofOption {α : Type} {value : α → Json} (clean : ∀ a, (value a).Clean) (a : Option α) :
    (ofOption value a).Clean := by
  cases a with
  | none => exact clean_null
  | some a => exact clean a

/-- An object is clean if its names and its values are. -/
theorem clean_object {members : List (Quoted × Json)}
    (clean : ∀ m ∈ members, (Token.string m.1).Clean ∧ m.2.Clean) : (object members).Clean := by
  rw [clean_object_iff]
  induction members with
  | nil => exact nofun
  | cons m ms ih =>
      obtain ⟨⟨hname, hvalue⟩, hothers⟩ := List.forall_mem_cons.1 clean
      have hcolon : Token.colon.Clean := Token.clean_fixed nofun nofun
      have hfirst : ∀ t ∈ Token.string m.1 :: .colon :: m.2.tokens, t.Clean :=
        List.forall_mem_cons.2 ⟨hname, List.forall_mem_cons.2 ⟨hcolon, hvalue⟩⟩
      cases ms with
      | nil => exact hfirst
      | cons m' ms =>
          have hcomma : Token.comma.Clean := Token.clean_fixed nofun nofun
          exact List.forall_mem_append.2 ⟨hfirst, List.forall_mem_cons.2 ⟨hcomma, ih hothers⟩⟩

/-- An array is clean if its elements are. -/
theorem clean_array {items : List Json} (clean : ∀ v ∈ items, v.Clean) : (array items).Clean := by
  rw [clean_array_iff]
  induction items with
  | nil => exact nofun
  | cons v vs ih =>
      obtain ⟨hv, hvs⟩ := List.forall_mem_cons.1 clean
      cases vs with
      | nil => exact hv
      | cons w vs =>
          have hcomma : Token.comma.Clean := Token.clean_fixed nofun nofun
          exact List.forall_mem_append.2 ⟨hv, List.forall_mem_cons.2 ⟨hcomma, ih hvs⟩⟩

theorem clean_ofRecord {members : List (String × Json)} (clean : ∀ m ∈ members, m.2.Clean) :
    (ofRecord members).Clean := by
  apply clean_object
  rintro _ hm
  obtain ⟨⟨name, v⟩, hmem, rfl⟩ := List.mem_map.1 hm
  exact ⟨Token.clean_string (Quoted.wellFormed_ofText name), clean (name, v) hmem⟩

/-! ## Parts -/

theorem toUInt64?_ofUInt64 (n : UInt64) : (ofUInt64 n).toUInt64? = some n :=
  Numeral.toUInt64?_ofNat n

theorem choice?_ofChoice (name : String) : (ofChoice name).choice? = some name :=
  Quoted.text?_ofText name

theorem toOption?_ofOption {α : Type} {value? : Json → Option α} {value : α → Json}
    (back : ∀ a, value? (value a) = some a) (present : ∀ a, value a ≠ .null) (a : Option α) :
    toOption? value? (ofOption value a) = some a := by
  cases a with
  | none => rfl
  | some a =>
      rw [ofOption, toOption?, back, Option.map_some]
      exact present a

theorem toOption?_ofOption_ofUInt64 (n : Option UInt64) :
    toOption? toUInt64? (ofOption ofUInt64 n) = some n :=
  toOption?_ofOption toUInt64?_ofUInt64 nofun n

/-! ## Named members -/

/-- A member is found if no other has its name. -/
theorem lookup_eq_some_of_unique {members : List (String × Json)} {m : String × Json}
    (hm : m ∈ members) (unique : ∀ n ∈ members, n.1 = m.1 → n = m) :
    members.lookup m.1 = some m.2 := by
  induction members with
  | nil => cases hm
  | cons n ns ih =>
      obtain ⟨hn, hns⟩ := List.forall_mem_cons.1 unique
      rw [List.lookup_cons]
      by_cases hname : n.1 = m.1
      · rw [hn hname, beq_self_eq_true]
      · have hne : m ≠ n := fun h => hname (h ▸ rfl)
        rw [beq_false_of_ne (Ne.symm hname)]
        exact ih (List.mem_of_ne_of_mem hne hm) hns

theorem lookup_eq_some {members : List (String × Json)} (nodup : (members.map Prod.fst).Nodup)
    {m : String × Json} (hm : m ∈ members) : members.lookup m.1 = some m.2 :=
  lookup_eq_some_of_unique hm fun _ hn hname => List.inj_on_of_nodup_map nodup hn hm hname

/-- What is read one by one is read together. -/
theorem mapM_eq_some_iff {α β : Type} {read : α → Option β} {as : List α} {bs : List β} :
    as.mapM read = some bs ↔ List.Forall₂ (fun a b => read a = some b) as bs := by
  induction as generalizing bs with
  | nil => cases bs <;> simp
  | cons a as ih =>
      rw [List.mapM_cons, List.forall₂_cons_left_iff]
      simp only [Option.bind_eq_bind, Option.bind_eq_some_iff, Option.pure_def, Option.some.injEq, ih]
      constructor
      · rintro ⟨b, hb, bs, hbs, rfl⟩
        exact ⟨b, bs, hb, hbs, rfl⟩
      · rintro ⟨b, bs, hb, hbs, rfl⟩
        exact ⟨b, hb, bs, hbs, rfl⟩

/-- The members have these names, in whatever spelling, and these values. -/
def Spell (members : List (Quoted × Json)) (named : List (String × Json)) : Prop :=
  List.Forall₂ (fun m n => m.1.text? = some n.1 ∧ m.2 = n.2) members named

theorem mapM_eq_some_iff_spell {members : List (Quoted × Json)} {named : List (String × Json)} :
    (members.mapM fun (name, v) => name.text?.map fun s => (s, v)) = some named ↔
      Spell members named := by
  have hmember (m : Quoted × Json) (n : String × Json) :
      (m.1.text?.map fun s => (s, m.2)) = some n ↔ m.1.text? = some n.1 ∧ m.2 = n.2 := by
    cases m.1.text? <;> simp [Prod.ext_iff]
  rw [mapM_eq_some_iff, Spell]
  simp only [hmember]

/-- Members are written with the spellings of their names. -/
theorem spell_ofText (named : List (String × Json)) :
    Spell (named.map fun (name, v) => (.ofText name, v)) named :=
  List.forall₂_map_left_iff.2 (List.forall₂_same.2 fun _ _ => ⟨Quoted.text?_ofText _, rfl⟩)

/-- The fields of an object are those found under the names, if none is given twice. -/
theorem fieldsOfObject?_eq_some_iff {names : List String} {members : List (Quoted × Json)}
    {fields : List (Option Json)} :
    fieldsOfObject? names members = some fields ↔
      ∃ named, Spell members named ∧ ((named.map Prod.fst).filter names.contains).Nodup ∧
        names.map (List.lookup · named) = fields := by
  rw [fieldsOfObject?, Option.bind_eq_bind, Option.bind_eq_some_iff]
  refine exists_congr fun named => and_congr mapM_eq_some_iff_spell ?_
  rw [Option.ite_none_right_eq_some, Option.some.injEq]

/-- **Every field of a record is found under its name.** -/
theorem fields?_ofRecord {members : List (String × Json)} (nodup : (members.map Prod.fst).Nodup) :
    fields? (members.map Prod.fst) (ofRecord members) = some (members.map fun m => some m.2) := by
  have hlookup : (members.map Prod.fst).map (List.lookup · members) =
      members.map fun m => some m.2 := by
    rw [List.map_map]
    exact List.map_congr_left fun m hm => lookup_eq_some nodup hm
  rw [ofRecord, fields?, fieldsOfObject?_eq_some_iff]
  exact ⟨members, spell_ofText members, nodup.filter _, hlookup⟩

end ExactNeighbors.Json
