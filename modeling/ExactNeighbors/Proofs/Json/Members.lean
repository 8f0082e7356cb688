import ExactNeighbors.Proofs.Json.Shape
import Mathlib.Data.List.Count

set_option autoImplicit false

/-! # Records in any order

An object gives the fields of a record under their names, so it may give them in any order and others
besides. A field that is given is found wherever it stands, and one that was left out is missing,
whatever the other names (`Rearranges.lookup_eq`). Only an object that gives a field twice is refused
(`fieldsOfObject?_eq_none`), also if it spells the name in two ways. -/

namespace ExactNeighbors.Json

/-! ## Fields that are given twice -/

theorem Spell.map_text? {members : List (Quoted × Json)} {named : List (String × Json)}
    (spelled : Spell members named) :
    (members.map fun m => m.1.text?) = (named.map Prod.fst).map some := by
  induction spelled with
  | nil => rfl
  | cons hm _ ih =>
      rw [List.map_cons, List.map_cons, List.map_cons, hm.1, ih]

theorem Spell.map_snd {members : List (Quoted × Json)} {named : List (String × Json)}
    (spelled : Spell members named) : members.map Prod.snd = named.map Prod.snd := by
  induction spelled with
  | nil => rfl
  | cons hm _ ih =>
      rw [List.map_cons, List.map_cons, hm.2, ih]

/-- **An object that gives a field twice is refused.** -/
theorem fieldsOfObject?_eq_none {names : List String} {members : List (Quoted × Json)}
    {name : String} (known : name ∈ names)
    (twice : 2 ≤ (members.map fun m => m.1.text?).count (some name)) :
    fieldsOfObject? names members = none := by
  refine Option.eq_none_iff_forall_ne_some.2 fun fields hfields => ?_
  obtain ⟨named, spelled, once, -⟩ := fieldsOfObject?_eq_some_iff.1 hfields
  rw [spelled.map_text?, List.count_map_of_injective _ some fun _ _ => Option.some.inj] at twice
  have hcount := List.nodup_iff_count_le_one.1 once name
  rw [List.count_filter (List.contains_iff_mem.2 known)] at hcount
  omega

/-! ## Fields in any order -/

/-- What becomes of the members of a record if some are left out, others of other names come in and
    all are put in some order. -/
structure Rearranges (record omitted extra named : List (String × Json)) : Prop where
  parts : ∃ kept, record.Perm (kept ++ omitted) ∧ named.Perm (kept ++ extra)
  others : ∀ m ∈ extra, m.1 ∉ record.map Prod.fst

namespace Rearranges

variable {record omitted extra named : List (String × Json)}

/-- Every member is one of the record or a further one. -/
theorem mem_or_mem (h : Rearranges record omitted extra named) {m : String × Json}
    (hm : m ∈ named) : m ∈ record ∨ m ∈ extra := by
  obtain ⟨kept, hrecord, hnamed⟩ := h.parts
  rcases List.mem_append.1 (hnamed.mem_iff.1 hm) with hkept | hextra
  · exact .inl (hrecord.mem_iff.2 (List.mem_append_left _ hkept))
  · exact .inr hextra

/-- No field is given twice. -/
theorem nodup_known (h : Rearranges record omitted extra named)
    (nodup : (record.map Prod.fst).Nodup) :
    ((named.map Prod.fst).filter (record.map Prod.fst).contains).Nodup := by
  obtain ⟨kept, hrecord, hnamed⟩ := h.parts
  have hnone : (extra.map Prod.fst).filter (record.map Prod.fst).contains = [] := by
    rw [List.filter_eq_nil_iff, List.forall_mem_map]
    intro m hm hknown
    exact h.others m hm (List.contains_iff_mem.1 hknown)
  have hkept : (kept.map Prod.fst).Nodup := by
    rw [(hrecord.map Prod.fst).nodup_iff, List.map_append] at nodup
    exact nodup.of_append_left
  rw [((hnamed.map Prod.fst).filter _).nodup_iff, List.map_append, List.filter_append, hnone,
    List.append_nil]
  exact hkept.filter _

/-- **A field is found unless it was left out.** -/
theorem lookup_eq (h : Rearranges record omitted extra named)
    (nodup : (record.map Prod.fst).Nodup) {m : String × Json} (hm : m ∈ record) :
    named.lookup m.1 = some m.2 ∨ m ∈ omitted ∧ named.lookup m.1 = none := by
  obtain ⟨kept, hrecord, hnamed⟩ := h.parts
  -- a member of the same name is none of the others, so it is one that was kept
  have hsame (n : String × Json) (hn : n ∈ named) (hname : n.1 = m.1) : n ∈ kept ∧ n = m := by
    rcases List.mem_append.1 (hnamed.mem_iff.1 hn) with hkept | hextra
    · have hn' : n ∈ record := hrecord.mem_iff.2 (List.mem_append_left _ hkept)
      exact ⟨hkept, List.inj_on_of_nodup_map nodup hn' hm hname⟩
    · exact absurd (hname ▸ List.mem_map_of_mem hm) (h.others n hextra)
  rcases List.mem_append.1 (hrecord.mem_iff.1 hm) with hkept | homitted
  · have hm' : m ∈ named := hnamed.mem_iff.2 (List.mem_append_left _ hkept)
    exact .inl (lookup_eq_some_of_unique hm' fun n hn hname => (hsame n hn hname).2)
  · refine .inr ⟨homitted, List.lookup_eq_none_iff.2 fun n hn => bne_iff_ne.2 fun hname => ?_⟩
    obtain ⟨hkept, rfl⟩ := hsame n hn hname.symm
    have hparts : (kept ++ omitted).Nodup := hrecord.nodup_iff.1 nodup.of_map
    exact List.disjoint_of_nodup_append hparts hkept homitted

end Rearranges

/-- A field that is missing has the value it has by default. -/
theorem orDefault?_eq_some {α : Type} {value? : Json → Option α} {value : α → Json}
    (back : ∀ a, value? (value a) = some a) {a default : α} {field : Option Json}
    (h : field = some (value a) ∨ value a = value default ∧ field = none) :
    orDefault? value? default field = some a := by
  rcases h with rfl | ⟨hdefault, rfl⟩
  · exact back a
  · have hback := back a
    rw [hdefault, back] at hback
    exact hback

end ExactNeighbors.Json
