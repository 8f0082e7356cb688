import ExactNeighbors.Proofs.Json.Component
import ExactNeighbors.Ranking.Stored

set_option autoImplicit false

/-! # Reading back answers

An answer that is written is read back entry by entry, each with its label and its distance in every
bit. It takes one distance that is not finite to lose all of it: this one is written as null, which no
distance is read from (`Neighbor.readAnswer?_eq_some_iff`). -/

namespace ExactNeighbors.Neighbor

open Json

/-! ## Entries -/

theorem clean_toJson (n : Neighbor) : n.toJson.Clean := by
  refine clean_ofRecord ?_
  rw [List.forall_mem_cons, List.forall_mem_singleton]
  exact ⟨clean_ofUInt64 n.label, clean_ofSingle n.distance⟩

theorem ofJson?_toJson (n : Neighbor) :
    ofJson? n.toJson = if n.distance.isFinite then some n else none := by
  have hfields : n.toJson.fields? fieldNames =
      some [some (.ofUInt64 n.label), some (.ofSingle n.distance)] :=
    @fields?_ofRecord [("label", .ofUInt64 n.label), ("distance", .ofSingle n.distance)]
      (show fieldNames.Nodup by decide)
  rw [ofJson?, hfields]
  simp only [required?, Option.bind_some, toUInt64?_ofUInt64, toSingle?_ofSingle]
  split <;> rfl

/-! ## Answers -/

theorem clean_answerToJson (ns : List Neighbor) : (answerToJson ns).Clean := by
  refine clean_ofRecord ?_
  rw [List.forall_mem_singleton]
  refine clean_array ?_
  rw [List.forall_mem_map]
  exact fun n _ => clean_toJson n

/-- What the text of an answer is read as. -/
def readAnswer? (ns : List Neighbor) : Option (List Neighbor) :=
  (read? (answerToJson ns).compact).bind answerOfJson?

theorem readAnswer?_eq (ns : List Neighbor) :
    readAnswer? ns = (ns.map toJson).mapM ofJson? := by
  have hfields : (answerToJson ns).fields? answerFieldNames =
      some [some (.array (ns.map toJson))] :=
    @fields?_ofRecord [("entries", .array (ns.map toJson))] (List.nodup_singleton _)
  rw [readAnswer?, read?_compact (clean_answerToJson ns), Option.bind_some, answerOfJson?, hfields]
  rfl

/-- **An answer is read back if all its distances are finite**, and otherwise nothing is. -/
theorem readAnswer?_eq_some_iff {ns ms : List Neighbor} :
    readAnswer? ns = some ms ↔ ms = ns ∧ ∀ n ∈ ns, n.distance.isFinite = true := by
  have hentry (n m : Neighbor) :
      ofJson? n.toJson = some m ↔ n.distance.isFinite = true ∧ n = m := by
    rw [ofJson?_toJson, Option.ite_none_right_eq_some, Option.some.injEq]
  rw [readAnswer?_eq, mapM_eq_some_iff, List.forall₂_map_left_iff]
  simp only [hentry]
  rw [List.forall₂_and_left, List.forall₂_eq_eq_eq, and_comm, eq_comm]

end ExactNeighbors.Neighbor
