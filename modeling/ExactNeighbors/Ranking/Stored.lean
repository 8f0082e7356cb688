import ExactNeighbors.Json.Shape
import ExactNeighbors.Ranking.Neighbor

set_option autoImplicit false

/-! # Answers as JSON

A stored answer is a record of one field, the list of its neighbors, which are records of a label
and a distance. A distance that is not finite is written as null and so cannot be read back. -/

namespace ExactNeighbors

namespace Neighbor

def fieldNames : List String := ["label", "distance"]

def ofJson? (v : Json) : Option Neighbor :=
  match v.fields? fieldNames with
  | some [label, distance] => do
    let label ← Json.required? Json.toUInt64? label
    let distance ← Json.required? Json.toSingle? distance
    pure ⟨label, distance⟩
  | _ => none

def toJson (n : Neighbor) : Json :=
  .ofRecord [("label", .ofUInt64 n.label), ("distance", .ofSingle n.distance)]

/-! ## Lists of neighbors -/

def answerFieldNames : List String := ["entries"]

def answerOfJson? (v : Json) : Option (List Neighbor) :=
  match v.fields? answerFieldNames with
  | some [entries] => Json.required? (Json.toList? ofJson?) entries
  | _ => none

def answerToJson (ns : List Neighbor) : Json :=
  .ofRecord [("entries", .array (ns.map toJson))]

end Neighbor

namespace Arrangement

def name : Arrangement → String
  | .byLabel => "by_id"
  | .byRank => "by_score"

def ofName? : String → Option Arrangement
  | "by_id" => some .byLabel
  | "by_score" => some .byRank
  | _ => none

def ofJson? (v : Json) : Option Arrangement := v.choice?.bind ofName?

def toJson (a : Arrangement) : Json := .ofChoice a.name

end Arrangement

end ExactNeighbors
