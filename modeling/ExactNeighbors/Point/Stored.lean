import ExactNeighbors.Json.Shape
import ExactNeighbors.Point.Basic

set_option autoImplicit false

/-! # Points as JSON

A stored point is a record of one field, the list of its components. -/

namespace ExactNeighbors.Point

def fieldNames : List String := ["data"]

def ofJson? (v : Json) : Option Point :=
  match v.fields? fieldNames with
  | some [data] => Json.required? (Json.toList? Json.toSingle?) data
  | _ => none

def toJson (a : Point) : Json := .ofRecord [("data", .array (a.map Json.ofSingle))]

end ExactNeighbors.Point
