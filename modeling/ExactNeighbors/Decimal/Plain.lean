import ExactNeighbors.Decimal.Shortest

set_option autoImplicit false

/-! # Components in messages

A message shows a component in positional notation at every size, with the fewest digits that read
back and no point behind a whole number. Of two equally near shortest decimals it shows the upper
one. -/

namespace ExactNeighbors.Single

/-- The digits of a finite component without its sign. -/
def plainDigits (x : Single) : List Char :=
  let (whole, fraction) := (Decimal.shortest .single .up x.magnitude).positional
  whole.map Digit.toChar ++
    if fraction.isEmpty then [] else '.' :: fraction.map Digit.toChar

/-- The text of a component in a message; a not-a-number shows no sign. -/
def plain (x : Single) : String :=
  if x.isNaN then "NaN"
  else
    let sign := if x.negative then "-" else ""
    if x.isInfinite then sign ++ "inf" else sign ++ String.ofList x.plainDigits

end ExactNeighbors.Single
