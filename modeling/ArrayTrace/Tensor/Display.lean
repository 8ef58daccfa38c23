import ArrayTrace.Decimal
import ArrayTrace.Tensor

/-!
# Text of a tensor

Nested brackets, one pair per axis. The last axis is written on one line; every
further axis adds a line break between its parts and indents them. Large arrays
show only the ends of their long axes.
-/

namespace ArrayTrace

namespace Tensor

/-- Number of elements from which long axes are shortened. -/
def manyElements : Nat := 500

/-- Length up to which an axis is shown whole in a large array, by its distance from
the last axis. -/
def axisLimit : Nat → Nat
  | 0 | 1 => 11
  | _ => 6

/-- The positions of an axis that are shown, with a gap in place of the middle part
that is left out. -/
def shownPositions (length : Nat) (limit : Option Nat) : List (Option Nat) :=
  match limit with
  | none => (List.range length).map some
  | some limit =>
    if length ≤ limit then (List.range length).map some
    else
      let edge := limit / 2
      (List.range edge).map some ++ none ::
        (List.range edge).map fun i => some (length - edge + i)

/-- Text of the part of an array that starts with the given indices; `dims` are the
axes still to be written. -/
def displayFrom (text : List Nat → String) (shorten : Bool) : List Nat → Shape → String
  | outer, [] => text outer
  | outer, d :: ds =>
    let separator :=
      if ds.isEmpty then ", "
      else "," ++ "".pushn '\n' ds.length ++ "".pushn ' ' (outer.length + 1)
    let limit := if shorten then some (axisLimit ds.length) else none
    let parts := (shownPositions d limit).map fun
      | some i => displayFrom text shorten (outer ++ [i]) ds
      | none => "..."
    "[" ++ separator.intercalate parts ++ "]"

/-- Text of a tensor. An array without elements shows only its brackets. -/
def display (t : Tensor) : String :=
  if t.shape.size = 0 then
    "".pushn '[' t.shape.length ++ "".pushn ']' t.shape.length
  else
    let text (ix : List Nat) := t.dtype.text (t.array.get ix)
    displayFrom text (manyElements ≤ t.shape.size) [] t.shape

end Tensor

end ArrayTrace
