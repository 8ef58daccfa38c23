import ArrayTrace.Serial.Op
import ArrayTrace.Tensor

/-!
# Serialized tensors

A tensor is written as its element type's tag with a format version, the shape and
the elements in row-major order. Floats that are not finite are written as null,
which cannot be read back.
-/

namespace ArrayTrace

/-- Version of the written format. -/
def Tensor.formatVersion : Nat := 1

namespace DType

/-- Serialized form of an element. -/
def elemToJson : (d : DType) → d.Elem → Json
  | f64, x => if x.isFinite then .float x else .null
  | f32, x => if x.isFinite then .float (widen x) else .null
  | i64, x => .int x.toInt
  | bool, x => .bool x

/-- Read a serialized element. Floats also accept integers. -/
def elemOfJson? : (d : DType) → Json → Option d.Elem
  | f64, .float x => some x
  | f64, .int n => some (Float.ofInt n)
  | f32, .float x => some (narrow x)
  | f32, .int n => some (Float32.ofInt n)
  | i64, j => j.int64?.map Int64.ofInt
  | bool, .bool b => some b
  | _, _ => none

end DType

namespace Tensor

/-- Serialized form. -/
def toJson (t : Tensor) : Json :=
  .tagged t.dtype.tag (.obj
    [("v", .int formatVersion), ("dim", .nats t.shape),
      ("data", .arr (t.array.data.map t.dtype.elemToJson))])

/-- The version, shape and elements, with nothing else beside them. -/
def parts? : Json → Option (Json × Json × Json)
  | .obj fields =>
    if fields.all fun f => f.1 ∈ ["v", "dim", "data"] then do
      return (← fields.lookup "v", ← fields.lookup "dim", ← fields.lookup "data")
    else none
  | .arr [v, dim, data] => some (v, dim, data)
  | _ => none

/-- Read a serialized tensor. -/
def ofJson? (j : Json) : Option Tensor := do
  let (tag, content) ← j.variant?
  let d ← DType.ofTag? tag
  let (v, dim, data) ← parts? (← content)
  if v.nat? ≠ some formatVersion then none
  let shape ← dim.list? Json.nat?
  let elems ← data.list? d.elemOfJson?
  (Tensor.ofList d shape elems).toOption

end Tensor

end ArrayTrace
