import ArrayTrace.Json
import ArrayTrace.Op
import ArrayTrace.Options

/-!
# Serialized operations and options

Unions are written as an object with the variant's tag as its only key, or as the
bare tag when the variant holds nothing. Options may leave fields out, which then
keep their defaults.
-/

namespace ArrayTrace

namespace DType

/-- Serialized tag. -/
def tag : DType → String
  | f64 => "F64"
  | f32 => "F32"
  | i64 => "I64"
  | bool => "BOOL"

/-- The element type with a tag. -/
def ofTag? (s : String) : Option DType := all.find? fun d => d.tag = s

/-- Serialized form. -/
def toJson (d : DType) : Json := .str d.tag

/-- Read a serialized element type. -/
def ofJson? (j : Json) : Option DType := j.bareTag?.bind ofTag?

end DType

namespace Selector

/-- Serialized form. -/
def toJson : Selector → Json
  | point i => .tagged "Index" (.int i)
  | range a b step =>
    .tagged "Range" (.obj [("start", .int a), ("end", .int b), ("step", .int step)])
  | whole => .str "Full"

/-- Read a serialized selector. -/
def ofJson? (j : Json) : Option Selector := do
  match ← j.variant? with
  | ("Index", some i) => return point (← i.int64?)
  | ("Range", some content) =>
    match ← content.content? ["start", "end", "step"] with
    | [a, b, step] => return range (← a.int64?) (← b.int64?) (← step.int64?)
    | _ => none
  | ("Full", none) | ("Full", some .null) => return whole
  | _ => none

end Selector

namespace Selection

/-- Serialized form. -/
def toJson (s : Selection) : Json := .arr (s.map Selector.toJson)

/-- Read a serialized selection. -/
def ofJson? (j : Json) : Option Selection := j.list? Selector.ofJson?

end Selection

namespace TensorType

/-- Serialized form. -/
def toJson (t : TensorType) : Json :=
  .obj [("shape", .nats t.shape), ("dtype", t.dtype.toJson)]

/-- Read a serialized type. -/
def ofJson? (j : Json) : Option TensorType := do
  match ← j.fields? ["shape", "dtype"] with
  | [shape, dtype] => return ⟨← shape.list? Json.nat?, ← DType.ofJson? dtype⟩
  | _ => none

end TensorType

/-- Read a serialized unary operation. -/
def UnaryOp.ofJson? (j : Json) : Option UnaryOp :=
  j.bareTag?.bind fun tag => all.find? fun op => op.name = tag

/-- Read a serialized binary operation. -/
def BinaryOp.ofJson? (j : Json) : Option BinaryOp :=
  j.bareTag?.bind fun tag => all.find? fun op => op.name = tag

/-- Read a serialized norm. -/
def NormOrder.ofJson? (j : Json) : Option NormOrder :=
  j.bareTag?.bind fun tag => all.find? fun order => order.name = tag

namespace Op

/-- Serialized form. -/
def toJson : Op → Json
  | binary op => .tagged "SimpleBinary" (.obj [("which", .str op.name)])
  | unary op => .tagged "SimpleUnary" (.obj [("which", .str op.name)])
  | cast d => .tagged "Cast" (.obj [("to", d.toJson)])
  | choose => .tagged "Where" (.obj [])
  | matmul => .tagged "MatMul" (.obj [])
  | cross => .tagged "Cross" (.obj [])
  | transpose => .tagged "Transpose" (.obj [])
  | slice s => .tagged "Slice" (.obj [("index", s.toJson)])
  | concat axis => .tagged "Concat" (.obj [("axis", .int (Int.ofNat axis))])
  | stack => .tagged "Stack" (.obj [])
  | sum => .tagged "ReduceSum" (.obj [])
  | norm order => .tagged "Norm" (.obj [("ord", .str order.name)])

/-- Read the only field of a record. -/
def field? (name : String) (j : Json) : Option Json := do
  match ← j.fields? [name] with
  | [value] => return value
  | _ => none

/-- Read a serialized operation. -/
def ofJson? (j : Json) : Option Op := do
  let (tag, content) ← j.variant?
  let content ← content
  match tag with
  | "SimpleBinary" => return binary (← BinaryOp.ofJson? (← field? "which" content))
  | "SimpleUnary" => return unary (← UnaryOp.ofJson? (← field? "which" content))
  | "Cast" => return cast (← DType.ofJson? (← field? "to" content))
  | "Slice" => return slice (← Selection.ofJson? (← field? "index" content))
  | "Concat" => return concat (← (← field? "axis" content).nat?)
  | "Norm" => return norm (← NormOrder.ofJson? (← field? "ord" content))
  | _ =>
    let _ ← content.fields? []
    match tag with
    | "Where" => return choose
    | "MatMul" => return matmul
    | "Cross" => return cross
    | "Transpose" => return transpose
    | "Stack" => return stack
    | "ReduceSum" => return sum
    | _ => none

end Op

/-- Read a field that may be absent. -/
def Json.orDefault {α : Type} (read : Json → Option α) (default : α) : Option Json → Option α
  | some j => read j
  | none => some default

namespace TraceConfig

/-- Serialized form. -/
def toJson (c : TraceConfig) : Json := .obj [("float_dtype", c.floatDType.toJson)]

/-- Read a serialized configuration. -/
def ofJson? (j : Json) : Option TraceConfig := do
  let base : TraceConfig := {}
  match ← j.record? ["float_dtype"] with
  | [d] => return ⟨← Json.orDefault DType.ofJson? base.floatDType d⟩
  | _ => none

end TraceConfig

namespace CompileOptions

/-- Serialized form. -/
def toJson (o : CompileOptions) : Json :=
  .obj [("enable_fusion", .bool o.fuse), ("raw_export", .bool o.raw),
    ("unit_name", .str o.unitName)]

/-- Read serialized options. -/
def ofJson? (j : Json) : Option CompileOptions := do
  let base : CompileOptions := {}
  match ← j.record? ["enable_fusion", "raw_export", "unit_name"] with
  | [fuse, raw, unitName] =>
    return ⟨← Json.orDefault Json.bool? base.fuse fuse,
      ← Json.orDefault Json.bool? base.raw raw,
      ← Json.orDefault Json.str? base.unitName unitName⟩
  | _ => none

end CompileOptions

namespace BuildOptions

/-- Serialized form. -/
def toJson (o : BuildOptions) : Json :=
  .obj [("compiler", .str o.compiler), ("flags", .arr (o.flags.map Json.str))]

/-- Read serialized options. -/
def ofJson? (j : Json) : Option BuildOptions := do
  let base : BuildOptions := {}
  match ← j.record? ["compiler", "flags"] with
  | [compiler, flags] =>
    return ⟨← Json.orDefault Json.str? base.compiler compiler,
      ← Json.orDefault (Json.list? Json.str?) base.flags flags⟩
  | _ => none

end BuildOptions

end ArrayTrace
