import ArrayTrace.Op.Infer

/-!
# Evaluation

The value of an operation on concrete arrays, for a result of known type. Each
elementwise operation has one scalar function per element type it is available
at; its operands are converted to that type and broadcast to the result's shape.
Sums and products of integers are accumulated in row-major order. How products of
floats are accumulated is left to a routine.

An array that cannot be had for want of memory counts as one that can. Positions
that pass the largest machine word, and products of floats whose shapes do not fit,
are refused here, whereas a run would be stopped.
-/

namespace ArrayTrace

/-- Why an operation has no value. -/
inductive EvalError
  | tensor (e : TensorError)
  | infer (e : InferError)
  | invalidInput (op : String)
deriving DecidableEq

/-- The error in words. -/
def EvalError.message : EvalError → String
  | tensor e => e.message
  | infer e => e.message
  | invalidInput op => s!"Invalid input for operation {op}"

namespace UnaryOp

/-- The function on binary64 numbers. -/
def onFloat : UnaryOp → Option (Float → Float)
  | neg => some fun x => -x
  | abs => some Float.abs
  | sqrt => some Float.sqrt
  | exp => some Float.exp
  | log => some Float.log
  | sin => some Float.sin
  | cos => some Float.cos
  | tan => some Float.tan
  | asin => some Float.asin
  | acos => some Float.acos
  | atan => some Float.atan
  | sinh => some Float.sinh
  | cosh => some Float.cosh
  | tanh => some Float.tanh
  | floor => some Float.floor
  | ceil => some Float.ceil
  | not => none

/-- The function on binary32 numbers. -/
def onFloat32 : UnaryOp → Option (Float32 → Float32)
  | neg => some fun x => -x
  | abs => some Float32.abs
  | sqrt => some Float32.sqrt
  | exp => some Float32.exp
  | log => some Float32.log
  | sin => some Float32.sin
  | cos => some Float32.cos
  | tan => some Float32.tan
  | asin => some Float32.asin
  | acos => some Float32.acos
  | atan => some Float32.atan
  | sinh => some Float32.sinh
  | cosh => some Float32.cosh
  | tanh => some Float32.tanh
  | floor => some Float32.floor
  | ceil => some Float32.ceil
  | not => none

/-- The function on integers, wrapping around. -/
def onInt64 : UnaryOp → Option (Int64 → Int64)
  | neg => some fun x => -x
  | abs => some fun x => if x < 0 then -x else x
  | floor | ceil => some fun x => x
  | _ => none

/-- The function on Booleans. -/
def onBool : UnaryOp → Option (Bool → Bool)
  | not => some fun x => !x
  | floor | ceil => some fun x => x
  | _ => none

/-- The function on the elements of a type, where the operation is available. -/
def on (op : UnaryOp) : (d : DType) → Option (d.Elem → d.Elem)
  | .f64 => op.onFloat
  | .f32 => op.onFloat32
  | .i64 => op.onInt64
  | .bool => op.onBool

end UnaryOp

namespace BinaryOp

/-- The arithmetic function on binary64 numbers. -/
def onFloat : BinaryOp → Option (Float → Float → Float)
  | add => some fun x y => x + y
  | sub => some fun x y => x - y
  | mul => some fun x y => x * y
  | div => some fun x y => x / y
  | pow => some Float.pow
  | modulo => some floorModFloat
  | max => some maxFloat
  | min => some minFloat
  | _ => none

/-- The arithmetic function on binary32 numbers. -/
def onFloat32 : BinaryOp → Option (Float32 → Float32 → Float32)
  | add => some fun x y => x + y
  | sub => some fun x y => x - y
  | mul => some fun x y => x * y
  | div => some fun x y => x / y
  | pow => some Float32.pow
  | modulo => some floorModFloat32
  | max => some maxFloat32
  | min => some minFloat32
  | _ => none

/-- The arithmetic function on integers, wrapping around. -/
def onInt64 : BinaryOp → Option (Int64 → Int64 → Int64)
  | add => some fun x y => x + y
  | sub => some fun x y => x - y
  | mul => some fun x y => x * y
  | modulo => some floorMod
  | max => some fun x y => if x < y then y else x
  | min => some fun x y => if y < x then y else x
  | _ => none

/-- The arithmetic function on the elements of a type, where it is available. -/
def on (op : BinaryOp) : (d : DType) → Option (d.Elem → d.Elem → d.Elem)
  | .f64 => op.onFloat
  | .f32 => op.onFloat32
  | .i64 => op.onInt64
  | .bool => none

/-- The comparison of two elements of a type, where it is available. -/
def compare (op : BinaryOp) : (d : DType) → Option (d.Elem → d.Elem → Bool)
  | .f64 =>
    match op with
    | equal => some fun (x y : Float) => x == y
    | notEqual => some fun (x y : Float) => x != y
    | less => some fun (x y : Float) => decide (x < y)
    | lessOrEqual => some fun (x y : Float) => decide (x ≤ y)
    | greater => some fun (x y : Float) => decide (y < x)
    | greaterOrEqual => some fun (x y : Float) => decide (y ≤ x)
    | _ => none
  | .i64 =>
    match op with
    | equal => some fun (x y : Int64) => x == y
    | notEqual => some fun (x y : Int64) => x != y
    | less => some fun (x y : Int64) => decide (x < y)
    | lessOrEqual => some fun (x y : Int64) => decide (x ≤ y)
    | greater => some fun (x y : Int64) => decide (y < x)
    | greaterOrEqual => some fun (x y : Int64) => decide (y ≤ x)
    | _ => none
  | _ => none

/-- The logical function. -/
def logic : BinaryOp → Option (Bool → Bool → Bool)
  | and => some fun x y => x && y
  | or => some fun x y => x || y
  | xor => some fun x y => x ^^ y
  | _ => none

end BinaryOp

namespace NormOrder

/-- Norm of a list of numbers in binary64. Sums start at negative zero, the neutral
element of addition, so that the norm of nothing is negative zero. -/
def compute (order : NormOrder) (xs : List Float) : Float :=
  match order with
  | standard | two => (xs.foldl (fun acc x => acc + x * x) (-0.0)).sqrt
  | one => xs.foldl (fun acc x => acc + x.abs) (-0.0)
  | inf => xs.foldl (fun acc x => maxFloat acc x.abs) 0.0

end NormOrder

namespace NDArray

variable {α : Type}

/-- Element of the product of vectors and matrices at a multi-index: the last axis of the
first operand is summed against the first axis of the second, from the first position on. -/
def dotAt [Inhabited α] [Add α] [Mul α] (zero : α) (a b : NDArray α) (ix : List Nat) : α :=
  let rows := a.shape.length - 1
  (List.range (a.shape.getLastD 0)).foldl
    (fun acc p => acc + a.get (ix.take rows ++ [p]) * b.get (p :: ix.drop rows)) zero

end NDArray

/-- The elements of products of vectors and matrices of floats, at each multi-index. They
depend on the order in which terms are added, which depends on how the operands lie in
memory. Nothing is assumed of it. -/
class FloatProduct where
  f64 : NDArray Float → NDArray Float → List Nat → Float
  f32 : NDArray Float32 → NDArray Float32 → List Nat → Float32

/-- Terms added one after the other, as for operands that do not lie in memory row by row. -/
instance (priority := low) FloatProduct.sequential : FloatProduct where
  f64 := NDArray.dotAt 0.0
  f32 := NDArray.dotAt 0.0

namespace Op

/-- Lift a refusal of the tensor layer. -/
def ofTensor {α : Type} : Except TensorError α → Except EvalError α :=
  Except.mapError .tensor

/-- Value of a binary operation. -/
def evalBinary (op : BinaryOp) (a b : Tensor) (out : TensorType) : Except EvalError Tensor :=
  match op.kind with
  | .arithmetic =>
    match op.on out.dtype with
    | some f => ofTensor do
      let r ← (a.as out.dtype).zipSpread f (b.as out.dtype) out.shape
      return ⟨out.dtype, r⟩
    | none => .error (.invalidInput op.name)
  | .comparison =>
    let d := DType.comparison a.dtype b.dtype
    match op.compare d with
    | some f => ofTensor do
      let r ← (a.as d).zipSpread f (b.as d) out.shape
      return ⟨.bool, r⟩
    | none => .error (.invalidInput op.name)
  | .logical =>
    match op.logic with
    | some f => ofTensor do
      let r ← (a.as .bool).zipSpread f (b.as .bool) out.shape
      return ⟨.bool, r⟩
    | none => .error (.invalidInput op.name)

/-- Value of a unary operation. -/
def evalUnary (op : UnaryOp) (a : Tensor) (out : TensorType) : Except EvalError Tensor :=
  match op.on out.dtype with
  | some f => .ok ⟨out.dtype, (a.as out.dtype).map f⟩
  | none => .error (.invalidInput op.name)

/-- Value of an elementwise choice. -/
def evalChoose (c a b : Tensor) (out : TensorType) : Except EvalError Tensor := ofTensor do
  let cond ← (c.as .bool).spread out.shape
  let x ← (a.as out.dtype).spread out.shape
  let y ← (b.as out.dtype).spread out.shape
  return ⟨out.dtype, .ofFn out.shape fun ix => if cond.get ix then x.get ix else y.get ix⟩

/-- Product of vectors and matrices of integers, which wraps around: the elements are
computed row by row, from the positions of the terms. -/
def integerProduct (a b : NDArray Int64) : Except EvalError (NDArray Int64) := do
  let shape ← (matmulShape a.shape b.shape).mapError .infer
  match leftDims? a.shape, rightDim? b.shape with
  | some (m, k), some n =>
    if UInt64.size ≤ m * n then throw (.tensor (.layout .overflow))
    let values := (List.range m).flatMap fun i => (List.range n).map fun j =>
      (List.range k).foldl
        (fun acc p => acc + a.data.getD (i * k + p) 0 * b.data.getD (p * n + j) 0) 0
    (NDArray.ofList shape values).mapError fun e => .tensor (.layout e)
  | _, _ => throw (.invalidInput "MatMul")

/-- Product of vectors and matrices of floats, with the elements that a routine finds. -/
def floatProduct {α : Type} [Inhabited α]
    (routine : NDArray α → NDArray α → List Nat → α) (a b : NDArray α) :
    Except EvalError (NDArray α) := do
  if a.shape.length ∉ [1, 2] ∨ b.shape.length ∉ [1, 2] then throw (.invalidInput "MatMul")
  let shape ← (matmulShape a.shape b.shape).mapError .infer
  if shape.addressable then return .ofFn shape (routine a b)
  throw (.tensor (.layout .overflow))

/-- Value of a product of vectors and matrices. -/
def evalMatmul [FloatProduct] (a b : Tensor) : DType → Except EvalError Tensor
  | .f64 => do return ⟨.f64, ← floatProduct FloatProduct.f64 (a.as .f64) (b.as .f64)⟩
  | .f32 => do return ⟨.f32, ← floatProduct FloatProduct.f32 (a.as .f32) (b.as .f32)⟩
  | .i64 => do return ⟨.i64, ← integerProduct (a.as .i64) (b.as .i64)⟩
  | .bool => .error (.invalidInput "MatMul")

/-- Components of the cross product of two lists of three numbers. -/
def crossOf {α : Type} [Sub α] [Mul α] : List α → List α → Option (List α)
  | [a0, a1, a2], [b0, b1, b2] =>
    some [a1 * b2 - a2 * b1, a2 * b0 - a0 * b2, a0 * b1 - a1 * b0]
  | _, _ => none

/-- Value of a cross product. -/
def evalCross (a b : Tensor) (d : DType) : Except EvalError Tensor :=
  let result? : Option Tensor :=
    match d with
    | .f64 => (crossOf (a.as .f64).data (b.as .f64).data).map (Tensor.vector .f64)
    | .f32 => (crossOf (a.as .f32).data (b.as .f32).data).map (Tensor.vector .f32)
    | .i64 => (crossOf (a.as .i64).data (b.as .i64).data).map (Tensor.vector .i64)
    | .bool => none
  match result? with
  | some t => .ok t
  | none => .error (.invalidInput "Cross")

/-- Value of a sum over all elements. -/
def evalSum (a : Tensor) (d : DType) : Except EvalError Tensor :=
  match d with
  | .f64 => .ok (.scalar .f64 ((a.as .f64).data.foldl (fun (acc x : Float) => acc + x) 0.0))
  | .f32 => .ok (.scalar .f32 ((a.as .f32).data.foldl (fun (acc x : Float32) => acc + x) 0.0))
  | .i64 => .ok (.scalar .i64 ((a.as .i64).data.foldl (fun (acc x : Int64) => acc + x) 0))
  | .bool => .error (.invalidInput "ReduceSum")

/-- Value of an operation whose result has the given type. -/
def eval [FloatProduct] (op : Op) (inputs : List Tensor) (out : TensorType) :
    Except EvalError Tensor :=
  match op, inputs with
  | binary b, [x, y] => evalBinary b x y out
  | unary u, [x] => evalUnary u x out
  | cast d, [x] => .ok (x.cast d)
  | choose, [c, x, y] => evalChoose c x y out
  | matmul, [x, y] => evalMatmul x y out.dtype
  | cross, [x, y] => evalCross x y out.dtype
  | transpose, [x] => .ok ⟨x.dtype, x.array.transpose⟩
  | slice s, [x] => do
    let w ← (s.resolve x.shape).mapError fun e => .infer (.selection e)
    return x.extract w
  | concat axis, parts => do
    let r ← (NDArray.concat axis (parts.map fun t => t.as out.dtype)).mapError
      fun e => .tensor (.layout e)
    return ⟨out.dtype, r⟩
  | stack, parts => do
    let r ← (NDArray.stack (parts.map fun t => t.as out.dtype)).mapError
      fun e => .tensor (.layout e)
    return ⟨out.dtype, r⟩
  | sum, [x] => evalSum x out.dtype
  | norm order, [x] => .ok ((Tensor.scalar .f64 (order.compute x.floats)).cast out.dtype)
  | _, _ => .error (.invalidInput op.name)

end Op

end ArrayTrace
