import ArrayTrace.Tensor

/-!
# Operations

The operations a trace records, with the names they are shown and numbered by.
-/

namespace ArrayTrace

/-- Elementwise functions of one operand. -/
inductive UnaryOp
  | neg | abs | sqrt | exp | log | sin | cos | tan | asin | acos | atan | sinh | cosh | tanh
  | floor | ceil | not
deriving DecidableEq

/-- Elementwise functions of two operands. -/
inductive BinaryOp
  | add | sub | mul | div | pow | modulo | max | min
  | equal | notEqual | less | lessOrEqual | greater | greaterOrEqual
  | and | or | xor
deriving DecidableEq

/-- What kind of result a binary operation has. -/
inductive BinaryKind
  | arithmetic | comparison | logical
deriving DecidableEq

/-- Which norm: the Euclidean one of a vector or matrix by default, or a given order
of a vector. -/
inductive NormOrder
  | standard | two | one | inf
deriving DecidableEq

namespace UnaryOp

/-- Every unary operation. -/
def all : List UnaryOp :=
  [neg, abs, sqrt, exp, log, sin, cos, tan, asin, acos, atan, sinh, cosh, tanh, floor, ceil, not]

/-- Shown name. -/
def name : UnaryOp → String
  | neg => "Neg" | abs => "Abs" | sqrt => "Sqrt" | exp => "Exp" | log => "Log"
  | sin => "Sin" | cos => "Cos" | tan => "Tan" | asin => "Asin" | acos => "Acos"
  | atan => "Atan" | sinh => "Sinh" | cosh => "Cosh" | tanh => "Tanh"
  | floor => "Floor" | ceil => "Ceil" | not => "Not"

/-- First part of a generated node name. -/
def stem : UnaryOp → String
  | neg => "neg" | abs => "abs" | sqrt => "sqrt" | exp => "exp" | log => "log"
  | sin => "sin" | cos => "cos" | tan => "tan" | asin => "asin" | acos => "acos"
  | atan => "atan" | sinh => "sinh" | cosh => "cosh" | tanh => "tanh"
  | floor => "floor" | ceil => "ceil" | not => "not"

/-- Whether the function is defined on floating-point numbers only. -/
def isTranscendental : UnaryOp → Bool
  | neg | abs | floor | ceil | not => false
  | _ => true

/-- The C mathematics function that computes it on doubles. -/
def cFunction? : UnaryOp → Option String
  | neg | not => none
  | abs => some "fabs"
  | op => some op.stem

end UnaryOp

namespace BinaryOp

/-- Every binary operation. -/
def all : List BinaryOp :=
  [add, sub, mul, div, pow, modulo, max, min, equal, notEqual, less, lessOrEqual, greater,
    greaterOrEqual, and, or, xor]

/-- Shown name. -/
def name : BinaryOp → String
  | add => "Add" | sub => "Sub" | mul => "Mul" | div => "Div" | pow => "Pow"
  | modulo => "Modulo" | max => "Max" | min => "Min" | equal => "Equal"
  | notEqual => "NotEqual" | less => "Less" | lessOrEqual => "LessOrEqual"
  | greater => "Greater" | greaterOrEqual => "GreaterOrEqual"
  | and => "And" | or => "Or" | xor => "Xor"

/-- First part of a generated node name. -/
def stem : BinaryOp → String
  | add => "add" | sub => "sub" | mul => "mul" | div => "div" | pow => "pow"
  | modulo => "mod" | max => "max" | min => "min" | equal => "eq" | notEqual => "ne"
  | less => "lt" | lessOrEqual => "le" | greater => "gt" | greaterOrEqual => "ge"
  | and => "and" | or => "or" | xor => "xor"

/-- The kind of result. -/
def kind : BinaryOp → BinaryKind
  | add | sub | mul | div | pow | modulo | max | min => .arithmetic
  | equal | notEqual | less | lessOrEqual | greater | greaterOrEqual => .comparison
  | and | or | xor => .logical

end BinaryOp

namespace NormOrder

/-- Every norm. -/
def all : List NormOrder := [standard, two, one, inf]

/-- Shown name. -/
def name : NormOrder → String
  | standard => "Default" | two => "Two" | one => "One" | inf => "Inf"

end NormOrder

/-- An operation over arrays. -/
inductive Op
  | binary (op : BinaryOp)
  | unary (op : UnaryOp)
  /-- Conversion to another element type. -/
  | cast (dtype : DType)
  /-- Elementwise choice between two arrays by a condition. -/
  | choose
  | matmul
  | cross
  | transpose
  | slice (selection : Selection)
  | concat (axis : Nat)
  | stack
  | sum
  | norm (order : NormOrder)
deriving DecidableEq

namespace Op

/-- Shown name. -/
def name : Op → String
  | binary op => op.name
  | unary op => op.name
  | cast d => s!"Cast({d.name})"
  | choose => "Where"
  | matmul => "MatMul"
  | cross => "Cross"
  | transpose => "Transpose"
  | slice s => "Slice" ++ s.describe
  | concat axis => s!"Concat(axis={axis})"
  | stack => "Stack"
  | sum => "ReduceSum"
  | norm order => s!"Norm({order.name})"

/-- First part of a generated node name. -/
def stem : Op → String
  | binary op => op.stem
  | unary op => op.stem
  | cast _ => "cast"
  | choose => "where"
  | matmul => "matmul"
  | cross => "cross"
  | transpose => "transpose"
  | slice _ => "slice"
  | concat _ => "concat"
  | stack => "stack"
  | sum => "sum"
  | norm _ => "norm"

/-- Whether each element of the result depends on one element of every operand, so
that the operation can become part of a larger expression. -/
def isElementwise : Op → Bool
  | binary _ | unary _ | cast _ | choose => true
  | _ => false

end Op

end ArrayTrace
