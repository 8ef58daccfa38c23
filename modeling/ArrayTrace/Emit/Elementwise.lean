import ArrayTrace.Emit.Indexing
import ArrayTrace.Emit.Storage

/-!
# Elementwise code

A kernel becomes one loop nest over the shape of its root whose body evaluates the
whole expression for one element. Operands are converted to the type in which their
operation is computed.
-/

namespace ArrayTrace.Emit

open C

/-- Name of a mathematics function in the precision of a type. -/
def mathName (name : String) (d : DType) : String :=
  if d = .f32 then name ++ "f" else name

/-- Name of a helper function in the variant for a type. -/
def helperName (name : String) (d : DType) : String :=
  match d with
  | .f64 => name ++ "_f64"
  | .f32 => name ++ "_f32"
  | _ => name ++ "_i64"

/-- Type in which a binary operation is computed. -/
def operandDType (op : BinaryOp) (a b out : DType) : DType :=
  match op.kind with
  | .arithmetic => out
  | .comparison => DType.comparison a b
  | .logical => .bool

/-- A binary operation on converted operands. -/
def binaryOn (op : BinaryOp) (x y : Expr) (out : DType) : Expr :=
  match op with
  | .add => Expr.group .add x y
  | .sub => Expr.group .sub x y
  | .mul => Expr.group .mul x y
  | .div => Expr.group .div x y
  | .pow => .call₂ (mathName "pow" out) x y
  | .modulo => .call₂ (helperName "wj_mod" out) x y
  | .max => .call₂ (if out.isFloat then mathName "fmax" out else "wj_max_i64") x y
  | .min => .call₂ (if out.isFloat then mathName "fmin" out else "wj_min_i64") x y
  | .equal => Expr.group .eq x y
  | .notEqual | .xor => Expr.group .ne x y
  | .less => Expr.group .lt x y
  | .lessOrEqual => Expr.group .le x y
  | .greater => Expr.group .gt x y
  | .greaterOrEqual => Expr.group .ge x y
  | .and => Expr.group .and x y
  | .or => Expr.group .or x y

/-- A binary operation. -/
def binary (op : BinaryOp) (a b : Expr × DType) (out : DType) : Expr :=
  let d := operandDType op a.2 b.2 out
  binaryOn op (a.1.convert a.2 d) (b.1.convert b.2 d) out

/-- A call of the mathematics function of an operation, or the operand where there is none. -/
def mathCall (op : UnaryOp) (x : Expr) (out : DType) : Expr :=
  match op.cFunction? with
  | some name => .call (mathName name out) x
  | none => x

/-- A unary operation. -/
def unary (op : UnaryOp) (a : Expr × DType) (out : DType) : Expr :=
  let x := a.1.convert a.2 out
  match op with
  | .not => .paren (.not (a.1.convert a.2 .bool))
  | .neg => .paren (.neg x)
  | .abs => if out.isFloat then mathCall op x out else .call "wj_abs_i64" x
  | .floor | .ceil => if out.isFloat then mathCall op x out else x
  | op => mathCall op x out

/-- A choice between two values. -/
def choice (c a b : Expr × DType) (out : DType) : Expr :=
  .paren (.cond (c.1.convert c.2 .bool) (a.1.convert a.2 out) (b.1.convert b.2 out))

/-- An elementwise operation applied to arguments of known types. -/
def operation? (op : Op) (args : List (Expr × DType)) (out : DType) : Option Expr :=
  match op, args with
  | .binary b, [x, y] => some (binary b x y out)
  | .unary u, [x] => some (unary u x out)
  | .cast d, [x] => some (x.1.convert x.2 d)
  | .choose, [c, x, y] => some (choice c x y out)
  | _, _ => none

mutual

/-- The expression that a kernel computes at the given indices, and its type. -/
def kernelExpr (scope : EmitScope) (indices : List Expr) :
    Kernel → Except EmitError (Expr × DType)
  | .leaf id => do
    let node ← scope.node id
    let array ← scope.array id
    return (.index array (broadcastLinear node.type.shape indices), node.type.dtype)
  | .apply id op args => do
    let node ← scope.node id
    let args ← kernelExprs scope indices args
    match operation? op args node.type.dtype with
    | some e => return (e, node.type.dtype)
    | none => throw (.unsupported node.name .notElementwise)

/-- The expressions that a list of kernels computes. -/
def kernelExprs (scope : EmitScope) (indices : List Expr) :
    List Kernel → Except EmitError (List (Expr × DType))
  | [] => return []
  | k :: ks => do
    let first ← kernelExpr scope indices k
    let rest ← kernelExprs scope indices ks
    return first :: rest

end

mutual

/-- A kernel in words. -/
def describe (scope : EmitScope) : Kernel → Except EmitError String
  | .leaf id => do return (← scope.node id).name
  | .apply _ op args => do
    return op.name ++ "(" ++ ", ".intercalate (← describeAll scope args) ++ ")"

/-- A list of kernels in words. -/
def describeAll (scope : EmitScope) : List Kernel → Except EmitError (List String)
  | [] => return []
  | k :: ks => do
    let first ← describe scope k
    let rest ← describeAll scope ks
    return first :: rest

end

/-- Comment in front of the code of a node. -/
def heading (n : Node) (description : String) : Stmt :=
  .comment (n.name ++ ": " ++ description)

/-- Code that computes a kernel into the array of a node. -/
def kernel (scope : EmitScope) (root : NodeId) (k : Kernel) : Except EmitError Stmt := do
  let node ← scope.node root
  let target ← scope.array root
  let indices := counters node.type.rank
  let (e, d) ← kernelExpr scope indices k
  let text ← describe scope k
  let place := Expr.index target (linear node.type.shape indices)
  return .seq (heading node text)
    (.nest (shapeLoops node.type.shape) (.store place (e.convert d node.type.dtype)))

end ArrayTrace.Emit
