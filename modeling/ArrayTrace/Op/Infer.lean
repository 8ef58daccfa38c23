import ArrayTrace.Op

/-!
# Result types

The shape and element type of an operation's result, from those of its operands
and the preferred floating-point type, or the reason why the operation does not
apply to them.
-/

namespace ArrayTrace

/-- How many operands an operation takes. -/
inductive Arity
  | exactly (n : Nat)
  | atLeast (n : Nat)
deriving DecidableEq

/-- How shapes fail to fit together. -/
inductive Mismatch
  | broadcastPair (a b : Shape)
  | broadcastTriple (a b c : Shape)
  | innerDims (x y : Nat) (a b : Shape)
  | notThreeVectors (a b : Shape)
  | scalarPart
  | noSuchAxis (axis rank : Nat)
  | partRanks (a b : Shape)
  | partDims (axis : Nat) (a b : Shape)
  | elementShapes (a b : Shape)
  | assignedRegion (value region : Shape)
deriving DecidableEq

/-- What an operation does not support. -/
inductive Unsupported
  | operandRanks (a b : Nat)
  | inputRank (rank : Nat)
  | orderOnRank (order : NormOrder) (rank : Nat)
  | assignInto (kind name : String)
deriving DecidableEq

/-- Why an operation does not apply. -/
inductive InferError
  | shape (op : String) (cause : Mismatch)
  | selection (e : SelectionError)
  | unsupported (op : String) (cause : Unsupported)
  | arity (op : String) (expected : Arity) (got : Nat)
deriving DecidableEq

namespace Arity

/-- The count in words. -/
def message : Arity → String
  | exactly n => n.repr
  | atLeast n => s!"at least {n}"

end Arity

namespace Mismatch

/-- The mismatch in words. -/
def message : Mismatch → String
  | broadcastPair a b => s!"cannot broadcast {a.describe} with {b.describe}"
  | broadcastTriple a b c =>
    s!"cannot broadcast {a.describe}, {b.describe} and {c.describe}"
  | innerDims x y a b =>
    s!"inner dimensions {x} and {y} of {a.describe} and {b.describe} do not agree"
  | notThreeVectors a b =>
    s!"expected two vectors of length 3, got {a.describe} and {b.describe}"
  | scalarPart => "zero-rank inputs cannot be concatenated"
  | noSuchAxis axis rank => s!"axis {axis} out of range for rank {rank}"
  | partRanks a b => s!"rank mismatch between {a.describe} and {b.describe}"
  | partDims axis a b => s!"dimension {axis} differs between {a.describe} and {b.describe}"
  | elementShapes a b => s!"element shapes {a.describe} and {b.describe} differ"
  | assignedRegion v r =>
    s!"cannot broadcast {v.describe} into region of shape {r.describe}"

end Mismatch

namespace Unsupported

/-- The missing support in words. -/
def message : Unsupported → String
  | operandRanks a b => s!"operands of rank {a} and {b}"
  | inputRank r => s!"rank {r} input"
  | orderOnRank o r => s!"order {o.name} is only supported on vectors, got rank {r}"
  | assignInto kind name => s!"cannot assign into {kind} {name}"

end Unsupported

namespace InferError

/-- The error in words. -/
def message : InferError → String
  | shape op cause => s!"Shape mismatch in {op}: {cause.message}"
  | selection e => e.message
  | unsupported op cause => s!"Unsupported operation {op}: {cause.message}"
  | arity op expected got => s!"{op} expects {expected.message} inputs, got {got}"

end InferError

namespace Op

/-- Shape of the product of two vectors or matrices. -/
def matmulShape (a b : Shape) : Except InferError Shape :=
  let mismatch (x y : Nat) : InferError := .shape "MatMul" (.innerDims x y a b)
  match a, b with
  | [k], [l] => if k = l then .ok [] else .error (mismatch k l)
  | [m, k], [l] => if k = l then .ok [m] else .error (mismatch k l)
  | [k], [l, n] => if k = l then .ok [n] else .error (mismatch k l)
  | [m, k], [l, n] => if k = l then .ok [m, n] else .error (mismatch k l)
  | _, _ => .error (.unsupported "MatMul" (.operandRanks a.length b.length))

/-- Rows and columns of the first operand of a product, where a vector is one row. -/
def leftDims? : Shape → Option (Nat × Nat)
  | [k] => some (1, k)
  | [m, k] => some (m, k)
  | _ => none

/-- Columns of the second operand of a product, where a vector is one column. -/
def rightDim? : Shape → Option Nat
  | [_] => some 1
  | [_, n] => some n
  | _ => none

/-- Type to which the operands are promoted one after the other. -/
def commonDType (preferred : DType) (first : TensorType) (rest : List TensorType) : DType :=
  rest.foldl (fun acc t => DType.promote acc t.dtype preferred) first.dtype

/-- The first axis other than `axis` on which two shapes differ. -/
def differingAxis? (axis : Nat) (a b : Shape) : Option Nat :=
  (List.range a.length).find? fun i => i ≠ axis ∧ a[i]? ≠ b[i]?

/-- Check that a part can be joined to the first one along an axis. -/
def checkPart (axis : Nat) (first part : Shape) : Except InferError Unit :=
  if part.length ≠ first.length then .error (.shape "Concat" (.partRanks first part))
  else match differingAxis? axis first part with
    | some i => .error (.shape "Concat" (.partDims i first part))
    | none => .ok ()

/-- Shape of parts joined along an axis. -/
def concatShape (axis : Nat) (first : Shape) (parts : List Shape) : Except InferError Shape := do
  let rank := first.length
  if rank = 0 then throw (.shape "Concat" .scalarPart)
  if rank ≤ axis then throw (.shape "Concat" (.noSuchAxis axis rank))
  parts.forM (checkPart axis first)
  return first.set axis (Shape.joinedLength axis parts)

/-- Element type of a binary operation's result. -/
def binaryDType (op : BinaryOp) (a b preferred : DType) : DType :=
  let promoted := DType.promote a b preferred
  match op.kind with
  | .comparison | .logical => .bool
  | .arithmetic =>
    match op with
    | .div | .pow => promoted.floatOr preferred
    | _ => promoted.arithmetic

/-- Element type of a unary operation's result. -/
def unaryDType (op : UnaryOp) (d preferred : DType) : DType :=
  match op with
  | .not => .bool
  | .neg | .abs => d.arithmetic
  | .floor | .ceil => d
  | _ => d.floatOr preferred

/-- Type of the result, where `preferred` is the float that integers turn into. -/
def infer (op : Op) (inputs : List TensorType) (preferred : DType) :
    Except InferError TensorType :=
  match op, inputs with
  | binary b, [x, y] =>
    match Shape.broadcast? [x.shape, y.shape] with
    | some s => .ok ⟨s, binaryDType b x.dtype y.dtype preferred⟩
    | none => .error (.shape op.name (.broadcastPair x.shape y.shape))
  | binary _, _ => .error (.arity op.name (.exactly 2) inputs.length)
  | unary u, [x] => .ok ⟨x.shape, unaryDType u x.dtype preferred⟩
  | unary _, _ => .error (.arity op.name (.exactly 1) inputs.length)
  | cast d, [x] => .ok ⟨x.shape, d⟩
  | cast _, _ => .error (.arity "Cast" (.exactly 1) inputs.length)
  | choose, [c, x, y] =>
    match Shape.broadcast? [c.shape, x.shape, y.shape] with
    | some s => .ok ⟨s, DType.promote x.dtype y.dtype preferred⟩
    | none => .error (.shape "Where" (.broadcastTriple c.shape x.shape y.shape))
  | choose, _ => .error (.arity "Where" (.exactly 3) inputs.length)
  | matmul, [x, y] => do
    let s ← matmulShape x.shape y.shape
    return ⟨s, (DType.promote x.dtype y.dtype preferred).arithmetic⟩
  | matmul, _ => .error (.arity "MatMul" (.exactly 2) inputs.length)
  | cross, [x, y] =>
    if x.shape = [3] ∧ y.shape = [3] then
      .ok ⟨[3], (DType.promote x.dtype y.dtype preferred).arithmetic⟩
    else .error (.shape "Cross" (.notThreeVectors x.shape y.shape))
  | cross, _ => .error (.arity "Cross" (.exactly 2) inputs.length)
  | transpose, [x] =>
    if 2 < x.rank then .error (.unsupported "Transpose" (.inputRank x.rank))
    else .ok ⟨x.shape.reverse, x.dtype⟩
  | transpose, _ => .error (.arity "Transpose" (.exactly 1) inputs.length)
  | slice s, [x] =>
    match s.resolve x.shape with
    | .ok w => .ok ⟨w.shape, x.dtype⟩
    | .error e => .error (.selection e)
  | slice _, _ => .error (.arity "Slice" (.exactly 1) inputs.length)
  | concat axis, first :: rest => do
    let s ← concatShape axis first.shape (inputs.map TensorType.shape)
    return ⟨s, commonDType preferred first rest⟩
  | concat _, [] => .error (.arity "Concat" (.atLeast 1) 0)
  | stack, first :: rest =>
    match rest.find? fun t => t.shape ≠ first.shape with
    | some other => .error (.shape "Stack" (.elementShapes first.shape other.shape))
    | none => .ok ⟨inputs.length :: first.shape, commonDType preferred first rest⟩
  | stack, [] => .error (.arity "Stack" (.atLeast 1) 0)
  | sum, [x] => .ok (.scalar x.dtype.arithmetic)
  | sum, _ => .error (.arity "ReduceSum" (.exactly 1) inputs.length)
  | norm order, [x] =>
    if 2 < x.rank then .error (.unsupported "Norm" (.inputRank x.rank))
    else if order ≠ .standard ∧ x.rank ≠ 1 then
      .error (.unsupported "Norm" (.orderOnRank order x.rank))
    else .ok (.scalar (x.dtype.floatOr preferred))
  | norm _, _ => .error (.arity "Norm" (.exactly 1) inputs.length)

end Op

end ArrayTrace
