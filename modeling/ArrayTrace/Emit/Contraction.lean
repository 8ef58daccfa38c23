import ArrayTrace.Emit.Elementwise

/-!
# Code that sums

Matrix products, cross products, sums and norms. Sums are accumulated in row-major
order, norms in double precision whatever the element type.
-/

namespace ArrayTrace.Emit

open C

/-- An element of an array at a row and column. -/
def entryAt (array : Expr) (row : String) (width : Nat) (column : String) : Expr :=
  .index array (.bin .add (.bin .mul (.var row) (.num width)) (.var column))

/-- Code of a product of vectors and matrices; a vector counts as one row or one
column. -/
def matmul (scope : EmitScope) (node : Node) (inputs : List NodeId) :
    Except EmitError Stmt := do
  let (a, b) ← scope.operands node inputs
  match Op.leftDims? a.type.shape, Op.rightDim? b.type.shape with
  | some (m, k), some n =>
    let d := node.type.dtype
    let target ← scope.array node.id
    let left ← scope.array a.id
    let right ← scope.array b.id
    let x := (entryAt left "i" k "p").convert a.type.dtype d
    let y := (entryAt right "p" n "j").convert b.type.dtype d
    let body := Stmt.all
      [.declare d "acc" (.num 0),
        .loop ⟨"p", 0, k⟩ (.accumulate (.var "acc") (.bin .mul x y)),
        .store (entryAt target "i" n "j") (.var "acc")]
    return .seq (heading node s!"MatMul({a.name}, {b.name})")
      (.loop ⟨"i", 0, m⟩ (.loop ⟨"j", 0, n⟩ body))
  | _, _ => throw (.unsupported node.name .operandRank)

/-- Code of a cross product. -/
def cross (scope : EmitScope) (node : Node) (inputs : List NodeId) :
    Except EmitError Stmt := do
  let (a, b) ← scope.operands node inputs
  let d := node.type.dtype
  let target ← scope.array node.id
  let left ← scope.array a.id
  let right ← scope.array b.id
  let x (i : Nat) := (Expr.index left (.num i)).convert a.type.dtype d
  let y (i : Nat) := (Expr.index right (.num i)).convert b.type.dtype d
  let component (i j k : Nat) := Stmt.store (.index target (.num i))
    (.bin .sub (.bin .mul (x j) (y k)) (.bin .mul (x k) (y j)))
  return .seq (heading node s!"Cross({a.name}, {b.name})")
    (.all [component 0 1 2, component 1 2 0, component 2 0 1])

/-- Code of a sum over all elements. -/
def sum (scope : EmitScope) (node : Node) (inputs : List NodeId) : Except EmitError Stmt := do
  let input ← scope.operand node inputs
  let target ← scope.array node.id
  let source ← scope.array input.id
  let d := node.type.dtype
  let element := (Expr.index source (.var "j")).convert input.type.dtype d
  return .seq (heading node s!"ReduceSum({input.name})")
    (.block (.all
      [.declare d "acc" (.num 0),
        .loopLine ⟨"j", 0, input.type.size⟩ (.accumulate (.var "acc") element),
        .store (.index target (.num 0)) (.var "acc")]))

/-- What a norm does with each element, and the result it takes from the sum. -/
def normParts : NormOrder → Stmt × Expr
  | .standard | .two =>
    (.accumulate (.var "acc") (.bin .mul (.var "x") (.var "x")), .call "sqrt" (.var "acc"))
  | .one => (.accumulate (.var "acc") (.call "fabs" (.var "x")), .var "acc")
  | .inf =>
    (.store (.var "acc") (.call₂ "fmax" (.var "acc") (.call "fabs" (.var "x"))), .var "acc")

/-- Code of a norm. -/
def norm (scope : EmitScope) (node : Node) (order : NormOrder) (inputs : List NodeId) :
    Except EmitError Stmt := do
  let input ← scope.operand node inputs
  let target ← scope.array node.id
  let source ← scope.array input.id
  let element := (Expr.index source (.var "j")).convert input.type.dtype .f64
  let (step, result) := normParts order
  return .seq (heading node s!"Norm({input.name}, {order.name})")
    (.block (.all
      [.declare .f64 "acc" .realZero,
        .loop ⟨"j", 0, input.type.size⟩ (.seq (.declare .f64 "x" element) step),
        .store (.index target (.num 0)) (result.convert .f64 node.type.dtype)]))

end ArrayTrace.Emit
