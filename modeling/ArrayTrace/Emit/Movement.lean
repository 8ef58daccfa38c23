import ArrayTrace.Emit.Elementwise

/-!
# Code that moves elements

Transposes and slices copy one element per iteration of a loop nest; joined arrays
are copied block by block; an assignment stores into the region it selects.
-/

namespace ArrayTrace.Emit

open C

/-- Code of a transpose. -/
def transpose (scope : EmitScope) (node : Node) (inputs : List NodeId) :
    Except EmitError Stmt := do
  let input ← scope.operand node inputs
  let target ← scope.array node.id
  let source ← scope.array input.id
  let shape := input.type.shape
  let indices := counters shape.length
  return .seq (heading node s!"Transpose({input.name})")
    (.nest (shapeLoops shape)
      (.store (.index target (linear node.type.shape indices.reverse))
        (.index source (linear shape indices))))

/-- Code of a slice. -/
def slice (scope : EmitScope) (node : Node) (selection : Selection) (inputs : List NodeId) :
    Except EmitError Stmt := do
  let input ← scope.operand node inputs
  let shape := input.type.shape
  let window ← (selection.resolve shape).mapError .selection
  let target ← scope.array node.id
  let source ← scope.array input.id
  let indices := counters shape.length
  return .seq (heading node (input.name ++ selection.describe))
    (.nest (regionLoops window.region)
      (.store (.index target (linear node.type.shape (relative window indices)))
        (.index source (linear shape indices))))

/-- Loops that copy one part of joined arrays. For each of `outer` blocks of the
result, `block` elements go to position `start` of the `outBlock` elements. -/
def copyBlocks (target : Expr) (outer outBlock start block : Nat) (value : Expr) : Stmt :=
  let position := Expr.bin .add
    (.bin .add (.bin .mul (.var "o") (.num outBlock)) (.num start)) (.var "j")
  .loopLine ⟨"o", 0, outer⟩ (.loopLine ⟨"j", 0, block⟩ (.store (.index target position) value))

/-- Names and copies of the parts joined along an axis, from position `start` on. -/
def concatParts (scope : EmitScope) (node : Node) (target : Expr) (axis : Nat) :
    Nat → List NodeId → Except EmitError (List String × List Stmt)
  | _, [] => return ([], [])
  | start, id :: rest => do
    let input ← scope.node id
    let source ← scope.array id
    let outer := Shape.size (node.type.shape.take axis)
    let outBlock := Shape.size (node.type.shape.drop axis)
    let block := Shape.size (input.type.shape.drop axis)
    let element := Expr.index source
      (.bin .add (.bin .mul (.var "o") (.num block)) (.var "j"))
    let copy := copyBlocks target outer outBlock start block
      (element.convert input.type.dtype node.type.dtype)
    let (names, copies) ← concatParts scope node target axis (start + block) rest
    return (input.name :: names, copy :: copies)

/-- Code that joins arrays along an axis. -/
def concat (scope : EmitScope) (node : Node) (axis : Nat) (inputs : List NodeId) :
    Except EmitError Stmt := do
  let target ← scope.array node.id
  let (names, copies) ← concatParts scope node target axis 0 inputs
  let text := "Concat((" ++ ", ".intercalate names ++ "), axis=" ++ axis.repr ++ ")"
  return .seq (heading node text) (.all copies)

/-- Names and copies of the parts of a stack, from part `k` on. -/
def stackParts (scope : EmitScope) (node : Node) (target : Expr) :
    Nat → List NodeId → Except EmitError (List String × List Stmt)
  | _, [] => return ([], [])
  | k, id :: rest => do
    let input ← scope.node id
    let source ← scope.array id
    let n := input.type.size
    let element := Expr.index source (.var "j")
    let copy := Stmt.loopLine ⟨"j", 0, n⟩
      (.store (.index target (.bin .add (.num (k * n)) (.var "j")))
        (element.convert input.type.dtype node.type.dtype))
    let (names, copies) ← stackParts scope node target (k + 1) rest
    return (input.name :: names, copy :: copies)

/-- Code that stacks arrays. -/
def stack (scope : EmitScope) (node : Node) (inputs : List NodeId) :
    Except EmitError Stmt := do
  let target ← scope.array node.id
  let (names, copies) ← stackParts scope node target 0 inputs
  return .seq (heading node ("Stack(" ++ ", ".intercalate names ++ ")")) (.all copies)

/-- Code of an assignment into part of an array. -/
def assign (scope : EmitScope) (node : Node) (target : NodeId) (selection : Selection)
    (value : NodeId) : Except EmitError Stmt := do
  let targetNode ← scope.node target
  let valueNode ← scope.node value
  let shape := targetNode.type.shape
  let window ← (selection.resolve shape).mapError .selection
  let place ← scope.array target
  let source ← scope.array value
  let indices := counters shape.length
  let element := Expr.index source
    (broadcastLinear valueNode.type.shape (relative window indices))
  let text := targetNode.name ++ selection.describe ++ " = " ++ valueNode.name
  return .seq (heading node text)
    (.nest (regionLoops window.region)
      (.store (.index place (linear shape indices))
        (element.convert valueNode.type.dtype targetNode.type.dtype)))

end ArrayTrace.Emit
