import ArrayTrace.C.SourceFile
import ArrayTrace.Plan

/-!
# Storage of values in emitted code

Every computed value lives in an array whose name begins with the role of the array,
so that names chosen by the user never collide. Assignments share the storage of the
array they assign into.
-/

namespace ArrayTrace

/-- Why a value or a plan cannot be emitted. -/
inductive EmitObstacle
  | notMaterialized
  | targetNotScheduled
  | outputNotMaterialized
  | operandRank
  | inputCount (expected got : Nat)
  | notElementwise
deriving DecidableEq

/-- Why emission fails. -/
inductive EmitError
  | trace (e : TraceError)
  | selection (e : SelectionError)
  | invalidUnitName (name : String)
  | unsupported (node : String) (cause : EmitObstacle)
  | rawSchedule
deriving DecidableEq

/-- The obstacle in words. -/
def EmitObstacle.message : EmitObstacle → String
  | notMaterialized => "value is not materialized by an earlier item"
  | targetNotScheduled => "mutation target is not scheduled"
  | outputNotMaterialized => "output is not materialized"
  | operandRank => "matmul operand must be a vector or matrix"
  | inputCount expected got => s!"expected {expected} inputs, got {got}"
  | notElementwise => "not an elementwise operation"

/-- The error in words. -/
def EmitError.message : EmitError → String
  | trace e => e.message
  | selection e => e.message
  | invalidUnitName name => s!"Invalid unit name {Text.quoted name}: must be a C identifier"
  | unsupported node cause => s!"Cannot emit {node}: {cause.message}"
  | rawSchedule => "A raw schedule keeps unreachable nodes and is for inspection only"

/-- What an array of emitted code is for. -/
inductive Role
  | parameter
  /-- Working copy of a parameter that is assigned into. -/
  | workingCopy
  | state
  | constant
  | temporary
deriving DecidableEq

/-- An array of emitted code. -/
structure Storage where
  role : Role
  name : String
deriving DecidableEq

namespace Storage

/-- Name of the array. -/
def label (s : Storage) : String :=
  match s.role with
  | .parameter => "p_" ++ s.name
  | .workingCopy => "w_" ++ s.name
  | .state => "v_" ++ s.name
  | .constant => "c_" ++ s.name
  | .temporary => "t_" ++ s.name

/-- The array as an expression. Working copies, variables and temporaries belong to the
unit's state. -/
def expr (s : Storage) : C.Expr :=
  match s.role with
  | .parameter | .constant => .var s.label
  | .workingCopy | .state | .temporary => .state s.label

end Storage

/-- Storage of a node that has its own, where `assigned` are the arrays that some
assignment changes. -/
def Node.ownStorage? (n : Node) (assigned : List NodeId) : Option Storage :=
  match n.kind with
  | .placeholder => some ⟨if n.id ∈ assigned then .workingCopy else .parameter, n.name⟩
  | .state _ => some ⟨.state, n.name⟩
  | .constant _ => some ⟨.constant, n.name⟩
  | .apply .. => some ⟨.temporary, n.name⟩
  | .assign .. => none

/-- A trace together with the storage of the values that a plan computes. -/
structure EmitScope where
  trace : Trace
  storage : List (NodeId × Storage)

namespace EmitScope

/-- The node with an id. -/
def node (s : EmitScope) (id : NodeId) : Except EmitError Node :=
  (s.trace.node id).mapError .trace

/-- The array that holds the value of a node. -/
def array (s : EmitScope) (id : NodeId) : Except EmitError C.Expr :=
  match s.storage.lookup id with
  | some storage => .ok storage.expr
  | none =>
    let name := ((s.trace.node? id).map Node.name).getD id.describe
    .error (.unsupported name .notMaterialized)

/-- The only operand of a node. -/
def operand (s : EmitScope) (n : Node) (inputs : List NodeId) : Except EmitError Node := do
  match ← inputs.mapM s.node with
  | [a] => return a
  | _ => throw (.unsupported n.name (.inputCount 1 inputs.length))

/-- The two operands of a node. -/
def operands (s : EmitScope) (n : Node) (inputs : List NodeId) :
    Except EmitError (Node × Node) := do
  match ← inputs.mapM s.node with
  | [a, b] => return (a, b)
  | _ => throw (.unsupported n.name (.inputCount 2 inputs.length))

end EmitScope

end ArrayTrace
