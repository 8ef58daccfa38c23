import ArrayTrace.Op.Eval
import ArrayTrace.Program

/-!
# Machines

A machine is a program together with the values of its variables. A call binds the
arguments, runs the steps in order and keeps what assignments left in the variables;
a call that fails leaves them as they were. Assignments change the array they assign
into, and reading an assignment reads that array.
-/

namespace ArrayTrace

/-- Values of nodes. -/
structure Store where
  entries : List (NodeId × Tensor) := []

namespace Store

/-- The value of a node. -/
def get? (s : Store) (id : NodeId) : Option Tensor := s.entries.lookup id

/-- The store with one value changed or added. -/
def insert (s : Store) (id : NodeId) (value : Tensor) : Store :=
  ⟨(id, value) :: s.entries.filter fun e => e.1 ≠ id⟩

@[simp] theorem get?_insert_self (s : Store) (id : NodeId) (value : Tensor) :
    (s.insert id value).get? id = some value :=
  List.lookup_cons_self

theorem get?_insert_of_ne (s : Store) {id other : NodeId} (value : Tensor) (h : other ≠ id) :
    (s.insert id value).get? other = s.get? other := by
  obtain ⟨entries⟩ := s
  have hne : (other == id) = false := by simpa using h
  simp only [get?, insert, List.lookup_cons, hne]
  induction entries with
  | nil => rfl
  | cons e es ih =>
    obtain ⟨k, v⟩ := e
    by_cases hk : k = id
    · subst hk
      simpa [List.lookup_cons, hne] using ih
    · cases ho : other == k <;> simp_all [List.lookup_cons]

end Store

/-- Why a machine refuses a request or cannot finish a call. -/
inductive MachineError
  | argumentCount (expected got : Nat)
  | argumentMismatch (name : String) (expected got : TensorType)
  | unknownVariable (name : String)
  | eval (e : EvalError)
  /-- A value is read before it is there. -/
  | missingValue (id : NodeId)
  | missingNode (id : NodeId)
  | missingParameter (name : String)
deriving DecidableEq

/-- The error in words. -/
def MachineError.message : MachineError → String
  | argumentCount expected got => s!"Expected {expected} arguments, got {got}"
  | argumentMismatch name e g =>
    "Argument " ++ name ++ " must be " ++ e.dtype.name ++ " " ++ e.shape.describe ++
      ", got " ++ g.dtype.name ++ " " ++ g.shape.describe
  | unknownVariable name => "Unknown variable " ++ Text.quoted name
  | eval e => e.message
  | missingValue id => (EvalError.invalidInput s!"value of {id.describe} is not available").message
  | missingNode id =>
    (EvalError.invalidInput s!"node {id.describe} is not part of the program").message
  | missingParameter name =>
    (EvalError.invalidInput s!"parameter {name} is not part of the program").message

/-- A program and the values of its variables. -/
structure Machine where
  program : Program
  states : Store

namespace ArrayDecl

/-- Refuse a value of another type. -/
def check (p : ArrayDecl) (value : Tensor) : Except MachineError Unit :=
  if value.type = p.type then .ok ()
  else .error (.argumentMismatch p.name p.type value.type)

end ArrayDecl

namespace Signature

/-- Refuse arguments that are not what the parameters ask for. -/
def checkArguments (s : Signature) (args : List Tensor) : Except MachineError Unit := do
  if args.length ≠ s.parameters.length then
    throw (.argumentCount s.parameters.length args.length)
  (s.parameters.zip args).forM fun (p, a) => p.check a

end Signature

namespace Program

/-- The node with an id, or the refusal of an id that the program lacks. -/
def node (p : Program) (id : NodeId) : Except MachineError Node :=
  match p.node? id with
  | some n => .ok n
  | none => .error (.missingNode id)

/-- The node whose array holds the value of a node: an assignment's is the array it
assigns into. -/
def storage (p : Program) (id : NodeId) : NodeId :=
  ((p.node? id).bind Node.target?).getD id

/-- The value held under an id. -/
def lookup (values : Store) (id : NodeId) : Except MachineError Tensor :=
  match values.get? id with
  | some value => .ok value
  | none => .error (.missingValue id)

/-- The value of a node. -/
def read (p : Program) (values : Store) (id : NodeId) : Except MachineError Tensor :=
  lookup values (p.storage id)

/-- The store in which the arguments are bound to the placeholders of their names. -/
def bindArguments (p : Program) (args : List Tensor) : Except MachineError Store :=
  (p.signature.parameters.zip args).foldlM
    (fun values (decl, arg) =>
      match p.nodes.find? fun n => n.name = decl.name with
      | some n => return values.insert n.id arg
      | none => throw (.missingParameter decl.name))
    {}

section
variable [FloatProduct]

mutual

/-- The value of a kernel. -/
def evalKernel (p : Program) (values : Store) : Kernel → Except MachineError Tensor
  | .leaf id => p.read values id
  | .apply id op args => do
    let args ← p.evalKernels values args
    let node ← p.node id
    (op.eval args node.type).mapError .eval

/-- The values of a list of kernels. -/
def evalKernels (p : Program) (values : Store) : List Kernel → Except MachineError (List Tensor)
  | [] => return []
  | k :: ks => do
    let first ← p.evalKernel values k
    let rest ← p.evalKernels values ks
    return first :: rest

end

/-- The store after a node has been evaluated. -/
def evalNode (p : Program) (states values : Store) (n : Node) : Except MachineError Store :=
  match n.kind with
  | .placeholder => return values
  | .state _ => do return values.insert n.id (← lookup states n.id)
  | .constant value => return values.insert n.id value
  | .apply op inputs => do
    let args ← inputs.mapM (p.read values)
    return values.insert n.id (← (op.eval args n.type).mapError .eval)
  | .assign target selection value => do
    let current ← lookup values target
    let window ← (selection.resolve current.shape).mapError fun e => .eval (.infer (.selection e))
    let source ← p.read values value
    return values.insert target
      (← (current.assign window source).mapError fun e => .eval (.tensor e))

/-- The store after a step. -/
def evalStep (p : Program) (states values : Store) : Step → Except MachineError Store
  | .single id => do p.evalNode states values (← p.node id)
  | .fused root kernel => do return values.insert root (← p.evalKernel values kernel)

/-- The store after all steps. -/
def run (p : Program) (states : Store) (args : List Tensor) : Except MachineError Store := do
  let values ← p.bindArguments args
  p.plan.steps.foldlM (p.evalStep states) values

end

/-- Values of the variables before the first call. -/
def initialStates (p : Program) : Store :=
  p.nodes.foldl
    (fun s n =>
      match n.kind with
      | .state initial => s.insert n.id initial
      | _ => s)
    {}

/-- A machine whose variables have their initial values. -/
def start (p : Program) : Machine := ⟨p, p.initialStates⟩

end Program

namespace Machine

/-- How to call the machine. -/
def signature (m : Machine) : Signature := m.program.signature

/-- The node of a variable. -/
def stateId (m : Machine) (name : String) : Except MachineError NodeId :=
  match m.program.nodes.find? fun n => n.name = name ∧ n.kind matches .state _ with
  | some n => .ok n.id
  | none => .error (.unknownVariable name)

/-- The value of a variable. -/
def get (m : Machine) (name : String) : Except MachineError Tensor := do
  Program.lookup m.states (← m.stateId name)

/-- The machine with the value of a variable replaced by one of its declared type. -/
def set (m : Machine) (name : String) (value : Tensor) : Except MachineError Machine := do
  let id ← m.stateId name
  match m.signature.slot? name with
  | none => throw (.unknownVariable name)
  | some (_, decl) =>
    decl.check value
    return { m with states := m.states.insert id value }

/-- Run the program on arguments: the results, and the machine after the call. Results
and variables are taken after the last step. -/
def call [FloatProduct] (m : Machine) (args : List Tensor) :
    Except MachineError (List Tensor × Machine) := do
  m.signature.checkArguments args
  let values ← m.program.run m.states args
  let results ← m.program.plan.outputs.mapM (m.program.read values)
  let states : Store :=
    ⟨m.states.entries.map fun (id, old) => (id, (values.get? id).getD old)⟩
  return (results, { m with states })

end Machine

end ArrayTrace
