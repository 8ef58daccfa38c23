import ArrayTrace.Op.Infer
import ArrayTrace.Options
import ArrayTrace.Text.Quoted
import ArrayTrace.Trace.Access

/-!
# Traces

A trace records the nodes of one computation in creation order. Data edges live in
the nodes; the order in which reads and assignments of an array must happen is kept
beside them, derived from the access logs as nodes are added. A call that fails
leaves the trace as it was.
-/

namespace ArrayTrace

/-- Why a node cannot be recorded or found. -/
inductive TraceError
  | unknownNode (id : NodeId)
  | duplicateName (name : String)
  | invalidName (name : String)
  | infer (e : InferError)
deriving DecidableEq

/-- The error in words. -/
def TraceError.message : TraceError → String
  | unknownNode id => s!"Node {id.describe} is not part of this graph"
  | duplicateName name => s!"The name {Text.quoted name} is already in use"
  | invalidName name => s!"Invalid name {Text.quoted name}: names must be C identifiers"
  | infer e => e.message

/-- Whether a text is a C identifier. -/
def isIdentifier (s : String) : Bool :=
  match s.toList with
  | [] => false
  | c :: cs => (c.isAlpha || c = '_') && cs.all fun c => c.isAlphanum || c = '_'

/-- A node with the nodes it must run after, beyond its inputs, and the accesses to
the array it names. -/
structure Entry where
  node : Node
  control : List NodeId
  log : AccessLog := {}

/-- Everything recorded during one computation. -/
structure Trace where
  id : Nat
  config : TraceConfig := {}
  entries : List Entry := []
  /-- For each stem the number its next generated name is tried with first. -/
  counters : List (String × Nat) := []
  /-- Nodes marked as results. -/
  outputs : List NodeId := []

namespace Trace

/-! ## Reading a trace -/

/-- Number of nodes. -/
def size (t : Trace) : Nat := t.entries.length

/-- All nodes in creation order. -/
def nodes (t : Trace) : List Node := t.entries.map Entry.node

/-- The entry of an id of this trace. -/
def entry? (t : Trace) (id : NodeId) : Option Entry :=
  if id.context = t.id then t.entries[id.index]? else none

/-- The node with an id. -/
def node? (t : Trace) (id : NodeId) : Option Node := (t.entry? id).map Entry.node

/-- The node with an id, or the refusal of an id that is not of this trace. -/
def node (t : Trace) (id : NodeId) : Except TraceError Node :=
  match t.node? id with
  | some n => .ok n
  | none => .error (.unknownNode id)

/-- Whether an id is of this trace. -/
def contains (t : Trace) (id : NodeId) : Bool := (t.node? id).isSome

/-- Inputs of a node; an unknown node has none. -/
def inputs (t : Trace) (id : NodeId) : List NodeId :=
  ((t.node? id).map Node.inputs).getD []

/-- Nodes that a node must run after, beyond its inputs; an unknown node has none. -/
def control (t : Trace) (id : NodeId) : List NodeId :=
  ((t.entry? id).map Entry.control).getD []

/-- Everything a node waits for. -/
def predecessors (t : Trace) (id : NodeId) : List NodeId := t.inputs id ++ t.control id

/-- Whether a node applies an elementwise operation. -/
def isElementwise (t : Trace) (id : NodeId) : Bool := (t.node? id).any Node.isElementwise

/-- The node of a name. -/
def find? (t : Trace) (name : String) : Option NodeId :=
  (t.nodes.find? fun n => n.name = name).map Node.id

/-- Whether a name is taken. -/
def isTaken (t : Trace) (name : String) : Bool := t.nodes.any fun n => n.name = name

/-- The placeholder or state whose storage a node denotes. -/
def storage? (t : Trace) (id : NodeId) : Option NodeId :=
  (t.node? id).bind fun n => if n.isStorage then some id else n.target?

/-- Id of the node created next. -/
def nextId (t : Trace) : NodeId := ⟨t.id, t.size⟩

/-! ## Names -/

/-- A name that a caller may give to a new node. -/
def checkName (t : Trace) (name : String) : Except TraceError Unit :=
  if !isIdentifier name then .error (.invalidName name)
  else if t.isTaken name then .error (.duplicateName name)
  else .ok ()

/-- Generated name with a number. -/
def numbered (stem : String) (k : Nat) : String := stem ++ "_" ++ k.repr

/-- The first number from `k` on whose generated name is free. Among `fuel` numbers
one is, when there are fewer nodes than that. -/
def firstFree (t : Trace) (stem : String) : Nat → Nat → Nat
  | 0, k => k
  | fuel + 1, k => if t.isTaken (numbered stem k) then t.firstFree stem fuel (k + 1) else k

/-- Number of the next generated name of a stem. -/
def freshNumber (t : Trace) (stem : String) : Nat :=
  t.firstFree stem t.size ((t.counters.lookup stem).getD 0)

/-- Begin the search for the stem's next name after number `k`. -/
def setCounter (t : Trace) (stem : String) (k : Nat) : Trace :=
  { t with counters := (stem, k + 1) :: t.counters.filter fun c => c.1 ≠ stem }

/-! ## Recording -/

/-- Append a node. It waits for the listed nodes. -/
def push (t : Trace) (name : String) (type : TensorType) (kind : NodeKind)
    (waits : List NodeId) : NodeId × Trace :=
  let id := t.nextId
  let control := (NodeId.sorted waits).filter (· ≠ id)
  (id, { t with entries := t.entries ++ [⟨⟨id, name, type, kind⟩, control, {}⟩] })

/-- Append a node under a generated name. -/
def pushFresh (t : Trace) (stem : String) (type : TensorType) (kind : NodeKind)
    (waits : List NodeId) : NodeId × Trace :=
  let k := t.freshNumber stem
  (t.setCounter stem k).push (numbered stem k) type kind waits

/-- Accesses to the array of a storage node. -/
def log (t : Trace) (root : NodeId) : AccessLog :=
  ((t.entry? root).map Entry.log).getD {}

/-- Replace the access log of a storage node. -/
def setLog (t : Trace) (root : NodeId) (log : AccessLog) : Trace :=
  { t with entries := t.entries.modify root.index fun e => { e with log := log } }

/-- Record the reads of a node and collect the assignments it must run after. -/
def recordReads (t : Trace) (reader : NodeId) :
    List (NodeId × Region) → List NodeId × Trace
  | [] => ([], t)
  | (root, region) :: rest =>
    let log := t.log root
    let (writers, t) := (t.setLog root (log.read reader region)).recordReads reader rest
    (log.lastWriter.toList ++ writers, t)

/-- The arrays and regions that reading the given nodes touches, where `region` says
which part of the node at each position is read. -/
def readsOf (t : Trace) (region : Nat → Shape → Option Region) (inputs : List NodeId) :
    List (NodeId × Region) :=
  inputs.zipIdx.filterMap fun (input, position) => do
    let root ← t.storage? input
    let node ← t.node? input
    return (root, ← region position node.type.shape)

/-- Add an input that is supplied with every call. -/
def placeholder (t : Trace) (name : String) (shape : Shape) (dtype : DType) :
    Except TraceError (NodeId × Trace) := do
  t.checkName name
  return t.push name ⟨shape, dtype⟩ .placeholder []

/-- Add a state that is kept between calls. -/
def state (t : Trace) (name : String) (initial : Tensor) :
    Except TraceError (NodeId × Trace) := do
  t.checkName name
  return t.push name initial.type (.state initial) []

/-- Add a constant under a name. -/
def constant (t : Trace) (name : String) (value : Tensor) :
    Except TraceError (NodeId × Trace) := do
  t.checkName name
  return t.push name value.type (.constant value) []

/-- Add a constant under a generated name. -/
def literal (t : Trace) (value : Tensor) : NodeId × Trace :=
  t.pushFresh "const" value.type (.constant value) []

/-- The part of the operand at a position that an operation reads. -/
def operandRegion (op : Op) (position : Nat) (shape : Shape) : Option Region :=
  match op, position with
  | .slice s, 0 => (s.resolve shape).toOption.map Window.region
  | _, _ => some (Region.full shape)

/-- Add an operation over existing nodes. -/
def apply (t : Trace) (op : Op) (inputs : List NodeId) :
    Except TraceError (NodeId × Trace) := do
  let operands ← inputs.mapM t.node
  let type ← (op.infer (operands.map Node.type) t.config.floatDType).mapError .infer
  let (writers, t) := t.recordReads t.nextId (t.readsOf (operandRegion op) inputs)
  return t.pushFresh op.stem type (.apply op inputs) writers

/-- Add an assignment into part of a placeholder or state. The value must broadcast to
the selected part; it is converted to the array's element type when it is stored. -/
def assign (t : Trace) (target : NodeId) (selection : Selection) (value : NodeId) :
    Except TraceError (NodeId × Trace) := do
  let targetNode ← t.node target
  let valueNode ← t.node value
  if !targetNode.isStorage then
    throw (.infer (.unsupported "Mutation"
      (.assignInto targetNode.kind.name targetNode.name)))
  let window ← (selection.resolve targetNode.type.shape).mapError fun e => .infer (.selection e)
  let part := window.shape
  if Shape.broadcast? [valueNode.type.shape, part] ≠ some part then
    throw (.infer (.shape "Mutation" (.assignedRegion valueNode.type.shape part)))
  let id := t.nextId
  let (writers, t) :=
    t.recordReads id (t.readsOf (fun _ s => some (Region.full s)) [value])
  let log := t.log target
  let waits := writers ++ log.conflicts id window.region
  return (t.setLog target (log.write id window.region)).pushFresh "assign"
    targetNode.type (.assign target selection value) waits

/-- Mark the results, replacing any earlier ones. -/
def markOutputs (t : Trace) (outputs : List NodeId) : Except TraceError Trace := do
  outputs.forM fun id => discard (t.node id)
  return { t with outputs := outputs }

end Trace

end ArrayTrace
