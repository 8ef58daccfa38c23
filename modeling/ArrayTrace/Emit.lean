import ArrayTrace.Emit.Contraction
import ArrayTrace.Emit.Movement
import ArrayTrace.Signature

/-!
# Emitted units

The C unit of a plan: which arrays it keeps, in which order its arguments are
passed, and the code of every step. The unit depends on the plan and the nodes it
names only. Building it and running what was built are left out.
-/

namespace ArrayTrace

namespace Node

/-- The node as an array that crosses the boundary of a unit. -/
def decl (n : Node) : ArrayDecl := ⟨n.name, n.type⟩

/-- The array of the unit's state that holds the node. Arrays without elements get one
slot. -/
def member (n : Node) (role : Role) : C.Member :=
  ⟨n.type.dtype, (Storage.mk role n.name).label, max n.type.size 1⟩

end Node

/-- A written unit and how to call it. -/
structure EmittedUnit where
  source : String
  signature : Signature
deriving DecidableEq

namespace Trace

/-- The nodes of ids that must all be known. -/
def nodesOf (t : Trace) (ids : List NodeId) : Except EmitError (List Node) :=
  ids.mapM fun id => (t.node id).mapError .trace

/-- Nodes whose values the steps read, in order of use, then the outputs, then the
nodes that the steps produce. -/
def mentioned (t : Trace) (p : Plan) : List NodeId :=
  (p.steps.flatMap fun
    | .single id => t.inputs id
    | .fused _ kernel => kernel.leaves) ++ p.outputs ++ p.steps.map Step.root

/-- Placeholders in the order in which their values are first mentioned. -/
def parameters (t : Trace) (p : Plan) : Except EmitError (List Node) := do
  let nodes ← t.nodesOf (t.mentioned p)
  let placeholders := nodes.filter fun n => n.kind matches .placeholder
  return placeholders.foldl
    (fun acc n => if acc.any fun m => m.id = n.id then acc else acc ++ [n]) []

/-- Storage of the roots of a plan. Assignments take that of the array they assign
into, which must be among the roots. -/
def storageOf (roots : List Node) (assigned : List NodeId) :
    Except EmitError (List (NodeId × Storage)) := do
  let own := roots.filterMap fun n => (n.ownStorage? assigned).map fun s => (n.id, s)
  let shared ← roots.mapM fun n =>
    match n.target? with
    | none => return none
    | some target =>
      match own.lookup target with
      | some s => return some (n.id, s)
      | none => throw (.unsupported n.name .targetNotScheduled)
  return own ++ shared.filterMap fun s => s

/-- Code of an operation that is a step of its own. -/
def emitApply (scope : EmitScope) (node : Node) (op : Op) (inputs : List NodeId) :
    Except EmitError C.Stmt :=
  match op with
  | .binary _ | .unary _ | .cast _ | .choose =>
    Emit.kernel scope node.id (.apply node.id op (inputs.map Kernel.leaf))
  | .matmul => Emit.matmul scope node inputs
  | .cross => Emit.cross scope node inputs
  | .transpose => Emit.transpose scope node inputs
  | .slice s => Emit.slice scope node s inputs
  | .concat axis => Emit.concat scope node axis inputs
  | .stack => Emit.stack scope node inputs
  | .sum => Emit.sum scope node inputs
  | .norm order => Emit.norm scope node order inputs

/-- Code of a step. Placeholders, variables and constants need none. -/
def emitStep (scope : EmitScope) : Step → Except EmitError C.Stmt
  | .fused root k => Emit.kernel scope root k
  | .single id => do
    let node ← scope.node id
    match node.kind with
    | .placeholder | .state _ | .constant _ => return .skip
    | .apply op inputs => emitApply scope node op inputs
    | .assign target selection value => Emit.assign scope node target selection value

/-- Make the argument at a position available: by name, or as a working copy if some
assignment changes it. -/
def bindParameter (assigned : List NodeId) (n : Node) (position : Nat) : C.Stmt :=
  if n.id ∈ assigned then
    .copy (Storage.expr ⟨.workingCopy, n.name⟩) (.index (.var "args") (.num position))
      n.type.bytes
  else .bind n.type.dtype (Storage.label ⟨.parameter, n.name⟩) position

/-- The unit of a plan, and how to call it. -/
def unit (t : Trace) (p : Plan) (unitName : String) :
    Except EmitError (C.SourceFile × Signature) := do
  if !isIdentifier unitName then throw (.invalidUnitName unitName)
  let roots ← t.nodesOf (p.steps.map Step.root)
  let assigned := roots.filterMap Node.target?
  let parameters ← t.parameters p
  let storage ← storageOf roots assigned
  let outputs ← t.nodesOf p.outputs
  match outputs.find? fun n => (storage.lookup n.id).isNone with
  | some n => throw (.unsupported n.name .outputNotMaterialized)
  | none => pure ()
  let scope : EmitScope := ⟨t, storage⟩
  let states := roots.filter fun n => n.kind matches .state _
  let temporaries := roots.filter fun n => n.kind matches .apply ..
  let steps ← p.steps.mapM (emitStep scope)
  let results ← outputs.zipIdx.mapM fun (n, i) => do
    let source ← scope.array n.id
    return C.Stmt.copy (.index (.var "outs") (.num i)) source n.type.bytes
  let table (role : Role) (label : String) (n : Node) : Option C.Table :=
    match n.kind, role with
    | .constant value, .constant => some ⟨label ++ n.name, value⟩
    | .state initial, .state => some ⟨label ++ n.name, initial⟩
    | _, _ => none
  let copies := parameters.filter fun n => n.id ∈ assigned
  let unit : C.SourceFile :=
    { name := unitName
      constants := roots.filterMap (table .constant "c_")
      initials := roots.filterMap (table .state "i_")
      members := states.map (Node.member · .state) ++
        copies.map (Node.member · .workingCopy) ++ temporaries.map (Node.member · .temporary)
      states := states.map Node.name
      parameterCount := parameters.length
      outputCount := outputs.length
      body := .all (parameters.zipIdx.map (fun (n, i) => bindParameter assigned n i) ++
        steps ++ results) }
  let signature : Signature :=
    ⟨unitName, parameters.map Node.decl, outputs.map Node.decl, states.map Node.decl⟩
  return (unit, signature)

/-- The written unit of a plan. -/
def emit (t : Trace) (p : Plan) (unitName : String) : Except EmitError EmittedUnit := do
  let (unit, signature) ← t.unit p unitName
  return ⟨unit.render, signature⟩

end Trace

end ArrayTrace
