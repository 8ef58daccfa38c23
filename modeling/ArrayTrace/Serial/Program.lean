import ArrayTrace.Program
import ArrayTrace.Serial.Node

/-!
# Serialized schedules and programs

Reading a program checks its form only, not whether its parts fit together.
-/

namespace ArrayTrace

namespace Schedule

/-- Read a serialized schedule. -/
def ofJson? (j : Json) : Option Schedule := do
  match ← j.fields? ["nodes", "outputs"] with
  | [nodes, outputs] => return ⟨← nodes.list? NodeId.ofJson?, ← outputs.list? NodeId.ofJson?⟩
  | _ => none

end Schedule

namespace Kernel

mutual

/-- Serialized form. -/
def toJson : Kernel → Json
  | leaf id => .tagged "Leaf" id.toJson
  | apply node op args =>
    .tagged "Op" (.obj
      [("node", node.toJson), ("op", op.toJson), ("args", .arr (listToJson args))])

/-- Serialized forms of a list of kernels. -/
def listToJson : List Kernel → List Json
  | [] => []
  | k :: ks => k.toJson :: listToJson ks

end

/-- Read a serialized kernel of at most the given depth. -/
def ofJsonWithin? : Nat → Json → Option Kernel
  | 0, _ => none
  | depth + 1, j => do
    match ← j.variant? with
    | ("Leaf", some id) => return leaf (← NodeId.ofJson? id)
    | ("Op", some content) =>
      match ← content.content? ["node", "op", "args"] with
      | [node, op, args] =>
        return apply (← NodeId.ofJson? node) (← Op.ofJson? op)
          (← args.list? (ofJsonWithin? depth))
      | _ => none
    | _ => none

/-- Read a serialized kernel. -/
def ofJson? (j : Json) : Option Kernel := ofJsonWithin? (j.depth + 1) j

end Kernel

namespace Step

/-- Serialized form. -/
def toJson : Step → Json
  | single id => .tagged "Node" id.toJson
  | fused root kernel =>
    .tagged "Fused" (.obj [("root", root.toJson), ("tree", kernel.toJson)])

/-- Read a serialized step. -/
def ofJson? (j : Json) : Option Step := do
  match ← j.variant? with
  | ("Node", some id) => return single (← NodeId.ofJson? id)
  | ("Fused", some content) =>
    match ← content.fields? ["root", "tree"] with
    | [root, kernel] => return fused (← NodeId.ofJson? root) (← Kernel.ofJson? kernel)
    | _ => none
  | _ => none

end Step

namespace Plan

/-- Serialized form. -/
def toJson (p : Plan) : Json :=
  .obj [("items", .arr (p.steps.map Step.toJson)), ("outputs", NodeId.listToJson p.outputs)]

/-- Read a serialized plan. -/
def ofJson? (j : Json) : Option Plan := do
  match ← j.fields? ["items", "outputs"] with
  | [steps, outputs] => return ⟨← steps.list? Step.ofJson?, ← outputs.list? NodeId.ofJson?⟩
  | _ => none

end Plan

namespace ArrayDecl

/-- Serialized form. -/
def toJson (p : ArrayDecl) : Json :=
  .obj [("name", .str p.name), ("shape", .nats p.type.shape), ("dtype", p.type.dtype.toJson)]

/-- Read a serialized declaration. -/
def ofJson? (j : Json) : Option ArrayDecl := do
  match ← j.fields? ["name", "shape", "dtype"] with
  | [name, shape, dtype] =>
    return ⟨← name.str?, ← shape.list? Json.nat?, ← DType.ofJson? dtype⟩
  | _ => none

end ArrayDecl

namespace Signature

/-- Serialized form. -/
def toJson (s : Signature) : Json :=
  .obj [("unit_name", .str s.unitName), ("parameters", .arr (s.parameters.map ArrayDecl.toJson)),
    ("outputs", .arr (s.outputs.map ArrayDecl.toJson)),
    ("variables", .arr (s.states.map ArrayDecl.toJson))]

/-- Read a serialized signature. -/
def ofJson? (j : Json) : Option Signature := do
  match ← j.fields? ["unit_name", "parameters", "outputs", "variables"] with
  | [unitName, parameters, outputs, states] =>
    return ⟨← unitName.str?, ← parameters.list? ArrayDecl.ofJson?,
      ← outputs.list? ArrayDecl.ofJson?, ← states.list? ArrayDecl.ofJson?⟩
  | _ => none

end Signature

namespace EmittedUnit

/-- Serialized form. -/
def toJson (u : EmittedUnit) : Json :=
  .obj [("source", .str u.source), ("signature", u.signature.toJson)]

/-- Read a serialized unit. -/
def ofJson? (j : Json) : Option EmittedUnit := do
  match ← j.fields? ["source", "signature"] with
  | [source, signature] => return ⟨← source.str?, ← Signature.ofJson? signature⟩
  | _ => none

end EmittedUnit

namespace Program

/-- Serialized form. -/
def toJson (p : Program) : Json :=
  .obj [("nodes", .arr (p.nodes.map Node.toJson)), ("schedule", p.plan.toJson),
    ("module", p.unit.toJson)]

/-- Read a serialized program. -/
def ofJson? (j : Json) : Option Program := do
  match ← j.fields? ["nodes", "schedule", "module"] with
  | [nodes, plan, unit] =>
    return ⟨← nodes.list? Node.ofJson?, ← Plan.ofJson? plan, ← EmittedUnit.ofJson? unit⟩
  | _ => none

end Program

end ArrayTrace
