import ArrayTrace.Serial.Tensor
import ArrayTrace.Trace.Node

/-!
# Serialized nodes
-/

namespace ArrayTrace

namespace NodeId

/-- Serialized form. -/
def toJson (id : NodeId) : Json :=
  .obj [("context", .int (Int.ofNat id.context)), ("index", .int (Int.ofNat id.index))]

/-- Read a serialized id. -/
def ofJson? (j : Json) : Option NodeId := do
  match ← j.fields? ["context", "index"] with
  | [context, index] => return ⟨← context.nat?, ← index.nat?⟩
  | _ => none

/-- Serialized form of a list of ids. -/
def listToJson (ids : List NodeId) : Json := .arr (ids.map toJson)

end NodeId

namespace NodeKind

/-- Serialized form. -/
def toJson : NodeKind → Json
  | placeholder => .str "Placeholder"
  | state initial => .tagged "Variable" (.obj [("initial", initial.toJson)])
  | constant value => .tagged "Constant" (.obj [("value", value.toJson)])
  | apply op inputs =>
    .tagged "Operation" (.obj [("op", op.toJson), ("inputs", NodeId.listToJson inputs)])
  | assign target selection value =>
    .tagged "Mutation" (.obj
      [("target", target.toJson), ("index", selection.toJson), ("value", value.toJson)])

/-- Read a serialized kind. -/
def ofJson? (j : Json) : Option NodeKind := do
  match ← j.variant? with
  | ("Placeholder", none) | ("Placeholder", some .null) => return placeholder
  | ("Variable", some content) =>
    match ← content.content? ["initial"] with
    | [initial] => return state (← Tensor.ofJson? initial)
    | _ => none
  | ("Constant", some content) =>
    match ← content.content? ["value"] with
    | [value] => return constant (← Tensor.ofJson? value)
    | _ => none
  | ("Operation", some content) =>
    match ← content.content? ["op", "inputs"] with
    | [op, inputs] => return apply (← Op.ofJson? op) (← inputs.list? NodeId.ofJson?)
    | _ => none
  | ("Mutation", some content) =>
    match ← content.content? ["target", "index", "value"] with
    | [target, selection, value] =>
      return assign (← NodeId.ofJson? target) (← Selection.ofJson? selection)
        (← NodeId.ofJson? value)
    | _ => none
  | _ => none

end NodeKind

namespace Node

/-- Serialized form. -/
def toJson (n : Node) : Json :=
  .obj [("id", n.id.toJson), ("name", .str n.name), ("info", n.type.toJson),
    ("kind", n.kind.toJson)]

/-- Read a serialized node. -/
def ofJson? (j : Json) : Option Node := do
  match ← j.fields? ["id", "name", "info", "kind"] with
  | [id, name, type, kind] =>
    return ⟨← NodeId.ofJson? id, ← name.str?, ← TensorType.ofJson? type, ← NodeKind.ofJson? kind⟩
  | _ => none

end Node

end ArrayTrace
