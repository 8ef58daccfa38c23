import ArrayTrace.Schedule
import ArrayTrace.Serial.Node
import ArrayTrace.Serial.Pretty

/-!
# Diagrams

A description of a whole trace for inspection: every node in execution order and
every edge, as indented JSON or as a Graphviz drawing in which execution-order edges
are dashed.
-/

namespace ArrayTrace

/-- What an edge stands for. -/
inductive EdgeKind
  | data
  | control
deriving DecidableEq

/-- A described node. -/
structure DiagramNode where
  id : NodeId
  name : String
  kind : String
  /-- The operation or assignment, such as `Add` or `v[0:2] =`. -/
  label : Option String
  type : TensorType
  isOutput : Bool

/-- `source` runs before `target`. -/
structure DiagramEdge where
  source : NodeId
  target : NodeId
  kind : EdgeKind
deriving DecidableEq

/-- Nodes and edges of a trace. -/
structure Diagram where
  nodes : List DiagramNode
  edges : List DiagramEdge

/-- Why a trace cannot be described. -/
inductive DiagramError
  | trace (e : TraceError)
  | schedule (e : ScheduleError)
deriving DecidableEq

/-- The error in words. -/
def DiagramError.message : DiagramError → String
  | trace e => e.message
  | schedule e => e.message

namespace Trace

/-- What a node does, in words. -/
def label (t : Trace) (n : Node) : Except DiagramError (Option String) :=
  match n.kind with
  | .apply op _ => return some op.name
  | .assign target selection _ => do
    let array ← (t.node target).mapError .trace
    return some (array.name ++ selection.describe ++ " =")
  | _ => return none

/-- Edges into a node: its inputs, then the nodes it must run after. -/
def edgesInto (t : Trace) (n : Node) : List DiagramEdge :=
  n.inputs.map (⟨·, n.id, .data⟩) ++ (t.control n.id).map (⟨·, n.id, .control⟩)

/-- Describe the whole trace, also what the outputs do not need. -/
def diagram (t : Trace) (outputs : List NodeId) : Except DiagramError Diagram := do
  let order ← (t.schedule outputs true).mapError .schedule
  let nodes ← order.nodes.mapM fun id => (t.node id).mapError .trace
  let described ← nodes.mapM fun n => do
    return ⟨n.id, n.name, n.kind.name, ← t.label n, n.type, n.id ∈ outputs⟩
  return ⟨described, nodes.flatMap t.edgesInto⟩

end Trace

namespace EdgeKind

/-- Name of the kind. -/
def name : EdgeKind → String
  | data => "Data"
  | control => "Control"

end EdgeKind

namespace Diagram

/-- Serialized form. -/
def toJson (d : Diagram) : Json :=
  .obj
    [("nodes", .arr (d.nodes.map fun n => .obj
      [("id", n.id.toJson), ("name", .str n.name), ("kind", .str n.kind),
        ("label", (n.label.map Json.str).getD .null), ("shape", .nats n.type.shape),
        ("dtype", n.type.dtype.toJson), ("is_output", .bool n.isOutput)])),
      ("edges", .arr (d.edges.map fun e => .obj
        [("from", e.source.toJson), ("to", e.target.toJson), ("kind", .str e.kind.name)]))]

/-- Drawn outline of a node. -/
def outline (kind : String) : String :=
  match kind with
  | "placeholder" => "invhouse"
  | "variable" => "box3d"
  | "constant" => "note"
  | "mutation" => "diamond"
  | _ => "box"

/-- Drawn text of a node. -/
def caption (n : DiagramNode) : String :=
  let label := match n.label with
    | some l => "\\n" ++ l.replace "\"" "\\\""
    | none => ""
  n.name ++ label ++ "\\n" ++ n.type.dtype.name ++ " " ++ n.type.shape.describe

/-- Graphviz drawing. -/
def toDot (d : Diagram) : String :=
  let node (n : DiagramNode) : String :=
    "  n" ++ n.id.index.repr ++ " [shape=" ++ outline n.kind ++ ", peripheries=" ++
      (if n.isOutput then "2" else "1") ++ ", label=\"" ++ caption n ++ "\"];\n"
  let edge (e : DiagramEdge) : String :=
    "  n" ++ e.source.index.repr ++ " -> n" ++ e.target.index.repr ++ " [style=" ++
      (match e.kind with
        | .data => "solid"
        | .control => "dashed") ++ "];\n"
  "digraph trace \x7b\n  rankdir=TB;\n" ++ String.join (d.nodes.map node) ++
    String.join (d.edges.map edge) ++ "\x7d\n"

end Diagram

end ArrayTrace
