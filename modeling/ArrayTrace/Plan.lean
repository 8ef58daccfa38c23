import ArrayTrace.Kernel
import ArrayTrace.Schedule

/-!
# Plans

A plan groups the nodes of a schedule into steps. A step computes one node, or a
kernel into which single-use elementwise operations have been merged. An operation
is merged when it is read exactly once, by an elementwise operation, is no output
and takes part in no execution-order edge: then nobody sees that it is computed
later than scheduled.
-/

namespace ArrayTrace

/-- One unit of work. -/
inductive Step
  | single (id : NodeId)
  | fused (root : NodeId) (kernel : Kernel)

namespace Step

/-- The node whose value the step produces. -/
def root : Step → NodeId
  | single id => id
  | fused root _ => root

/-- The nodes the step evaluates, in order. -/
def evaluated : Step → List NodeId
  | single id => [id]
  | fused _ kernel => kernel.applied

end Step

/-- Steps in execution order, and the nodes whose values are the results. -/
structure Plan where
  steps : List Step
  outputs : List NodeId

namespace Plan

/-- Every node the steps evaluate, in order. -/
def evaluated (p : Plan) : List NodeId := p.steps.flatMap Step.evaluated

/-- One step per scheduled node. -/
def ofSchedule (s : Schedule) : Plan := ⟨s.nodes.map Step.single, s.outputs⟩

end Plan

namespace Trace

/-- The nodes of a schedule that read a node, once for each time they read it. -/
def readers (t : Trace) (s : Schedule) (id : NodeId) : List NodeId :=
  s.nodes.flatMap fun reader => ((t.inputs reader).filter (· = id)).map fun _ => reader

/-- Nodes at either end of an execution-order edge. -/
def constrained (t : Trace) : List NodeId :=
  (t.entries.filter fun e => !e.control.isEmpty).flatMap fun e => e.node.id :: e.control

/-- Scheduled nodes to be merged into the one node that reads them. -/
def merged (t : Trace) (s : Schedule) : List NodeId :=
  let constrained := t.constrained
  s.nodes.filter fun id =>
    t.isElementwise id && id ∉ s.outputs && id ∉ constrained &&
      match t.readers s id with
      | [reader] => t.isElementwise reader
      | _ => false

/-- The kernel of a node, with merged inputs expanded. Inputs have smaller numbers
than the nodes that read them, so the number of the node bounds the depth. -/
def kernel (t : Trace) (merged : List NodeId) : Nat → NodeId → Kernel
  | 0, id => .leaf id
  | depth + 1, id =>
    match (t.node? id).map Node.kind with
    | some (.apply op inputs) =>
      .apply id op (inputs.map fun i => if i ∈ merged then t.kernel merged depth i else .leaf i)
    | _ => .leaf id

/-- The plan that merges what can be merged. -/
def fuse (t : Trace) (s : Schedule) : Plan :=
  let merged := t.merged s
  let step (id : NodeId) : Step :=
    if t.isElementwise id && (t.inputs id).any (· ∈ merged) then
      .fused id (t.kernel merged (id.index + 1) id)
    else .single id
  ⟨(s.nodes.filter (· ∉ merged)).map step, s.outputs⟩

end Trace

end ArrayTrace
