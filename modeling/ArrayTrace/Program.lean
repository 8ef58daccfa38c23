import ArrayTrace.Emit

/-!
# Programs

A program is everything needed to run a traced computation without the trace: the
nodes it evaluates, the plan, and the emitted unit.
-/

namespace ArrayTrace

/-- Why a trace cannot be compiled. -/
inductive CompileError
  | schedule (e : ScheduleError)
  | emit (e : EmitError)
deriving DecidableEq

/-- The error in words. -/
def CompileError.message : CompileError → String
  | schedule e => e.message
  | emit e => e.message

/-- A compiled computation. -/
structure Program where
  /-- Every node that the plan evaluates or reads, in increasing order. -/
  nodes : List Node
  plan : Plan
  unit : EmittedUnit

namespace Program

/-- Position at which an id would stand in the sorted nodes, found by halving the
`count` positions from `start` on. -/
def position (nodes : List Node) (id : NodeId) : Nat → Nat → Nat → Nat
  | 0, start, _ => start
  | fuel + 1, start, count =>
    if count ≤ 1 then start
    else
      let half := count / 2
      let middle := start + half
      let start := match nodes[middle]? with
        | some n => if id.before n.id then start else middle
        | none => start
      position nodes id fuel start (count - half)

/-- The node with an id, found by bisection. -/
def node? (p : Program) (id : NodeId) : Option Node :=
  (p.nodes[position p.nodes id p.nodes.length 0 p.nodes.length]?).filter fun n => n.id = id

/-- How to call the program. -/
def signature (p : Program) : Signature := p.unit.signature

/-- Number of steps that produce code. -/
def statementCount (p : Program) : Nat :=
  p.plan.steps.countP fun
    | .fused _ _ => true
    | .single id => (p.node? id).any fun n => !n.inputs.isEmpty

end Program

namespace Trace

/-- Compile the computation of a list of outputs. -/
def compile (t : Trace) (outputs : List NodeId) (options : CompileOptions) :
    Except CompileError Program := do
  if options.raw then throw (.emit .rawSchedule)
  let schedule ← (t.schedule outputs false).mapError .schedule
  let plan := if options.fuse then t.fuse schedule else Plan.ofSchedule schedule
  let unit ← (t.emit plan options.unitName).mapError .emit
  let nodes ← (t.nodesOf (NodeId.sorted schedule.nodes)).mapError .emit
  return ⟨nodes, plan, unit⟩

/-- Compile the computation of the marked outputs. -/
def compileMarked (t : Trace) (options : CompileOptions) : Except CompileError Program :=
  t.compile t.outputs options

end Trace

end ArrayTrace
