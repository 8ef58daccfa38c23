import ArrayTrace.Trace

/-!
# Schedules

A schedule lists the nodes that a set of outputs needs, each after everything it
waits for. For every node it is counted how many others it still waits for; a node
is ready when the count is down to zero. Of the nodes that are ready the earliest
comes first, so that equal traces have equal schedules.
-/

namespace ArrayTrace

/-- Why nodes cannot be ordered. -/
inductive ScheduleError
  | cycle (nodes : Nat)
  | unboundOutput (id : NodeId)
deriving DecidableEq

/-- The error in words. -/
def ScheduleError.message : ScheduleError → String
  | cycle n => s!"Dependency cycle among {n} nodes"
  | unboundOutput id => s!"Output {id.describe} is not part of this graph"

/-- Execution order of the nodes needed for the outputs. -/
structure Schedule where
  nodes : List NodeId
  outputs : List NodeId
deriving DecidableEq

/-- The orders in which collections without an order of their own are gone through: the set
of kept nodes, and the table of their counts. -/
structure Iteration where
  kept : List NodeId → List NodeId
  counted : List NodeId → List NodeId
  kept_perm : ∀ ids, (kept ids).Perm ids
  counted_perm : ∀ ids, (counted ids).Perm ids

/-- Going through everything in increasing order. -/
def Iteration.increasing : Iteration := ⟨id, id, .refl, .refl⟩

/-- The earliest of some nodes. -/
def NodeId.earliest? : List NodeId → Option NodeId
  | [] => none
  | id :: ids =>
    match earliest? ids with
    | some other => if other.before id then some other else some id
    | none => some id

/-- How far an ordering has come: how many nodes each kept node still waits for, and the
nodes that can be taken next, in no particular order. -/
structure Queue where
  degrees : List (NodeId × Nat)
  ready : List NodeId

/-- The queue after one of the nodes that `id` waits for has been taken. -/
def Queue.release (q : Queue) (id : NodeId) : Queue :=
  let degrees := q.degrees.map fun (other, degree) =>
    (other, if other = id then degree - 1 else degree)
  ⟨degrees, if degrees.lookup id = some 0 then id :: q.ready else q.ready⟩

namespace Trace

/-- Number of edges of the trace, which bounds how often a search can meet a node. -/
def edgeCount (t : Trace) : Nat :=
  t.nodes.foldr (fun n count => (t.predecessors n.id).length + count) 0

/-- Search backwards from the nodes on a stack; `seen` is kept in increasing order. -/
def collect (t : Trace) : Nat → List NodeId → List NodeId → List NodeId
  | 0, seen, _ => seen
  | _, seen, [] => seen
  | fuel + 1, seen, id :: stack =>
    if id ∈ seen then t.collect fuel seen stack
    else
      let found := NodeId.insert id seen
      t.collect fuel found ((t.predecessors id).filter (· ∉ found) ++ stack)

/-- Nodes the outputs need, over inputs and execution-order edges, in increasing
order. -/
def needed (t : Trace) (outputs : List NodeId) : List NodeId :=
  t.collect (outputs.length + t.edgeCount) [] outputs

/-- The nodes that a schedule of the outputs keeps, in increasing order. With `raw` all
nodes are kept. -/
def kept (t : Trace) (outputs : List NodeId) (raw : Bool) : List NodeId :=
  if raw then t.nodes.map Node.id else t.needed outputs

/-- The queue before any node has been taken. `counted` lists the kept nodes again, in the
order in which those without predecessors are looked for. -/
def queue (t : Trace) (kept counted : List NodeId) : Queue :=
  let degrees := kept.map fun id => (id, (NodeId.sorted (t.predecessors id)).length)
  ⟨degrees, counted.filter fun id => degrees.lookup id = some 0⟩

/-- The kept nodes that wait for a node. -/
def successors (t : Trace) (kept : List NodeId) (id : NodeId) : List NodeId :=
  kept.filter fun next => id ∈ t.predecessors next

/-- Take the earliest ready node again and again, until none is ready; `done` lists the nodes
taken before. Every kept node is taken once at most, so their number bounds the rounds. -/
def drain (t : Trace) (kept : List NodeId) : Nat → List NodeId → Queue → List NodeId
  | 0, done, _ => done
  | fuel + 1, done, q =>
    match NodeId.earliest? q.ready with
    | none => done
    | some id =>
      t.drain kept fuel (done ++ [id])
        ((t.successors kept id).foldl Queue.release { q with ready := q.ready.erase id })

/-- Order the kept nodes, each after its predecessors. -/
def order (t : Trace) (kept counted : List NodeId) : Except ScheduleError (List NodeId) :=
  let taken := t.drain kept kept.length [] (t.queue kept counted)
  if taken.length = kept.length then .ok taken
  else .error (.cycle (kept.length - taken.length))

/-- The schedule of a set of outputs. With `raw` every node of the trace is kept; such
a schedule is for inspection only. -/
def scheduleBy (t : Trace) (iteration : Iteration) (outputs : List NodeId) (raw : Bool) :
    Except ScheduleError Schedule :=
  match outputs.find? fun id => !t.contains id with
  | some id => .error (.unboundOutput id)
  | none => do
    let kept := iteration.kept (t.kept outputs raw)
    let nodes ← t.order kept (iteration.counted kept)
    return ⟨nodes, outputs⟩

/-- The schedule of a set of outputs. The iteration makes no difference to it. -/
def schedule (t : Trace) (outputs : List NodeId) (raw : Bool) : Except ScheduleError Schedule :=
  t.scheduleBy .increasing outputs raw

end Trace

end ArrayTrace
