import ArrayTrace.Proofs.Control
import ArrayTrace.Proofs.Scheduling

/-!
# Recording in place

A trace under construction is one object that every call changes in place: names are
taken, access logs extended and nodes appended step by step, and what a step has changed
stays changed when a later one fails. `Call.record` is each call as such a sequence of
steps. `exec_record` shows that it computes what `Trace.perform` says, and that a refused
call has changed nothing, because every check comes before the first change.
-/

namespace ArrayTrace

/-- Steps on a trace under construction. A failure ends them and undoes nothing. -/
abbrev Recorder := ExceptT TraceError (StateM Trace)

namespace Recorder
variable {α β : Type} {t : Trace}

/-- The result of the steps and the trace that they leave. -/
def exec (x : Recorder α) (t : Trace) : Except TraceError α × Trace := StateT.run (ExceptT.run x) t

/-- Look at the trace. -/
def view (f : Trace → α) : Recorder α := do return f (← get)

/-- Look at the trace, and fail if it is not as it has to be. -/
def check (f : Trace → Except TraceError α) : Recorder α := do liftExcept (f (← get))

/-- Change the trace. -/
def change (f : Trace → α × Trace) : Recorder α := modifyGet f

@[simp] theorem exec_pure (a : α) : exec (pure a) t = (.ok a, t) := rfl

theorem exec_bind (x : Recorder α) (f : α → Recorder β) :
    exec (x >>= f) t =
      match exec x t with
      | (.ok a, u) => exec (f a) u
      | (.error e, u) => (.error e, u) := by
  simp only [exec, ExceptT.run_bind, StateT.run_bind]
  rcases StateT.run (ExceptT.run x) t with ⟨_ | _, u⟩ <;> rfl

@[simp] theorem exec_view (f : Trace → α) : exec (view f) t = (.ok (f t), t) := rfl

@[simp] theorem exec_change (f : Trace → α × Trace) :
    exec (change f) t = (.ok (f t).1, (f t).2) := rfl

@[simp] theorem exec_check (f : Trace → Except TraceError α) : exec (check f) t = (f t, t) := by
  simp only [check, exec_bind]
  show exec (liftExcept (f t)) t = _
  cases f t <;> rfl

/-- A check before further steps. -/
theorem exec_check_bind (f : Trace → Except TraceError α) (g : α → Recorder β) :
    exec (check f >>= g) t =
      match f t with
      | .ok a => exec (g a) t
      | .error e => (.error e, t) := by
  rw [exec_bind, exec_check]
  cases f t <;> rfl

@[simp] theorem exec_mapM_check (f : β → Trace → Except TraceError α) (bs : List β) :
    exec (bs.mapM fun b => check (f b)) t = (bs.mapM fun b => f b t, t) := by
  induction bs with
  | nil => rfl
  | cons b bs ih =>
    rw [List.mapM_cons, List.mapM_cons, exec_check_bind]
    cases f b t with
    | error e => rfl
    | ok a =>
      simp only [exec_bind, ih]
      cases bs.mapM fun b => f b t <;> rfl

@[simp] theorem exec_forM_check (f : β → Trace → Except TraceError PUnit) (bs : List β) :
    exec (bs.forM fun b => check (f b)) t = (bs.forM fun b => f b t, t) := by
  induction bs with
  | nil => rfl
  | cons b bs ih =>
    simp only [List.forM_eq_forM, List.forM_cons, exec_check_bind] at ih ⊢
    cases f b t with
    | error e => rfl
    | ok a => exact ih

/-! ## The steps of the calls -/

/-- Record a read of an array and answer the assignment it has to wait for. -/
def logRead (reader : NodeId) (r : NodeId × Region) : Recorder (Option NodeId) :=
  change fun t => ((t.log r.1).lastWriter, t.setLog r.1 ((t.log r.1).read reader r.2))

/-- Record the reads of a node and answer the assignments it has to wait for. -/
def logReads (reader : NodeId) : List (NodeId × Region) → Recorder (List NodeId)
  | [] => return []
  | r :: rs => do
    let writer ← logRead reader r
    let writers ← logReads reader rs
    return writer.toList ++ writers

/-- Record an assignment to part of an array and answer the nodes it has to wait for. -/
def logWrite (writer target : NodeId) (region : Region) : Recorder (List NodeId) :=
  change fun t => ((t.log target).conflicts writer region,
    t.setLog target ((t.log target).write writer region))

/-- Take the next generated name of a stem. -/
def freshName (stem : String) : Recorder String :=
  change fun t => (Trace.numbered stem (t.freshNumber stem),
    t.setCounter stem (t.freshNumber stem))

/-- Append a node. -/
def push (name : String) (type : TensorType) (kind : NodeKind) (waits : List NodeId) :
    Recorder Unit :=
  change fun t => ((), (t.push name type kind waits).2)

theorem exec_logReads (reader : NodeId) (rs : List (NodeId × Region)) :
    exec (logReads reader rs) t =
      (.ok (t.recordReads reader rs).1, (t.recordReads reader rs).2) := by
  induction rs generalizing t with
  | nil => rfl
  | cons r rs ih =>
    simp only [logReads, logRead, exec_bind, exec_change, ih, exec_pure, Trace.recordReads]

end Recorder

open Recorder in
/-- A call as steps on the trace under construction. -/
def Call.record : Call → Recorder Unit
  | .placeholder name shape dtype => do
    check (Trace.checkName · name)
    push name ⟨shape, dtype⟩ .placeholder []
  | .state name initial => do
    check (Trace.checkName · name)
    push name initial.type (.state initial) []
  | .constant name value => do
    check (Trace.checkName · name)
    push name value.type (.constant value) []
  | .literal value => do
    let name ← freshName "const"
    push name value.type (.constant value) []
  | .apply op inputs => do
    let operands ← inputs.mapM fun id => check (Trace.node · id)
    let type ← check fun t =>
      (op.infer (operands.map Node.type) t.config.floatDType).mapError .infer
    let reads ← view fun t => t.readsOf (Trace.operandRegion op) inputs
    let writers ← logReads (← view Trace.nextId) reads
    let name ← freshName op.stem
    push name type (.apply op inputs) writers
  | .assign target selection value => do
    let targetNode ← check (Trace.node · target)
    let valueNode ← check (Trace.node · value)
    if !targetNode.isStorage then
      throw (.infer (.unsupported "Mutation"
        (.assignInto targetNode.kind.name targetNode.name)))
    let window ← check fun _ =>
      (selection.resolve targetNode.type.shape).mapError fun e => .infer (.selection e)
    if Shape.broadcast? [valueNode.type.shape, window.shape] ≠ some window.shape then
      throw (.infer (.shape "Mutation" (.assignedRegion valueNode.type.shape window.shape)))
    let id ← view Trace.nextId
    let reads ← view fun t => t.readsOf (fun _ s => some (Region.full s)) [value]
    let writers ← logReads id reads
    let earlier ← logWrite id target window.region
    let name ← freshName "assign"
    push name targetNode.type (.assign target selection value) (writers ++ earlier)
  | .markOutputs outputs => do
    outputs.forM fun id => check fun t => discard (t.node id)
    change fun t => ((), { t with outputs := outputs })

namespace Trace
open Recorder
variable {t t' : Trace}

/-- What a call leaves when it may be refused: a refusal leaves the trace as it was. -/
def settle (t : Trace) : Except TraceError Trace → Except TraceError Unit × Trace
  | .ok u => (.ok (), u)
  | .error e => (.error e, t)

theorem settle_perform (c : Call) :
    t.settle (t.perform c) = ((t.perform c).map fun _ => (), t.after c) := by
  simp only [after]
  cases t.perform c <;> rfl

section
variable {α β : Type} {x : Recorder α} {y : Except TraceError α} {g : α → Recorder Unit}
  {k : α → Except TraceError (β × Trace)}

/-- Steps that begin by looking at the trace leave what the rest of them leaves. -/
theorem exec_bind_settle (hx : exec x t = (y, t))
    (h : ∀ a, exec (g a) t = t.settle ((k a).map Prod.snd)) :
    exec (x >>= g) t = t.settle ((y >>= k).map Prod.snd) := by
  rw [exec_bind, hx]
  cases y with
  | error e => rfl
  | ok a => exact h a

/-- A test that refuses to go on leaves the trace alone. -/
theorem exec_unless_settle {p : Prop} [Decidable p] {e : TraceError} {g : Recorder Unit}
    {k : Except TraceError (β × Trace)} (h : exec g t = t.settle (k.map Prod.snd)) :
    exec (if p then throw e >>= fun _ : PUnit => g else g) t =
      t.settle ((if p then throw e >>= fun _ : PUnit => k else k).map Prod.snd) := by
  by_cases hp : p
  · rw [if_pos hp, if_pos hp]
    rfl
  · rw [if_neg hp, if_neg hp]
    exact h

end

theorem exec_record_apply (op : Op) (inputs : List NodeId) :
    exec (Call.apply op inputs).record t = t.settle ((t.apply op inputs).map Prod.snd) := by
  refine exec_bind_settle (exec_mapM_check _ inputs) fun operands => ?_
  refine exec_bind_settle (exec_check _) fun type => ?_
  simp only [exec_bind, exec_view, exec_logReads]
  rfl

theorem exec_record_assign (target : NodeId) (selection : Selection) (value : NodeId) :
    exec (Call.assign target selection value).record t =
      t.settle ((t.assign target selection value).map Prod.snd) := by
  refine exec_bind_settle (exec_check _) fun targetNode => ?_
  refine exec_bind_settle (exec_check _) fun valueNode => ?_
  refine exec_unless_settle ?_
  refine exec_bind_settle (exec_check _) fun window => ?_
  refine exec_unless_settle ?_
  simp only [exec_bind, exec_view, exec_logReads]
  rfl

/-- Recording a call in place does what the call is said to do. -/
theorem exec_record (c : Call) :
    exec c.record t = ((t.perform c).map fun _ => (), t.after c) := by
  rw [← settle_perform]
  cases c with
  | placeholder name shape dtype => exact exec_bind_settle (exec_check _) fun _ => rfl
  | state name initial => exact exec_bind_settle (exec_check _) fun _ => rfl
  | constant name value => exact exec_bind_settle (exec_check _) fun _ => rfl
  | literal value => rfl
  | apply op inputs => exact exec_record_apply op inputs
  | assign target selection value => exact exec_record_assign target selection value
  | markOutputs outputs =>
    simp only [Call.record, exec_bind, exec_forM_check, perform, Trace.markOutputs]
    cases outputs.forM fun id => discard (t.node id) <;> rfl

/-- A call that succeeds is performed. -/
theorem perform_of_record_eq_ok {c : Call} (h : (exec c.record t).1 = .ok ()) :
    t.perform c = .ok (exec c.record t).2 := by
  rw [exec_record] at h ⊢
  obtain ⟨u, hperform, -⟩ := Except.map_eq_ok.1 h
  rw [after, hperform]

/-- A call that is refused has changed nothing. -/
theorem record_of_eq_error {c : Call} {e : TraceError} (h : (exec c.record t).1 = .error e) :
    (exec c.record t).2 = t := by
  rw [exec_record] at h ⊢
  cases hperform : t.perform c with
  | ok u => simp [hperform, Except.map] at h
  | error e' => simp [after, hperform]

end Trace
end ArrayTrace
