import ArrayTrace.Proofs.Construction
import Mathlib.Order.Monotone.Basic

/-!
# Renaming contexts

Ids carry the number of their trace. Replacing these numbers, in a trace and in all that
refers to it, changes nothing else: a call on the renamed trace gives the renamed result.
The new numbers must be ordered like the old ones, since ids are compared by trace first.
-/

namespace ArrayTrace

/-! ## Renamed results -/

section
universe u v
variable {ε ε' : Type u} {α α' β β' : Type v} {g : ε → ε'}

/-- A computation with its result and its error replaced. -/
def Except.bimap (f : α → α') (g : ε → ε') : Except ε α → Except ε' α'
  | .ok a => .ok (f a)
  | .error e => .error (g e)

theorem Except.bind_bimap {x : Except ε α} {x' : Except ε' α'} {k : α → Except ε β}
    {k' : α' → Except ε' β'} {f : α → α'} {f' : β → β'} (hx : x' = bimap f g x)
    (hk : ∀ a, k' (f a) = bimap f' g (k a)) : x' >>= k' = bimap f' g (x >>= k) := by
  subst hx
  cases x with
  | ok a => exact hk a
  | error e => rfl

theorem Except.mapM_bimap {k : α → Except ε β} {k' : α' → Except ε' β'} {r : α → α'}
    {f : β → β'} (hk : ∀ a, k' (r a) = bimap f g (k a)) (as : List α) :
    (as.map r).mapM k' = bimap (List.map f) g (as.mapM k) := by
  induction as with
  | nil => rfl
  | cons a as ih =>
    rw [List.map_cons, List.mapM_cons, List.mapM_cons]
    exact bind_bimap (hk a) fun b => bind_bimap ih fun bs => rfl

/-- Errors of a kind that a renaming does not change. -/
theorem Except.mapError_bimap {ε₀ : Type u} {c : ε₀ → ε} {g : ε → ε} (hc : ∀ x, g (c x) = c x)
    (x : Except ε₀ α) : x.mapError c = bimap (fun a => a) g (x.mapError c) := by
  cases x with
  | ok a => rfl
  | error e => exact congrArg Except.error (hc e).symm

theorem toOption_bimap (f : α → α') (g : ε → ε') (x : Except ε α) :
    (Except.bimap f g x).toOption = x.toOption.map f := by
  cases x <;> rfl

end

/-! ## Renaming -/

/-- The id of the same number in another trace. -/
def NodeId.rename (e : Nat → Nat) (id : NodeId) : NodeId := ⟨e id.context, id.index⟩

/-- A kind of node with all ids renamed. -/
def NodeKind.rename (e : Nat → Nat) : NodeKind → NodeKind
  | placeholder => placeholder
  | state initial => state initial
  | constant value => constant value
  | apply op inputs => apply op (inputs.map (NodeId.rename e))
  | assign target selection value => assign (target.rename e) selection (value.rename e)

/-- A node with all ids renamed. -/
def Node.rename (e : Nat → Nat) (n : Node) : Node :=
  ⟨n.id.rename e, n.name, n.type, n.kind.rename e⟩

/-- Pairs with their ids renamed. -/
def renameKeys {α : Type} (e : Nat → Nat) (rs : List (NodeId × α)) : List (NodeId × α) :=
  rs.map fun r => (r.1.rename e, r.2)

/-- Accesses with all ids renamed. -/
def AccessLog.rename (e : Nat → Nat) (log : AccessLog) : AccessLog where
  lastWriter := log.lastWriter.map (NodeId.rename e)
  readers := renameKeys e log.readers

/-- An entry with all ids renamed. -/
def Entry.rename (e : Nat → Nat) (x : Entry) : Entry :=
  ⟨x.node.rename e, x.control.map (NodeId.rename e), x.log.rename e⟩

/-- A trace with all ids renamed. -/
def Trace.rename (e : Nat → Nat) (t : Trace) : Trace where
  id := e t.id
  config := t.config
  entries := t.entries.map (Entry.rename e)
  counters := t.counters
  outputs := t.outputs.map (NodeId.rename e)

/-- A call with all ids renamed. -/
def Call.rename (e : Nat → Nat) : Call → Call
  | placeholder name shape dtype => placeholder name shape dtype
  | state name initial => state name initial
  | constant name value => constant name value
  | literal value => literal value
  | apply op inputs => apply op (inputs.map (NodeId.rename e))
  | assign target selection value => assign (target.rename e) selection (value.rename e)
  | markOutputs outputs => markOutputs (outputs.map (NodeId.rename e))

/-- An error with its id, if it has one, renamed. -/
def TraceError.rename (e : Nat → Nat) : TraceError → TraceError
  | unknownNode id => unknownNode (id.rename e)
  | duplicateName name => duplicateName name
  | invalidName name => invalidName name
  | infer error => infer error

variable {e : Nat → Nat}

/-! ## Ids -/

namespace NodeId
variable {a b id : NodeId} {ids : List NodeId} (he : StrictMono e)
include he

theorem rename_injective : Function.Injective (rename e) := by
  rintro ⟨context, index⟩ ⟨context', index'⟩ h
  obtain ⟨hcontext, hindex⟩ := NodeId.mk.inj h
  exact NodeId.mk.injEq .. ▸ ⟨he.injective hcontext, hindex⟩

theorem rename_inj : a.rename e = b.rename e ↔ a = b := (rename_injective he).eq_iff

theorem mem_map_rename : id.rename e ∈ ids.map (rename e) ↔ id ∈ ids :=
  List.mem_map_of_injective (rename_injective he)

theorem before_rename : (a.rename e).before (b.rename e) = a.before b := by
  have hlt : decide (e a.context < e b.context) = decide (a.context < b.context) :=
    decide_eq_decide.2 he.lt_iff_lt
  have heq : decide (e a.context = e b.context) = decide (a.context = b.context) :=
    decide_eq_decide.2 he.injective.eq_iff
  show (decide (e a.context < e b.context) ||
    (decide (e a.context = e b.context) && decide (a.index < b.index))) = _
  rw [hlt, heq]
  rfl

theorem insert_rename :
    insert (id.rename e) (ids.map (rename e)) = (insert id ids).map (rename e) := by
  induction ids with
  | nil => rfl
  | cons a ids ih =>
    simp only [List.map_cons, insert, rename_inj he, before_rename he, ih]
    split
    · rfl
    · split <;> rfl

theorem sorted_rename : sorted (ids.map (rename e)) = (sorted ids).map (rename e) := by
  induction ids with
  | nil => rfl
  | cons a ids ih =>
    show insert (a.rename e) (sorted (ids.map (rename e))) = _
    rw [ih, insert_rename he]
    rfl

theorem filter_ne_rename :
    (ids.map (rename e)).filter (· ≠ id.rename e) = (ids.filter (· ≠ id)).map (rename e) := by
  rw [List.filter_map]
  congr 1
  refine List.filter_congr fun a _ => ?_
  simp [rename_inj he]

end NodeId

/-! ## Nodes -/

namespace Node
variable {n : Node}

@[simp] theorem id_rename : (n.rename e).id = n.id.rename e := rfl

@[simp] theorem name_rename : (n.rename e).name = n.name := rfl

@[simp] theorem type_rename : (n.rename e).type = n.type := rfl

@[simp] theorem inputs_rename : (n.rename e).inputs = n.inputs.map (NodeId.rename e) := by
  obtain ⟨_, _, _, kind⟩ := n
  cases kind <;> rfl

@[simp] theorem target?_rename : (n.rename e).target? = n.target?.map (NodeId.rename e) := by
  obtain ⟨_, _, _, kind⟩ := n
  cases kind <;> rfl

@[simp] theorem isStorage_rename : (n.rename e).isStorage = n.isStorage := by
  obtain ⟨_, _, _, kind⟩ := n
  cases kind <;> rfl

@[simp] theorem isElementwise_rename : (n.rename e).isElementwise = n.isElementwise := by
  obtain ⟨_, _, _, kind⟩ := n
  cases kind <;> rfl

@[simp] theorem kindName_rename : (n.rename e).kind.name = n.kind.name := by
  obtain ⟨_, _, _, kind⟩ := n
  cases kind <;> rfl

end Node

/-! ## Access logs -/

namespace AccessLog
variable (log : AccessLog) (a : NodeId) (region : Region)

theorem read_rename :
    (log.rename e).read (a.rename e) region = (log.read a region).rename e := by
  simp [read, rename, renameKeys]

theorem write_rename :
    (log.rename e).write (a.rename e) region = (log.write a region).rename e := by
  simp [write, rename, renameKeys, List.filter_map, Function.comp_def]

theorem conflicts_rename (he : StrictMono e) :
    (log.rename e).conflicts (a.rename e) region =
      (log.conflicts a region).map (NodeId.rename e) := by
  have hreaders : (((log.rename e).readers.filter fun r => r.2.overlaps region).map Prod.fst) =
      ((log.readers.filter fun r => r.2.overlaps region).map Prod.fst).map (NodeId.rename e) := by
    simp [rename, renameKeys, List.filter_map, Function.comp_def]
  rw [conflicts, hreaders, NodeId.filter_ne_rename he]
  simp [conflicts, rename, Option.toList_map]

end AccessLog

/-! ## Traces -/

namespace Trace
variable {t : Trace} {a root : NodeId}

@[simp] theorem nodes_rename : (t.rename e).nodes = t.nodes.map (Node.rename e) := by
  simp [nodes, rename, Function.comp_def, Entry.rename]

@[simp] theorem isTaken_rename (name : String) : (t.rename e).isTaken name = t.isTaken name := by
  rw [isTaken, nodes_rename, List.any_map]
  rfl

@[simp] theorem nextId_rename : (t.rename e).nextId = t.nextId.rename e := by
  simp [nextId, NodeId.rename, rename, size]

theorem checkName_rename (name : String) :
    (t.rename e).checkName name =
      Except.bimap (fun u => u) (TraceError.rename e) (t.checkName name) := by
  rw [checkName, checkName, isTaken_rename]
  split
  · rfl
  · split <;> rfl

theorem freshNumber_rename (stem : String) :
    (t.rename e).freshNumber stem = t.freshNumber stem := by
  have hfree (fuel k : Nat) : (t.rename e).firstFree stem fuel k = t.firstFree stem fuel k := by
    induction fuel generalizing k with
    | zero => rfl
    | succ fuel ih => rw [firstFree, firstFree, isTaken_rename, ih]
  rw [freshNumber, freshNumber, hfree, ← length_nodes, ← length_nodes, nodes_rename,
    List.length_map]
  rfl

theorem setLog_rename (log : AccessLog) :
    (t.rename e).setLog (root.rename e) (log.rename e) = (t.setLog root log).rename e := by
  have hentries : (t.entries.map (Entry.rename e)).modify root.index
      (fun x => { x with log := log.rename e }) =
        (t.entries.modify root.index fun x => { x with log := log }).map (Entry.rename e) := by
    refine List.ext_getElem? fun i => ?_
    by_cases h : root.index = i <;> simp [h, Function.comp_def, Entry.rename]
  simp only [setLog, rename, NodeId.rename, hentries]

section
variable (he : StrictMono e)
include he

theorem entry?_rename :
    Trace.entry? (t.rename e) (a.rename e) = (t.entry? a).map (Entry.rename e) := by
  by_cases h : a.context = t.id
  · simp [rename, NodeId.rename, entry?, h]
  · simp [rename, NodeId.rename, entry?, h, he.injective.eq_iff]

theorem node?_rename : (t.rename e).node? (a.rename e) = (t.node? a).map (Node.rename e) := by
  rw [node?, entry?_rename he, Option.map_map, node?, Option.map_map]
  rfl

theorem node_rename :
    (t.rename e).node (a.rename e) =
      Except.bimap (Node.rename e) (TraceError.rename e) (t.node a) := by
  rw [node, node, node?_rename he]
  cases t.node? a <;> rfl

theorem contains_rename : (t.rename e).contains (a.rename e) = t.contains a := by
  rw [contains, node?_rename he, Option.isSome_map, contains]

theorem inputs_rename : (t.rename e).inputs (a.rename e) = (t.inputs a).map (NodeId.rename e) := by
  rw [inputs, node?_rename he, inputs]
  cases t.node? a <;> simp

theorem control_rename :
    (t.rename e).control (a.rename e) = (t.control a).map (NodeId.rename e) := by
  rw [control, entry?_rename he, control]
  cases t.entry? a <;> rfl

theorem isElementwise_rename : (t.rename e).isElementwise (a.rename e) = t.isElementwise a := by
  rw [isElementwise, node?_rename he, isElementwise]
  cases t.node? a <;> simp

theorem storage?_rename :
    (t.rename e).storage? (a.rename e) = (t.storage? a).map (NodeId.rename e) := by
  rw [storage?, node?_rename he, storage?]
  cases t.node? a with
  | none => rfl
  | some n =>
    simp only [Option.map_some, Option.bind_some, Node.isStorage_rename, Node.target?_rename]
    split <;> rfl

theorem log_rename : (t.rename e).log (root.rename e) = (t.log root).rename e := by
  rw [log, entry?_rename he, log]
  cases t.entry? root <;> rfl

theorem readsOf_rename (region : Nat → Shape → Option Region) (inputs : List NodeId) :
    (t.rename e).readsOf region (inputs.map (NodeId.rename e)) =
      renameKeys e (t.readsOf region inputs) := by
  rw [readsOf, List.zipIdx_map, List.filterMap_map, readsOf, renameKeys, List.map_filterMap]
  refine List.filterMap_congr fun r _ => ?_
  simp only [Function.comp_apply, Prod.map_fst, Prod.map_snd, storage?_rename he, node?_rename he]
  cases t.storage? r.1 with
  | none => rfl
  | some root =>
    cases t.node? r.1 with
    | none => rfl
    | some n =>
      show (region r.2 n.type.shape).bind _ = ((region r.2 n.type.shape).bind _).map _
      cases region r.2 n.type.shape <;> rfl

theorem recordReads_rename (reader : NodeId) (rs : List (NodeId × Region)) :
    (t.rename e).recordReads (reader.rename e) (renameKeys e rs) =
      Prod.map (List.map (NodeId.rename e)) (Trace.rename e) (t.recordReads reader rs) := by
  induction rs generalizing t with
  | nil => rfl
  | cons r rs ih =>
    rw [renameKeys] at ih
    simp only [renameKeys, List.map_cons, recordReads, log_rename he, AccessLog.read_rename,
      setLog_rename, ih]
    simp [AccessLog.rename, Option.toList_map]

theorem push_rename (name : String) (type : TensorType) (kind : NodeKind) (ws : List NodeId) :
    (t.rename e).push name type (kind.rename e) (ws.map (NodeId.rename e)) =
      Prod.map (NodeId.rename e) (Trace.rename e) (t.push name type kind ws) := by
  simp only [push, nextId_rename, NodeId.sorted_rename he, NodeId.filter_ne_rename he]
  simp [rename, Entry.rename, Node.rename, AccessLog.rename, renameKeys]

theorem pushFresh_rename (stem : String) (type : TensorType) (kind : NodeKind)
    (ws : List NodeId) :
    (t.rename e).pushFresh stem type (kind.rename e) (ws.map (NodeId.rename e)) =
      Prod.map (NodeId.rename e) (Trace.rename e) (t.pushFresh stem type kind ws) := by
  rw [pushFresh, freshNumber_rename]
  exact push_rename (t := t.setCounter stem _) he _ type kind ws

/-! ## Calls -/

theorem apply_rename (op : Op) (inputs : List NodeId) :
    (t.rename e).apply op (inputs.map (NodeId.rename e)) =
      Except.bimap (Prod.map (NodeId.rename e) (Trace.rename e)) (TraceError.rename e)
        (t.apply op inputs) := by
  refine Except.bind_bimap (Except.mapM_bimap (fun id => node_rename he) inputs) fun operands => ?_
  have htypes : (operands.map (Node.rename e)).map Node.type = operands.map Node.type := by
    simp [Function.comp_def]
  rw [htypes]
  refine Except.bind_bimap (Except.mapError_bimap (fun _ => by rfl) _) fun type => ?_
  simp only [nextId_rename, readsOf_rename he, recordReads_rename he]
  exact congrArg Except.ok (pushFresh_rename he op.stem type (.apply op inputs) _)

theorem assign_rename (target : NodeId) (selection : Selection) (value : NodeId) :
    (t.rename e).assign (target.rename e) selection (value.rename e) =
      Except.bimap (Prod.map (NodeId.rename e) (Trace.rename e)) (TraceError.rename e)
        (t.assign target selection value) := by
  refine Except.bind_bimap (node_rename he) fun x => ?_
  refine Except.bind_bimap (node_rename he) fun v => ?_
  rw [Node.isStorage_rename]
  cases x.isStorage with
  | false =>
    rw [Node.kindName_rename]
    rfl
  | true =>
    refine Except.bind_bimap (Except.mapError_bimap (fun _ => by rfl) _) fun w => ?_
    have hreads : (t.rename e).recordReads (t.nextId.rename e)
        ((t.rename e).readsOf (fun _ s => some (Region.full s)) [value.rename e]) =
        Prod.map (List.map (NodeId.rename e)) (Trace.rename e)
          (t.recordReads t.nextId (t.readsOf (fun _ s => some (Region.full s)) [value])) := by
      rw [← recordReads_rename he, ← readsOf_rename he, List.map_singleton]
    by_cases hpart : Shape.broadcast? [v.type.shape, w.shape] = some w.shape
    · simp only [Node.type_rename, hpart, ne_eq, not_true_eq_false, if_false, nextId_rename,
        hreads, Prod.map_fst, Prod.map_snd, log_rename he, AccessLog.write_rename,
        setLog_rename, AccessLog.conflicts_rename _ _ _ he, ← List.map_append]
      exact congrArg Except.ok
        (pushFresh_rename he "assign" x.type (.assign target selection value) _)
    · simp only [Node.type_rename, ne_eq, hpart, not_false_eq_true, if_true]
      rfl

theorem markOutputs_rename (outputs : List NodeId) :
    (t.rename e).markOutputs (outputs.map (NodeId.rename e)) =
      Except.bimap (Trace.rename e) (TraceError.rename e) (t.markOutputs outputs) := by
  refine Except.bind_bimap (f := fun u => u) ?_ fun _ => rfl
  induction outputs with
  | nil => rfl
  | cons a outputs ih =>
    refine Except.bind_bimap (f := fun u => u) ?_ fun _ => ih
    simp only [node_rename he]
    cases t.node a <;> rfl

/-- A call on a renamed trace gives the renamed result. -/
theorem perform_rename (c : Call) :
    (t.rename e).perform (c.rename e) =
      Except.bimap (Trace.rename e) (TraceError.rename e) (t.perform c) := by
  have hmap {x : Except TraceError (NodeId × Trace)} :
      (Except.bimap (Prod.map (NodeId.rename e) (Trace.rename e)) (TraceError.rename e) x).map
          Prod.snd =
        Except.bimap (Trace.rename e) (TraceError.rename e) (x.map Prod.snd) := by
    cases x <;> rfl
  have hnamed (name : String) (type : TensorType) (kind : NodeKind) :
      (do (t.rename e).checkName name
          return (t.rename e).push name type (kind.rename e) []) =
        Except.bimap (Prod.map (NodeId.rename e) (Trace.rename e)) (TraceError.rename e)
          (do t.checkName name
              return t.push name type kind []) :=
    Except.bind_bimap (checkName_rename name) fun _ =>
      congrArg Except.ok (push_rename he name type kind [])
  cases c with
  | placeholder name shape dtype =>
    exact (congrArg (Except.map Prod.snd) (hnamed name ⟨shape, dtype⟩ .placeholder)).trans hmap
  | state name initial =>
    exact (congrArg (Except.map Prod.snd) (hnamed name initial.type (.state initial))).trans hmap
  | constant name value =>
    exact (congrArg (Except.map Prod.snd) (hnamed name value.type (.constant value))).trans hmap
  | literal value =>
    exact congrArg (fun r => Except.ok (Prod.snd r))
      (pushFresh_rename he "const" value.type (.constant value) [])
  | apply op inputs =>
    exact (congrArg (Except.map Prod.snd) (apply_rename he op inputs)).trans hmap
  | assign target selection value =>
    exact (congrArg (Except.map Prod.snd) (assign_rename he target selection value)).trans hmap
  | markOutputs outputs => exact markOutputs_rename he outputs

theorem after_rename (c : Call) : (t.rename e).after (c.rename e) = (t.after c).rename e := by
  rw [after, perform_rename he, after]
  cases t.perform c <;> rfl

theorem Reachable.rename (ht : t.Reachable) : (t.rename e).Reachable := by
  induction ht with
  | start i config => exact .start (e i) config
  | call h c ih => exact after_rename he c ▸ ih.call (c.rename e)

end

end Trace

end ArrayTrace
