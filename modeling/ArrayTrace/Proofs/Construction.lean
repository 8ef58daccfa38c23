import ArrayTrace.Trace
import ArrayTrace.Proofs.Outcome
import Mathlib.Data.List.Nodup
import Mathlib.Data.List.Perm.Subperm

/-!
# The construction of traces

Traces are built by calls that append one node each, mark outputs, or fail. This module
says once what a successful call does: `Adds` gives the new node, the nodes it waits for
and the access logs it leaves behind. Facts about all traces follow from it by
`Reachable.induction`.
-/

namespace ArrayTrace

/-- A request to a trace under construction. -/
inductive Call
  | placeholder (name : String) (shape : Shape) (dtype : DType)
  | state (name : String) (initial : Tensor)
  | constant (name : String) (value : Tensor)
  | literal (value : Tensor)
  | apply (op : Op) (inputs : List NodeId)
  | assign (target : NodeId) (selection : Selection) (value : NodeId)
  | markOutputs (outputs : List NodeId)

/-- The array and region that an assignment overwrites. -/
def Node.write? (n : Node) : Option (NodeId × Region) :=
  match n.kind with
  | .assign target selection _ =>
    (selection.resolve n.type.shape).toOption.map fun w => (target, w.region)
  | _ => none

namespace Trace
variable {t t' : Trace} {n : Node} {id root : NodeId}

/-- The trace after a call, or why the call is refused. -/
def perform (t : Trace) : Call → Except TraceError Trace
  | .placeholder name shape dtype => (t.placeholder name shape dtype).map Prod.snd
  | .state name initial => (t.state name initial).map Prod.snd
  | .constant name value => (t.constant name value).map Prod.snd
  | .literal value => .ok (t.literal value).2
  | .apply op inputs => (t.apply op inputs).map Prod.snd
  | .assign target selection value => (t.assign target selection value).map Prod.snd
  | .markOutputs outputs => t.markOutputs outputs

/-- The trace after a call that may have been refused: then nothing has changed. -/
def after (t : Trace) (c : Call) : Trace :=
  match t.perform c with
  | .ok t' => t'
  | .error _ => t

/-- Traces that some sequence of calls builds from nothing, refused calls included. -/
inductive Reachable : Trace → Prop
  | start (id : Nat) (config : TraceConfig) : Reachable { id, config }
  | call {t : Trace} (h : Reachable t) (c : Call) : Reachable (t.after c)

theorem Reachable.calls (h : t.Reachable) (cs : List Call) :
    (cs.foldl Trace.after t).Reachable := by
  induction cs generalizing t with
  | nil => exact h
  | cons c cs ih => exact ih (h.call c)

/-! ## What a node reads and waits for -/

/-- The arrays and regions that a node reads. An assignment reads its value; the array
it assigns into is not counted. -/
def reads (t : Trace) (n : Node) : List (NodeId × Region) :=
  match n.kind with
  | .apply op inputs => t.readsOf (operandRegion op) inputs
  | .assign _ _ value => t.readsOf (fun _ s => some (Region.full s)) [value]
  | _ => []

/-- The log of an array after the listed reads of one node. -/
def logRead (t : Trace) (reader : NodeId) (rs : List (NodeId × Region)) (root : NodeId) :
    AccessLog :=
  { lastWriter := (t.log root).lastWriter
    readers := (t.log root).readers ++ (rs.filter fun r => r.1 = root).map fun r => (reader, r.2) }

/-- The log of an array after a node has been recorded. -/
def logAfter (t : Trace) (n : Node) (root : NodeId) : AccessLog :=
  match n.write? with
  | some (target, region) =>
    if target = root then (t.logRead n.id (t.reads n) root).write n.id region
    else t.logRead n.id (t.reads n) root
  | none => t.logRead n.id (t.reads n) root

/-- The nodes that a node recorded next has to wait for. -/
def waits (t : Trace) (n : Node) : List NodeId :=
  ((t.reads n).flatMap fun r => (t.log r.1).lastWriter.toList) ++
    match n.write? with
    | some (target, region) => (t.logRead n.id (t.reads n) target).conflicts n.id region
    | none => []

theorem logAfter_of_write {region : Region} (h : n.write? = some (id, region)) :
    t.logAfter n root =
      if id = root then (t.logRead n.id (t.reads n) root).write n.id region
      else t.logRead n.id (t.reads n) root := by
  simp [logAfter, h]

theorem logAfter_of_no_write (h : n.write? = none) :
    t.logAfter n root = t.logRead n.id (t.reads n) root := by
  simp [logAfter, h]

/-- What the builder has checked of a node. -/
def Admits (t : Trace) (n : Node) : Prop :=
  match n.kind with
  | .placeholder => True
  | .state initial => n.type = initial.type
  | .constant value => n.type = value.type
  | .apply op inputs => ∃ operands,
      List.Forall₂ (fun id x => t.node? id = some x) inputs operands ∧
      op.infer (operands.map Node.type) t.config.floatDType = .ok n.type
  | .assign target selection value => ∃ x v w,
      t.node? target = some x ∧ x.isStorage ∧ x.type = n.type ∧ t.node? value = some v ∧
      selection.resolve n.type.shape = .ok w ∧
      Shape.broadcast? [v.type.shape, w.shape] = some w.shape

/-- `t'` is `t` with the node `n` recorded. -/
structure Adds (t t' : Trace) (n : Node) : Prop where
  id_eq : t'.id = t.id
  config_eq : t'.config = t.config
  nodes_eq : t'.nodes = t.nodes ++ [n]
  nextId_eq : n.id = t.nextId
  fresh : t.isTaken n.name = false
  admits : t.Admits n
  control_self : t'.control n.id = (NodeId.sorted (t.waits n)).filter (· ≠ n.id)
  control_of_ne : ∀ {id}, id ≠ n.id → t'.control id = t.control id
  log_eq : ∀ root, t'.log root = t.logAfter n root

/-! ## Ids of a trace -/

@[simp] theorem length_nodes : t.nodes.length = t.size := by
  simp [nodes, size]

theorem node?_eq : t.node? id = if id.context = t.id then t.nodes[id.index]? else none := by
  by_cases hc : id.context = t.id <;> simp [node?, entry?, nodes, hc]

theorem contains_iff : t.contains id ↔ id.context = t.id ∧ id.index < t.size := by
  by_cases hc : id.context = t.id <;> simp [contains, node?_eq, hc]

theorem entry?_nextId : t.entry? t.nextId = none := by
  simp [nextId, entry?, size]

/-- `u` has the nodes and edges of `t`; its access logs and counters may differ. -/
structure Relogged (t u : Trace) : Prop where
  id_eq : u.id = t.id
  config_eq : u.config = t.config
  nodes_eq : u.nodes = t.nodes
  control_eq : u.control = t.control

namespace Relogged
variable {u v : Trace}

theorem refl (t : Trace) : t.Relogged t := ⟨rfl, rfl, rfl, rfl⟩

theorem trans (h : t.Relogged u) (h' : u.Relogged v) : t.Relogged v :=
  ⟨h'.id_eq.trans h.id_eq, h'.config_eq.trans h.config_eq, h'.nodes_eq.trans h.nodes_eq,
    h'.control_eq.trans h.control_eq⟩

theorem nextId_eq (h : t.Relogged u) : u.nextId = t.nextId := by
  simp [nextId, h.id_eq, ← length_nodes, h.nodes_eq]

theorem contains_eq (h : t.Relogged u) : u.contains id = t.contains id := by
  simp [contains, node?_eq, h.id_eq, h.nodes_eq]

theorem isTaken_eq (h : t.Relogged u) (name : String) : u.isTaken name = t.isTaken name := by
  simp [isTaken, h.nodes_eq]

end Relogged

/-! ## Appending a node -/

section
variable {name : String} {type : TensorType} {kind : NodeKind} {ws : List NodeId}

theorem entry?_push_nextId :
    Trace.entry? (t.push name type kind ws).2 t.nextId =
      some ⟨⟨t.nextId, name, type, kind⟩, (NodeId.sorted ws).filter (· ≠ t.nextId), {}⟩ := by
  simp [push, entry?, nextId, size]

theorem entry?_push_of_ne (h : id ≠ t.nextId) :
    Trace.entry? (t.push name type kind ws).2 id = t.entry? id := by
  by_cases hc : id.context = t.id
  · have hi : id.index ≠ t.entries.length := fun hi =>
      h (by cases id; simp_all [nextId, size])
    rcases Nat.lt_or_gt_of_ne hi with hlt | hgt
    · simp [push, entry?, hc, List.getElem?_append_left hlt]
    · simp [push, entry?, hc, List.getElem?_append_right (Nat.le_of_lt hgt),
        List.getElem?_eq_none (Nat.le_of_lt hgt), Nat.sub_ne_zero_of_lt hgt]
  · simp [push, entry?, hc]

/-- Recording a node whose accesses have been logged in `u`. -/
theorem adds_push {u : Trace} (hu : t.Relogged u)
    (hlog : ∀ root, u.log root = t.logAfter ⟨t.nextId, name, type, kind⟩ root)
    (hws : ws = t.waits ⟨t.nextId, name, type, kind⟩) (hfresh : t.isTaken name = false)
    (hadmits : t.Admits ⟨t.nextId, name, type, kind⟩) :
    t.Adds (u.push name type kind ws).2 ⟨t.nextId, name, type, kind⟩ := by
  have hnext : u.nextId = t.nextId := hu.nextId_eq
  refine ⟨hu.id_eq, hu.config_eq, ?_, rfl, hfresh, hadmits, ?_, ?_, ?_⟩
  · rw [← hu.nodes_eq, ← hnext]
    simp [push, nodes]
  · subst hws
    rw [← hnext]
    simp [control, entry?_push_nextId]
  · intro id hne
    rw [← hu.control_eq]
    simp only [control]
    rw [entry?_push_of_ne (by rwa [hnext])]
  · intro root
    rw [← hlog]
    by_cases h : root = u.nextId
    · subst h
      simp [log, entry?_push_nextId, entry?_nextId]
    · simp only [log]
      rw [entry?_push_of_ne h]

end

/-! ## Logging accesses -/

theorem log_setLog_self {log : AccessLog} (h : t.contains root) :
    (t.setLog root log).log root = log := by
  obtain ⟨hc, hi⟩ := contains_iff.1 h
  have hi : root.index < t.entries.length := hi
  simp [Trace.log, setLog, entry?, hc, hi]

theorem log_setLog_of_ne {log : AccessLog} (h : t.contains root) (hne : id ≠ root) :
    (t.setLog root log).log id = t.log id := by
  by_cases hc : id.context = t.id
  · have hi : root.index ≠ id.index := by
      intro hi
      have hr := (contains_iff.1 h).1
      exact hne (by cases id; cases root; simp_all)
    simp [Trace.log, setLog, entry?, hc, hi]
  · simp [Trace.log, setLog, entry?, hc]

theorem relogged_setLog (root : NodeId) (log : AccessLog) : t.Relogged (t.setLog root log) where
  id_eq := rfl
  config_eq := rfl
  nodes_eq := by
    refine List.ext_getElem? fun i => ?_
    by_cases h : root.index = i <;>
      simp [nodes, setLog, h, Function.comp_def]
  control_eq := by
    funext id
    by_cases hc : id.context = t.id
    · by_cases h : root.index = id.index <;>
        simp [control, setLog, entry?, hc, h, Function.comp_def]
    · simp [control, setLog, entry?, hc]

theorem relogged_setCounter (stem : String) (k : Nat) : t.Relogged (t.setCounter stem k) :=
  ⟨rfl, rfl, rfl, rfl⟩

theorem relogged_recordReads (reader : NodeId) (rs : List (NodeId × Region)) :
    t.Relogged (t.recordReads reader rs).2 := by
  induction rs generalizing t with
  | nil => exact .refl t
  | cons r rs ih => exact (relogged_setLog r.1 _).trans ih

theorem log_recordReads (reader : NodeId) {rs : List (NodeId × Region)}
    (h : ∀ r ∈ rs, t.contains r.1) (root : NodeId) :
    (t.recordReads reader rs).2.log root = t.logRead reader rs root := by
  induction rs generalizing t with
  | nil => simp [recordReads, logRead]
  | cons r rs ih =>
    have hr := h r List.mem_cons_self
    have hu := relogged_setLog (t := t) r.1 ((t.log r.1).read reader r.2)
    simp only [recordReads]
    rw [ih fun x hx => hu.contains_eq ▸ h x (List.mem_cons_of_mem r hx)]
    by_cases hroot : r.1 = root
    · subst hroot
      simp [logRead, log_setLog_self hr]
    · simp [logRead, log_setLog_of_ne hr (Ne.symm hroot), hroot]

theorem writers_recordReads (reader : NodeId) {rs : List (NodeId × Region)}
    (h : ∀ r ∈ rs, t.contains r.1) :
    (t.recordReads reader rs).1 = rs.flatMap fun r => (t.log r.1).lastWriter.toList := by
  induction rs generalizing t with
  | nil => rfl
  | cons r rs ih =>
    have hr := h r List.mem_cons_self
    have hu := relogged_setLog (t := t) r.1 ((t.log r.1).read reader r.2)
    have hlast : ∀ x, ((t.setLog r.1 ((t.log r.1).read reader r.2)).log x).lastWriter =
        (t.log x).lastWriter := by
      intro x
      by_cases hx : x = r.1
      · subst hx; simp [log_setLog_self hr]
      · rw [log_setLog_of_ne hr hx]
    simp only [recordReads, List.flatMap_cons]
    rw [ih fun x hx => hu.contains_eq ▸ h x (List.mem_cons_of_mem r hx)]
    simp [hlast]

/-! ## Generated names -/

theorem isDigit_of_mem_repr {n : Nat} {c : Char} (h : c ∈ n.repr.toList) : c.isDigit = true := by
  rw [Nat.toList_repr] at h
  exact Nat.isDigit_of_mem_toDigits (by omega) (by omega) h

theorem repr_injective : Function.Injective Nat.repr := by
  intro j k h
  have hd : Nat.toDigits 10 j = Nat.toDigits 10 k := by
    rw [← Nat.toList_repr, ← Nat.toList_repr, h]
  rw [← Nat.ofDigitChars_toDigits (b := 10) (n := j) (by omega) (by omega), hd,
    Nat.ofDigitChars_toDigits (by omega) (by omega)]

theorem numbered_injective (stem : String) : Function.Injective (numbered stem) := by
  intro j k h
  exact repr_injective (by simpa [numbered, String.append_right_inj] using h)

/-- A search that ends at a taken name has met taken names only. -/
theorem isTaken_of_firstFree (stem : String) {fuel k : Nat}
    (h : t.isTaken (numbered stem (t.firstFree stem fuel k)) = true) :
    ∀ j, k ≤ j → j ≤ k + fuel → t.isTaken (numbered stem j) = true := by
  induction fuel generalizing k with
  | zero =>
    intro j hkj hjk
    obtain rfl : j = k := by omega
    simpa [firstFree] using h
  | succ fuel ih =>
    intro j hkj hjk
    by_cases htaken : t.isTaken (numbered stem k) = true
    · rw [firstFree, if_pos htaken] at h
      rcases Nat.eq_or_lt_of_le hkj with rfl | hlt
      · exact htaken
      · exact ih h j hlt (by omega)
    · rw [firstFree, if_neg htaken] at h
      exact absurd h htaken

/-- There are more numbers to try than nodes that could have taken the names. -/
theorem isTaken_freshNumber (stem : String) :
    t.isTaken (numbered stem (t.freshNumber stem)) = false := by
  by_contra h
  rw [Bool.not_eq_false] at h
  let k := (t.counters.lookup stem).getD 0
  let tried := (List.range (t.size + 1)).map fun j => numbered stem (k + j)
  have hnodup : tried.Nodup :=
    List.Nodup.map (fun i j hij => by simpa using numbered_injective stem hij) List.nodup_range
  have hsub : tried ⊆ t.nodes.map Node.name := by
    intro name hname
    obtain ⟨j, hj, rfl⟩ := List.mem_map.1 hname
    have := isTaken_of_firstFree stem h (k + j) (by omega) (by have := List.mem_range.1 hj; omega)
    simpa [isTaken] using this
  have hle := (hnodup.subperm hsub).length_le
  simp only [tried, List.length_map, List.length_range, length_nodes] at hle
  omega

/-! ## What a call does -/

/-- Every assignment of the trace has a target in it. -/
def TargetsKnown (t : Trace) : Prop :=
  ∀ n ∈ t.nodes, ∀ x, n.target? = some x → t.contains x

theorem mem_of_node? (h : t.node? id = some n) : n ∈ t.nodes := by
  rw [node?_eq] at h
  split at h
  · exact List.mem_of_getElem? h
  · cases h

theorem contains_of_node? (h : t.node? id = some n) : t.contains id := by
  simp [contains, h]

theorem contains_of_storage? (ht : t.TargetsKnown) (h : t.storage? id = some root) :
    t.contains root := by
  obtain ⟨n, hn, h⟩ := Option.bind_eq_some_iff.1 h
  split at h
  · cases h
    exact contains_of_node? hn
  · exact ht n (mem_of_node? hn) root h

theorem mem_readsOf {region : Nat → Shape → Option Region} {inputs : List NodeId}
    {r : NodeId × Region} :
    r ∈ t.readsOf region inputs ↔ ∃ i id x, inputs[i]? = some id ∧
      t.storage? id = some r.1 ∧ t.node? id = some x ∧ region i x.type.shape = some r.2 := by
  obtain ⟨root, region'⟩ := r
  simp only [readsOf, List.mem_filterMap, Prod.exists, List.mk_mem_zipIdx_iff_getElem?]
  constructor
  · rintro ⟨id, i, hi, h⟩
    obtain ⟨x, hx, h⟩ := Option.bind_eq_some_iff.1 h
    obtain ⟨y, hy, h⟩ := Option.bind_eq_some_iff.1 h
    obtain ⟨z, hz, h⟩ := Option.bind_eq_some_iff.1 h
    cases h
    exact ⟨i, id, y, hi, hx, hy, hz⟩
  · rintro ⟨i, id, x, hi, hs, hx, hr⟩
    exact ⟨id, i, hi, by simp [hs, hx, hr]⟩

theorem contains_of_mem_reads (ht : t.TargetsKnown) {r : NodeId × Region}
    (h : r ∈ t.reads n) : t.contains r.1 := by
  simp only [reads] at h
  split at h
  · obtain ⟨_, _, _, _, hs, _⟩ := mem_readsOf.1 h
    exact contains_of_storage? ht hs
  · obtain ⟨_, _, _, _, hs, _⟩ := mem_readsOf.1 h
    exact contains_of_storage? ht hs
  · cases h

theorem node_eq_ok {x : Node} : t.node id = .ok x ↔ t.node? id = some x := by
  simp only [node]
  split <;> simp_all

theorem checkName_eq_ok {name : String} (h : t.checkName name = .ok ()) :
    t.isTaken name = false := by
  simp only [checkName] at h
  split at h
  · cases h
  · split at h
    · cases h
    · simpa using ‹¬ t.isTaken name = true›

/-- A leaf accesses no array. -/
theorem adds_leaf {u : Trace} {name : String} {type : TensorType} (kind : NodeKind)
    (hadmits : t.Admits ⟨t.nextId, name, type, kind⟩)
    (hreads : t.reads ⟨t.nextId, name, type, kind⟩ = [])
    (hwrite : Node.write? ⟨t.nextId, name, type, kind⟩ = none)
    (hu : t.Relogged u) (hlog : u.log = t.log) (hfresh : t.isTaken name = false) :
    t.Adds (u.push name type kind []).2 ⟨t.nextId, name, type, kind⟩ := by
  refine adds_push hu (fun root => ?_) ?_ hfresh hadmits
  · simp [hlog, logAfter, hwrite, logRead, hreads]
  · simp [waits, hwrite, hreads]

theorem adds_apply (ht : t.TargetsKnown) {op : Op} {inputs : List NodeId}
    {r : NodeId × Trace} (h : t.apply op inputs = .ok r) : ∃ n, t.Adds r.2 n := by
  simp only [apply, Except.bind_eq_ok, Except.mapM_eq_ok, Except.mapError_eq_ok,
    node_eq_ok] at h
  obtain ⟨operands, hops, type, htype, h⟩ := h
  cases h
  let u := (t.recordReads t.nextId (t.readsOf (operandRegion op) inputs)).2
  let k := u.freshNumber op.stem
  let n : Node := ⟨t.nextId, numbered op.stem k, type, .apply op inputs⟩
  have hu : t.Relogged u := relogged_recordReads _ _
  have hknown : ∀ r ∈ t.readsOf (operandRegion op) inputs, t.contains r.1 :=
    fun r hr => contains_of_mem_reads (n := n) ht hr
  refine ⟨n, adds_push (hu.trans (relogged_setCounter _ k)) ?_ ?_ ?_ ⟨operands, hops, htype⟩⟩
  · exact fun root => log_recordReads t.nextId hknown root
  · simp only [waits, reads, Node.write?, List.append_nil]
    exact writers_recordReads t.nextId hknown
  · rw [← hu.isTaken_eq]
    exact isTaken_freshNumber op.stem

theorem adds_assign (ht : t.TargetsKnown) {target value : NodeId} {selection : Selection}
    {r : NodeId × Trace} (h : t.assign target selection value = .ok r) : ∃ n, t.Adds r.2 n := by
  simp only [assign] at h
  obtain ⟨x, hx, h⟩ := Except.bind_eq_ok.1 h
  obtain ⟨v, hv, h⟩ := Except.bind_eq_ok.1 h
  obtain ⟨hstorage, h⟩ := Except.unless_eq_ok.1 h
  obtain ⟨w, hw, h⟩ := Except.bind_eq_ok.1 h
  obtain ⟨hbroadcast, h⟩ := Except.unless_eq_ok.1 h
  cases h
  rw [node_eq_ok] at hx hv
  rw [Except.mapError_eq_ok] at hw
  let rs := t.readsOf (fun _ s => some (Region.full s)) [value]
  let u := (t.recordReads t.nextId rs).2
  let u' := u.setLog target ((u.log target).write t.nextId w.region)
  let k := u'.freshNumber "assign"
  let n : Node := ⟨t.nextId, numbered "assign" k, x.type, .assign target selection value⟩
  have hknown : ∀ r ∈ rs, t.contains r.1 := fun r hr => contains_of_mem_reads (n := n) ht hr
  have hu : t.Relogged u := relogged_recordReads _ _
  have hu' : t.Relogged u' := hu.trans (relogged_setLog _ _)
  have htarget : u.contains target := hu.contains_eq ▸ contains_of_node? hx
  have hlog : ∀ root, u.log root = t.logRead t.nextId rs root := log_recordReads _ hknown
  have hwrite : n.write? = some (target, w.region) := by simp [n, Node.write?, hw, Except.toOption]
  refine ⟨n, adds_push (hu'.trans (relogged_setCounter _ k)) (fun root => ?_) ?_ ?_ ?_⟩
  · show u'.log root = t.logAfter n root
    rw [logAfter_of_write hwrite]
    by_cases hroot : target = root
    · subst hroot
      rw [if_pos rfl, log_setLog_self htarget, hlog]
      rfl
    · rw [if_neg hroot, log_setLog_of_ne htarget (Ne.symm hroot), hlog]
      rfl
  · show _ = t.waits n
    rw [writers_recordReads _ hknown, waits, hwrite]
    show _ ++ (u.log target).conflicts t.nextId w.region = _
    rw [hlog]
    rfl
  · rw [← hu'.isTaken_eq]
    exact isTaken_freshNumber "assign"
  · exact ⟨x, v, w, hx, by simpa using hstorage, rfl, hv, hw, by simpa using hbroadcast⟩

/-- A call that succeeds records one node or marks known outputs. -/
theorem perform_cases (ht : t.TargetsKnown) {c : Call} (h : t.perform c = .ok t') :
    (∃ n, t.Adds t' n) ∨
      ∃ outputs, (∀ id ∈ outputs, t.contains id) ∧ t' = { t with outputs := outputs } := by
  cases c with
  | placeholder name shape dtype =>
    obtain ⟨r, hr, rfl⟩ := Except.map_eq_ok.1 h
    obtain ⟨_, hname, hr⟩ := Except.bind_eq_ok.1 hr
    cases hr
    exact .inl ⟨_, adds_leaf .placeholder trivial rfl rfl (.refl t) rfl (checkName_eq_ok hname)⟩
  | state name initial =>
    obtain ⟨r, hr, rfl⟩ := Except.map_eq_ok.1 h
    obtain ⟨_, hname, hr⟩ := Except.bind_eq_ok.1 hr
    cases hr
    exact .inl ⟨_, adds_leaf (.state initial) rfl rfl rfl (.refl t) rfl (checkName_eq_ok hname)⟩
  | constant name value =>
    obtain ⟨r, hr, rfl⟩ := Except.map_eq_ok.1 h
    obtain ⟨_, hname, hr⟩ := Except.bind_eq_ok.1 hr
    cases hr
    exact .inl ⟨_, adds_leaf (.constant value) rfl rfl rfl (.refl t) rfl (checkName_eq_ok hname)⟩
  | literal value =>
    cases h
    exact .inl ⟨_, adds_leaf (.constant value) rfl rfl rfl (relogged_setCounter _ _) rfl
      (isTaken_freshNumber _)⟩
  | apply op inputs =>
    obtain ⟨r, hr, rfl⟩ := Except.map_eq_ok.1 h
    exact .inl (adds_apply ht hr)
  | assign target selection value =>
    obtain ⟨r, hr, rfl⟩ := Except.map_eq_ok.1 h
    exact .inl (adds_assign ht hr)
  | markOutputs outputs =>
    obtain ⟨_, hknown, h⟩ := Except.bind_eq_ok.1 h
    cases h
    refine .inr ⟨outputs, fun id hid => ?_, rfl⟩
    obtain ⟨n, hn, -⟩ := Except.map_eq_ok.1 (Except.forM_eq_ok.1 hknown id hid)
    exact contains_of_node? (node_eq_ok.1 hn)

end Trace
end ArrayTrace
