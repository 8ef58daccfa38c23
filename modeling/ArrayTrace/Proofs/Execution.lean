import ArrayTrace.Machine
import ArrayTrace.Proofs.Control
import ArrayTrace.Proofs.Windows
import Mathlib.Logic.Function.Basic

/-!
# Execution of single nodes

The nodes of a trace are executed one by one on a memory that holds the value of each
node, and of each array after the assignments made so far. `effect` is the memory that one
node leaves, and evaluating a node on a machine's store is the same thing.
-/

namespace ArrayTrace

/-- Values under ids. -/
abbrev Memory := NodeId → Option Tensor

/-- The node whose array a node's value goes to. -/
def Node.dest (n : Node) : NodeId := n.target?.getD n.id

/-! ## Looking up nodes by bisection -/

namespace NodeId

theorem before_irrefl (a : NodeId) : a.before a = false := by
  simp [before]

theorem before_asymm {a b : NodeId} (h : a.before b = true) : b.before a = false := by
  simp only [before, Bool.or_eq_true, Bool.and_eq_true, decide_eq_true_eq] at h
  simp only [before, Bool.or_eq_false_iff, Bool.and_eq_false_iff, decide_eq_false_iff_not]
  omega

end NodeId

namespace Program
variable {p : Program} {nodes : List Node} {id : NodeId} {n : Node}

/-- Whether the ids of nodes are strictly increasing. -/
def Increasing (nodes : List Node) : Prop := nodes.Pairwise fun a b => a.id.before b.id = true

/-- Halving keeps the sought position within the part that is left. -/
theorem position_eq (hs : Increasing nodes) {j : Nat} (hj : nodes[j]? = some n) :
    ∀ {fuel start count}, start ≤ j → j < start + count → start + count ≤ nodes.length →
      count ≤ fuel → position nodes n.id fuel start count = j := by
  intro fuel
  induction fuel with
  | zero => omega
  | succ fuel ih =>
    intro start count hle hlt hlen hfuel
    rw [position]
    split
    · omega
    · have hmid : start + count / 2 < nodes.length := by omega
      have hjlen : j < nodes.length := by omega
      obtain rfl : nodes[j] = n := by simpa [hjlen] using hj
      simp only [List.getElem?_eq_getElem hmid]
      have hpair := List.pairwise_iff_getElem.1 hs
      rcases Nat.lt_or_ge j (start + count / 2) with hjm | hjm
      · rw [if_pos (hpair j _ hjlen hmid hjm)]
        exact ih hle (by omega) (by omega) (by omega)
      · have hnot : (nodes[j]).id.before (nodes[start + count / 2]).id = false := by
          rcases Nat.eq_or_lt_of_le hjm with he | hgt
          · simp [he, NodeId.before_irrefl]
          · exact NodeId.before_asymm (hpair _ j hmid hjlen hgt)
        rw [if_neg (by simp [hnot])]
        exact ih hjm (by omega) (by omega) (by omega)

theorem node?_eq_some (hs : Increasing p.nodes) :
    p.node? id = some n ↔ n ∈ p.nodes ∧ n.id = id := by
  rw [node?, Option.filter_eq_some_iff, decide_eq_true_eq]
  constructor
  · rintro ⟨h, hid⟩
    exact ⟨List.mem_of_getElem? h, hid⟩
  · rintro ⟨hn, rfl⟩
    obtain ⟨j, hj⟩ := List.mem_iff_getElem?.1 hn
    have hlt : j < p.nodes.length := (List.getElem?_eq_some_iff.1 hj).1
    rw [position_eq hs hj (Nat.zero_le _) (by omega) (by omega) (Nat.le_refl _)]
    exact ⟨hj, rfl⟩

theorem id_of_node? (h : p.node? id = some n) : n.id = id := by
  rw [node?, Option.filter_eq_some_iff, decide_eq_true_eq] at h
  exact h.2

theorem mem_of_node? (h : p.node? id = some n) : n ∈ p.nodes := by
  rw [node?, Option.filter_eq_some_iff] at h
  exact List.mem_of_getElem? h.1

theorem node_eq_ok : p.node id = .ok n ↔ p.node? id = some n := by
  rw [node]
  cases p.node? id <;> simp

end Program

/-! ## Effects of nodes -/

namespace Trace
variable {t : Trace} {states μ ν : Memory} {n : Node} {id : NodeId}

/-- The node whose array holds the value of a node. -/
def home (t : Trace) (id : NodeId) : NodeId := ((t.node? id).bind Node.target?).getD id

section
variable [FloatProduct]

/-- What executing a node leaves in the array its value goes to, if it succeeds.
A placeholder leaves there what there is. -/
def outcome (t : Trace) (states μ : Memory) (n : Node) : Option (Option Tensor) :=
  match n.kind with
  | .placeholder => some (μ n.id)
  | .state _ => (states n.id).map some
  | .constant value => some (some value)
  | .apply op inputs => do
    let args ← inputs.mapM fun id => μ (t.home id)
    return some (← (op.eval args n.type).toOption)
  | .assign target selection value => do
    let current ← μ target
    let window ← (selection.resolve current.shape).toOption
    let source ← μ (t.home value)
    return some (← (current.assign window source).toOption)

/-- The memory after a node has been executed, if it succeeds. -/
def effect (t : Trace) (states μ : Memory) (n : Node) : Option Memory :=
  (t.outcome states μ n).map (Function.update μ n.dest)

/-- The memory after the nodes of a list have been executed one after the other. -/
def effects (t : Trace) (states : Memory) (μ : Memory) (ids : List NodeId) : Option Memory :=
  ids.foldlM (fun μ id => (t.node? id).bind (t.effect states μ)) μ

@[simp] theorem effects_nil : t.effects states μ [] = some μ := rfl

@[simp] theorem effects_cons {ids : List NodeId} :
    t.effects states μ (id :: ids) =
      ((t.node? id).bind (t.effect states μ)).bind fun ν => t.effects states ν ids := rfl

theorem effects_append {ids ids' : List NodeId} :
    t.effects states μ (ids ++ ids') =
      (t.effects states μ ids).bind fun ν => t.effects states ν ids' := by
  simp only [effects, List.foldlM_append]
  rfl

/-- A node changes nothing but the array its value goes to. -/
theorem effect_of_ne (h : t.effect states μ n = some ν) (hid : id ≠ n.dest) : ν id = μ id := by
  obtain ⟨v, -, rfl⟩ := Option.map_eq_some_iff.1 h
  exact Function.update_of_ne hid _ _

theorem effects_of_ne {ids : List NodeId} (h : t.effects states μ ids = some ν)
    (hid : ∀ x ∈ ids, ∀ n, t.node? x = some n → id ≠ n.dest) : ν id = μ id := by
  induction ids generalizing μ with
  | nil => rw [Option.some.inj h]
  | cons x ids ih =>
    obtain ⟨hx, hids⟩ := List.forall_mem_cons.1 hid
    obtain ⟨ν', hν', hrest⟩ := Option.bind_eq_some_iff.1 h
    obtain ⟨n, hn, heffect⟩ := Option.bind_eq_some_iff.1 hν'
    rw [ih hrest hids, effect_of_ne heffect (hx n hn)]

end

/-- The program that evaluates every node of a trace in creation order. -/
def whole (t : Trace) : Program where
  nodes := t.nodes
  plan := .ofSchedule ⟨t.nodes.map Node.id, t.outputs⟩
  unit := ⟨"", ⟨"", [], [], []⟩⟩

/-- Execute nodes one by one, as a machine does. -/
def execute [FloatProduct] (t : Trace) (states values : Store) (ids : List NodeId) :
    Except MachineError Store :=
  (ids.map Step.single).foldlM (t.whole.evalStep states) values

theorem WellFormed.increasing (h : t.WellFormed) : Program.Increasing t.nodes := by
  refine List.pairwise_iff_getElem.2 fun i j hi hj hij => ?_
  rw [h.id_of_getElem? (List.getElem?_eq_getElem hi),
    h.id_of_getElem? (List.getElem?_eq_getElem hj)]
  simp [NodeId.before, hij]

theorem WellFormed.node?_eq_some (h : t.WellFormed) :
    t.node? id = some n ↔ n ∈ t.nodes ∧ n.id = id := by
  constructor
  · exact fun hn => ⟨mem_of_node? hn, h.id_of_node? hn⟩
  · rintro ⟨hn, rfl⟩
    exact h.node?_id hn

theorem WellFormed.node?_whole (h : t.WellFormed) (id : NodeId) :
    t.whole.node? id = t.node? id :=
  Option.ext fun _ => (Program.node?_eq_some h.increasing).trans h.node?_eq_some.symm

/-! ## Machines compute effects -/

end Trace

theorem Store.get?_insert (s : Store) (id : NodeId) (value : Tensor) :
    (s.insert id value).get? = Function.update s.get? id (some value) := by
  funext other
  by_cases h : other = id
  · subst h
    simp
  · rw [Store.get?_insert_of_ne s value h, Function.update_of_ne h]

namespace Program
variable {p : Program} {t : Trace} {states values : Store} {id : NodeId} {n : Node}

theorem toOption_lookup (values : Store) (id : NodeId) :
    (lookup values id).toOption = values.get? id := by
  rw [lookup]
  cases values.get? id <;> rfl

theorem toOption_node (p : Program) (id : NodeId) : (p.node id).toOption = p.node? id := by
  rw [node]
  cases p.node? id <;> rfl

theorem toOption_read (values : Store) (h : p.node? id = t.node? id) :
    (p.read values id).toOption = values.get? (t.home id) := by
  rw [read, toOption_lookup, storage, Trace.home, h]

/-- Evaluating a node whose inputs the program knows as the trace does. -/
theorem toOption_evalNode [FloatProduct] (states values : Store)
    (h : ∀ i ∈ n.inputs, p.node? i = t.node? i) :
    (p.evalNode states values n).toOption.map Store.get? =
      t.effect states.get? values.get? n := by
  obtain ⟨id, name, type, kind⟩ := n
  cases kind with
  | placeholder =>
    simp [evalNode, Trace.effect, Trace.outcome, Node.dest, Node.target?]
  | state initial =>
    simp only [evalNode, Trace.effect, Trace.outcome, toOption_bind, toOption_lookup]
    cases states.get? id <;> simp [Store.get?_insert, Node.dest, Node.target?]
  | constant value =>
    simp [evalNode, Trace.effect, Trace.outcome, Store.get?_insert, Node.dest, Node.target?]
  | apply op inputs =>
    have hargs : (inputs.mapM (p.read values)).toOption =
        inputs.mapM fun id => values.get? (t.home id) := by
      rw [toOption_mapM]
      exact mapM_congr fun i hi => toOption_read values (h i hi)
    simp only [evalNode, Trace.effect, Trace.outcome, toOption_bind, hargs, toOption_mapError]
    cases inputs.mapM fun id => values.get? (t.home id) with
    | none => rfl
    | some args =>
      cases hv : (op.eval args type).toOption <;>
        simp [hv, Store.get?_insert, Node.dest, Node.target?]
  | assign target selection value =>
    have hvalue := toOption_read values (h value (by simp [Node.inputs]))
    simp only [evalNode, Trace.effect, Trace.outcome, toOption_bind, toOption_lookup,
      toOption_mapError, hvalue]
    cases values.get? target with
    | none => rfl
    | some current =>
      cases hw : (selection.resolve current.shape).toOption with
      | none => simp [hw]
      | some w =>
        cases values.get? (t.home value) with
        | none => simp
        | some source =>
          cases hy : (current.assign w source).toOption <;>
            simp [hw, hy, Store.get?_insert, Node.dest, Node.target?]

/-- Evaluating a node leaves its effect. -/
theorem exists_evalNode [FloatProduct] {μ : Memory} (h : ∀ i ∈ n.inputs, p.node? i = t.node? i)
    (heffect : t.effect states.get? values.get? n = some μ) :
    ∃ values', p.evalNode states values n = .ok values' ∧ values'.get? = μ := by
  rw [← toOption_evalNode states values h] at heffect
  obtain ⟨values', hvalues', hget⟩ := Option.map_eq_some_iff.1 heffect
  exact ⟨values', toOption_eq_some.1 hvalues', hget⟩

/-- Executing nodes one by one, by a program that knows them and their inputs as the trace
does. -/
theorem toOption_evalSteps [FloatProduct] (states values : Store) {ids : List NodeId}
    (h : ∀ id ∈ ids, p.node? id = t.node? id ∧ ∀ i ∈ t.inputs id, p.node? i = t.node? i) :
    ((ids.map Step.single).foldlM (p.evalStep states) values).toOption.map Store.get? =
      t.effects states.get? values.get? ids := by
  induction ids generalizing values with
  | nil => rfl
  | cons id ids ih =>
    obtain ⟨hid, hinputs⟩ := h id List.mem_cons_self
    rw [List.map_cons, List.foldlM_cons, toOption_bind, Trace.effects_cons, evalStep, toOption_bind,
      toOption_node, hid]
    cases hn : t.node? id with
    | none => rfl
    | some n =>
      rw [Trace.inputs_of_node? hn] at hinputs
      simp only [Option.bind_some]
      rw [← toOption_evalNode states values hinputs]
      cases (p.evalNode states values n).toOption with
      | none => rfl
      | some values' => exact ih values' fun id hid => h id (List.mem_cons_of_mem _ hid)

end Program

theorem Trace.WellFormed.toOption_execute [FloatProduct] {t : Trace} (h : t.WellFormed)
    (states values : Store) (ids : List NodeId) :
    (t.execute states values ids).toOption.map Store.get? =
      t.effects states.get? values.get? ids :=
  Program.toOption_evalSteps states values fun _ _ => ⟨h.node?_whole _, fun i _ => h.node?_whole i⟩

end ArrayTrace
