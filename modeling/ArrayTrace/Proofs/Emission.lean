import ArrayTrace.Proofs.Fusion
import ArrayTrace.Proofs.Inference

/-!
# Emission never fails

The code of a step is written as soon as the step's node is one that the builder has
checked and the values it reads have storage: inference has fixed the number of operands
and the ranks that emission asks for again. In the plans of a schedule every value that a
step reads is the root of a step, so their units are always written.
-/

namespace ArrayTrace

namespace Trace
variable {t : Trace} {n : Node} {op : Op} {inputs : List NodeId}

/-- An operation has been checked on the types of its operands. -/
theorem WellFormed.operands (ht : t.WellFormed) (hn : n ∈ t.nodes)
    (hk : n.kind = .apply op inputs) :
    ∃ operands, List.Forall₂ (fun id x => t.node? id = some x) inputs operands ∧
      op.infer (operands.map Node.type) t.config.floatDType = .ok n.type := by
  have hadmits := ht.admits hn
  simpa only [Admits, hk] using hadmits

/-- The operand of an operation that takes one. -/
theorem WellFormed.operand (ht : t.WellFormed) (hn : n ∈ t.nodes)
    (hk : n.kind = .apply op inputs) (hcount : op.operandCount? = some 1) :
    ∃ x, inputs = [x.id] ∧ t.node? x.id = some x ∧
      op.infer [x.type] t.config.floatDType = .ok n.type := by
  obtain ⟨operands, hops, hinfer⟩ := ht.operands hn hk
  have hlen := Op.length_of_infer hinfer hcount
  rw [List.length_map] at hlen
  obtain ⟨x, rfl⟩ := List.length_eq_one_iff.1 hlen
  rcases hops with _ | ⟨hx, _ | _⟩
  obtain rfl := ht.id_of_node? hx
  exact ⟨x, rfl, hx, hinfer⟩

/-- The operands of an operation that takes two. -/
theorem WellFormed.operandPair (ht : t.WellFormed) (hn : n ∈ t.nodes)
    (hk : n.kind = .apply op inputs) (hcount : op.operandCount? = some 2) :
    ∃ x y, inputs = [x.id, y.id] ∧ t.node? x.id = some x ∧ t.node? y.id = some y ∧
      op.infer [x.type, y.type] t.config.floatDType = .ok n.type := by
  obtain ⟨operands, hops, hinfer⟩ := ht.operands hn hk
  have hlen := Op.length_of_infer hinfer hcount
  rw [List.length_map] at hlen
  obtain ⟨x, y, rfl⟩ := List.length_eq_two.1 hlen
  rcases hops with _ | ⟨hx, _ | ⟨hy, _ | _⟩⟩
  obtain rfl := ht.id_of_node? hx
  obtain rfl := ht.id_of_node? hy
  exact ⟨x, y, rfl, hx, hy, hinfer⟩

end Trace

namespace Emit

theorem operation?_isSome {op : Op} (helementwise : op.isElementwise = true)
    {args : List (C.Expr × DType)} (hlen : ∀ k, op.operandCount? = some k → args.length = k)
    (out : DType) : ∃ e, operation? op args out = some e := by
  have hargs := fun k hk => hlen k hk
  cases op with
  | binary b =>
    obtain ⟨x, y, rfl⟩ := List.length_eq_two.1 (hlen 2 rfl)
    exact ⟨_, rfl⟩
  | unary u =>
    obtain ⟨x, rfl⟩ := List.length_eq_one_iff.1 (hlen 1 rfl)
    exact ⟨_, rfl⟩
  | cast d =>
    obtain ⟨x, rfl⟩ := List.length_eq_one_iff.1 (hlen 1 rfl)
    exact ⟨_, rfl⟩
  | choose =>
    obtain ⟨c, x, y, rfl⟩ := List.length_eq_three.1 (hlen 3 rfl)
    exact ⟨_, rfl⟩
  | _ => cases helementwise

/-! ## Code of single nodes -/

section
variable {scope : EmitScope} {n x : Node} {id : NodeId} {inputs : List NodeId}

theorem node_of_node? (hx : scope.trace.node? id = some x) : scope.node id = .ok x := by
  rw [EmitScope.node, Trace.node_eq_ok.2 hx]
  rfl

theorem succeeds_node (hx : scope.trace.node? id = some x) : Succeeds (scope.node id) :=
  ⟨x, node_of_node? hx⟩

theorem nodes_of_forall₂ {operands : List Node}
    (h : List.Forall₂ (fun id x => scope.trace.node? id = some x) inputs operands) :
    inputs.mapM scope.node = .ok operands :=
  Except.mapM_eq_ok.2 (h.imp fun _ _ => node_of_node?)

theorem operand_eq (hx : scope.trace.node? id = some x) : scope.operand n [id] = .ok x := by
  rw [EmitScope.operand, nodes_of_forall₂ (.cons hx .nil)]
  rfl

theorem operands_eq {id' : NodeId} {y : Node} (hx : scope.trace.node? id = some x)
    (hy : scope.trace.node? id' = some y) : scope.operands n [id, id'] = .ok (x, y) := by
  rw [EmitScope.operands, nodes_of_forall₂ (.cons hx (.cons hy .nil))]
  rfl

theorem succeeds_kernelExprs {indices : List C.Expr} {ks : List Kernel}
    (h : ∀ k ∈ ks, Succeeds (kernelExpr scope indices k)) :
    ∃ es, kernelExprs scope indices ks = .ok es ∧ es.length = ks.length := by
  induction ks with
  | nil => exact ⟨[], rfl, rfl⟩
  | cons k ks ih =>
    obtain ⟨e, he⟩ := h k List.mem_cons_self
    obtain ⟨es, hes, hlen⟩ := ih fun k' hk' => h k' (List.mem_cons_of_mem _ hk')
    exact ⟨e :: es, by rw [kernelExprs, he]; simp [hes, bind, Except.bind, pure, Except.pure],
      by simp [hlen]⟩

theorem succeeds_describeAll {ks : List Kernel} (h : ∀ k ∈ ks, Succeeds (describe scope k)) :
    Succeeds (describeAll scope ks) := by
  induction ks with
  | nil => exact .pure []
  | cons k ks ih =>
    rw [describeAll]
    exact (h k List.mem_cons_self).bind fun _ _ =>
      (ih fun k' hk' => h k' (List.mem_cons_of_mem _ hk')).bind fun _ _ => .pure _

/-- A kernel whose expression and description can be written. -/
structure Writable (scope : EmitScope) (k : Kernel) : Prop where
  expr : ∀ indices, Succeeds (kernelExpr scope indices k)
  text : Succeeds (describe scope k)

theorem writable_leaf (hx : scope.trace.node? id = some x) (ha : Succeeds (scope.array id)) :
    Writable scope (.leaf id) where
  expr indices := by
    rw [kernelExpr]
    exact (succeeds_node hx).bind fun _ _ => ha.bind fun _ _ => .pure _
  text := by
    rw [describe]
    exact (succeeds_node hx).bind fun _ _ => .pure _

theorem writable_apply {op : Op} {ks : List Kernel} (hn : scope.trace.node? id = some n)
    (helementwise : op.isElementwise = true)
    (hlen : ∀ k, op.operandCount? = some k → ks.length = k)
    (hks : ∀ k ∈ ks, Writable scope k) : Writable scope (.apply id op ks) where
  expr indices := by
    obtain ⟨es, hes, hlen'⟩ := succeeds_kernelExprs fun k hk => (hks k hk).expr indices
    obtain ⟨e, he⟩ := operation?_isSome helementwise
      (fun k hk => hlen'.trans (hlen k hk)) n.type.dtype
    rw [kernelExpr, node_of_node? hn]
    simp only [bind, Except.bind, hes, he]
    exact .pure _
  text := by
    rw [describe]
    exact (succeeds_describeAll fun k hk => (hks k hk).text).bind fun _ _ => .pure _

theorem succeeds_kernel {k : Kernel} (hn : scope.trace.node? id = some n)
    (ha : Succeeds (scope.array id)) (hk : Writable scope k) : Succeeds (kernel scope id k) := by
  rw [kernel]
  exact (succeeds_node hn).bind fun _ _ => ha.bind fun _ _ =>
    (hk.expr _).bind fun _ _ => hk.text.bind fun _ _ => .pure _

theorem succeeds_concatParts {target : C.Expr} {axis start : Nat}
    (hnodes : ∀ i ∈ inputs, Succeeds (scope.node i))
    (harrays : ∀ i ∈ inputs, Succeeds (scope.array i)) :
    Succeeds (concatParts scope n target axis start inputs) := by
  induction inputs generalizing start with
  | nil => exact .pure _
  | cons i rest ih =>
    rw [concatParts]
    exact (hnodes i List.mem_cons_self).bind fun _ _ =>
      (harrays i List.mem_cons_self).bind fun _ _ =>
        (ih (fun j hj => hnodes j (List.mem_cons_of_mem _ hj))
          fun j hj => harrays j (List.mem_cons_of_mem _ hj)).bind fun _ _ => .pure _

theorem succeeds_stackParts {target : C.Expr} {k : Nat}
    (hnodes : ∀ i ∈ inputs, Succeeds (scope.node i))
    (harrays : ∀ i ∈ inputs, Succeeds (scope.array i)) :
    Succeeds (stackParts scope n target k inputs) := by
  induction inputs generalizing k with
  | nil => exact .pure _
  | cons i rest ih =>
    rw [stackParts]
    exact (hnodes i List.mem_cons_self).bind fun _ _ =>
      (harrays i List.mem_cons_self).bind fun _ _ =>
        (ih (fun j hj => hnodes j (List.mem_cons_of_mem _ hj))
          fun j hj => harrays j (List.mem_cons_of_mem _ hj)).bind fun _ _ => .pure _

section
variable {y : Node} {id' : NodeId} (hself : Succeeds (scope.array n.id))
  (hx : scope.trace.node? id = some x) (hsource : Succeeds (scope.array x.id))
include hself hx hsource

theorem succeeds_transpose : Succeeds (transpose scope n [id]) := by
  rw [transpose, operand_eq hx]
  exact .ok_bind (hself.bind fun _ _ => hsource.bind fun _ _ => .pure _)

theorem succeeds_slice {selection : Selection} {w : Window}
    (hw : selection.resolve x.type.shape = .ok w) : Succeeds (slice scope n selection [id]) := by
  rw [slice, operand_eq hx]
  refine .ok_bind ?_
  simp only [hw]
  exact .ok_bind (hself.bind fun _ _ => hsource.bind fun _ _ => .pure _)

theorem succeeds_sum : Succeeds (sum scope n [id]) := by
  rw [sum, operand_eq hx]
  exact .ok_bind (hself.bind fun _ _ => hsource.bind fun _ _ => .pure _)

theorem succeeds_norm (order : NormOrder) : Succeeds (norm scope n order [id]) := by
  rw [norm, operand_eq hx]
  exact .ok_bind (hself.bind fun _ _ => hsource.bind fun _ _ => .pure _)

variable (hy : scope.trace.node? id' = some y) (hsource' : Succeeds (scope.array y.id))
include hy hsource'

theorem succeeds_cross : Succeeds (cross scope n [id, id']) := by
  rw [cross, operands_eq hx hy]
  exact .ok_bind (hself.bind fun _ _ => hsource.bind fun _ _ => hsource'.bind fun _ _ => .pure _)

theorem succeeds_matmul {s : Shape} (hs : Op.matmulShape x.type.shape y.type.shape = .ok s) :
    Succeeds (matmul scope n [id, id']) := by
  obtain ⟨m, k, c, hleft, hright, -⟩ := Op.dims_of_matmulShape hs
  rw [matmul, operands_eq hx hy]
  refine .ok_bind ?_
  simp only [hleft, hright]
  exact hself.bind fun _ _ => hsource.bind fun _ _ => hsource'.bind fun _ _ => .pure _

end

/-- Code of a checked operation whose operands have storage. -/
theorem succeeds_emitApply {op : Op} (ht : scope.trace.WellFormed) (hn : n ∈ scope.trace.nodes)
    (hk : n.kind = .apply op inputs) (hself : Succeeds (scope.array n.id))
    (harrays : ∀ i ∈ inputs, Succeeds (scope.array i)) :
    Succeeds (Trace.emitApply scope n op inputs) := by
  obtain ⟨operands, hops, hinfer⟩ := ht.operands hn hk
  have hid := ht.node?_id hn
  have hnodes : ∀ i ∈ inputs, Succeeds (scope.node i) := fun i hi => by
    obtain ⟨x, -, hx⟩ := exists_of_forall₂ hops hi
    exact succeeds_node hx
  have hkernel : op.isElementwise = true →
      Succeeds (kernel scope n.id (.apply n.id op (inputs.map Kernel.leaf))) := by
    intro helementwise
    refine succeeds_kernel hid hself (writable_apply hid helementwise (fun k hcount => ?_) ?_)
    · rw [List.length_map, hops.length_eq]
      simpa using Op.length_of_infer hinfer hcount
    · intro k hk
      obtain ⟨i, hi, rfl⟩ := List.mem_map.1 hk
      obtain ⟨x, -, hx⟩ := exists_of_forall₂ hops hi
      exact writable_leaf hx (harrays i hi)
  cases op with
  | binary b => exact hkernel rfl
  | unary u => exact hkernel rfl
  | cast d => exact hkernel rfl
  | choose => exact hkernel rfl
  | matmul =>
    obtain ⟨x, y, rfl, hx, hy, hinfer⟩ := ht.operandPair hn hk rfl
    obtain ⟨s, hs, -⟩ := Op.infer_matmul_eq_ok hinfer
    exact succeeds_matmul hself hx (harrays _ (by simp)) hy (harrays _ (by simp)) hs
  | cross =>
    obtain ⟨x, y, rfl, hx, hy, -⟩ := ht.operandPair hn hk rfl
    exact succeeds_cross hself hx (harrays _ (by simp)) hy (harrays _ (by simp))
  | transpose =>
    obtain ⟨x, rfl, hx, -⟩ := ht.operand hn hk rfl
    exact succeeds_transpose hself hx (harrays _ List.mem_cons_self)
  | slice selection =>
    obtain ⟨i, x, w, rfl, hx, hw⟩ := (ht.admits hn).slice hk
    obtain rfl := ht.id_of_node? hx
    exact succeeds_slice hself hx (harrays _ List.mem_cons_self) hw
  | concat axis =>
    rw [Trace.emitApply, concat]
    exact hself.bind fun _ _ => (succeeds_concatParts hnodes harrays).bind fun _ _ => .pure _
  | stack =>
    rw [Trace.emitApply, stack]
    exact hself.bind fun _ _ => (succeeds_stackParts hnodes harrays).bind fun _ _ => .pure _
  | sum =>
    obtain ⟨x, rfl, hx, -⟩ := ht.operand hn hk rfl
    exact succeeds_sum hself hx (harrays _ List.mem_cons_self)
  | norm order =>
    obtain ⟨x, rfl, hx, -⟩ := ht.operand hn hk rfl
    exact succeeds_norm hself hx (harrays _ List.mem_cons_self) order

/-- Code of a node whose inputs have storage. -/
theorem succeeds_emitStep_single (ht : scope.trace.WellFormed)
    (hn : scope.trace.node? id = some n) (hself : Succeeds (scope.array id))
    (harrays : ∀ i ∈ n.inputs, Succeeds (scope.array i)) :
    Succeeds (Trace.emitStep scope (.single id)) := by
  have hmem := Trace.mem_of_node? hn
  obtain rfl := ht.id_of_node? hn
  rw [Trace.emitStep]
  refine (succeeds_node hn).bind fun n' hn' => ?_
  rw [node_of_node? hn] at hn'
  cases hn'
  cases hk : n.kind with
  | apply op inputs =>
    exact succeeds_emitApply ht hmem hk hself (by simpa [Node.inputs, hk] using harrays)
  | assign target selection value =>
    have hadmits := ht.admits hmem
    simp only [Trace.Admits, hk] at hadmits
    obtain ⟨x, v, w, hx, -, htype, hv, hw, -⟩ := hadmits
    rw [← htype] at hw
    show Succeeds (assign scope n target selection value)
    rw [assign, node_of_node? hx]
    refine .ok_bind ?_
    rw [node_of_node? hv]
    refine .ok_bind ?_
    simp only [hw]
    exact .ok_bind ((harrays target (by simp [Node.inputs, hk])).bind fun _ _ =>
      (harrays value (by simp [Node.inputs, hk])).bind fun _ _ => .pure _)
  | _ => exact .pure _

end
end Emit
end ArrayTrace
