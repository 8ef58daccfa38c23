import ArrayTrace.Proofs.IntegerOperations
import ArrayTrace.Proofs.Pointwise

/-!
# Integer kernels

The text of an expression that a kernel over integers and Booleans becomes has the value that
the kernel has for one element, however deeply the operations are nested.

## Main definitions

* `Kernel.isIntegral` — kernels over integers and Booleans.
* `C.Surroundings.Offers` — where the elements of the leaves are to be read.
-/

namespace ArrayTrace
open C

variable {S : Surroundings}

/-- Whether the elements of a node are integers or Booleans. -/
def Trace.isIntegral (t : Trace) (id : NodeId) : Bool := (t.dtype? id).any fun d => !d.isFloat

namespace Kernel

mutual

/-- Whether the kernel is one over integers and Booleans, without remainders. -/
def isIntegral (t : Trace) : Kernel → Bool
  | leaf id => t.isIntegral id
  | apply id op args => t.isIntegral id && op.isIntegral && allIntegral t args

/-- Whether all kernels of a list are. -/
def allIntegral (t : Trace) : List Kernel → Bool
  | [] => true
  | k :: ks => isIntegral t k && allIntegral t ks

end

end Kernel

/-- Surroundings with the helper functions and with the elements that the leaves of a kernel
contribute, where its expression reads them. -/
structure C.Surroundings.Offers (S : Surroundings) (scope : EmitScope) (indices : List Expr)
    (leaf? : NodeId → Option Scalar) (k : Kernel) : Prop where
  function?_eq : S.function? = helper?
  element?_eq : ∀ id ∈ k.leaves, ∃ n array v, scope.trace.node? id = some n ∧
    scope.array id = .ok array ∧ leaf? id = some v ∧ v.dtype = n.type.dtype ∧
    S.element? array (Emit.broadcastLinear n.type.shape indices) = v.stored?

theorem C.Surroundings.Offers.arg {scope : EmitScope} {indices : List Expr}
    {leaf? : NodeId → Option Scalar} {id : NodeId} {op : Op} {args : List Kernel} {k : Kernel}
    (h : S.Offers scope indices leaf? (.apply id op args)) (hk : k ∈ args) :
    S.Offers scope indices leaf? k where
  function?_eq := h.function?_eq
  element?_eq i hi := h.element?_eq i (Kernel.mem_leavesAll.2 ⟨k, hk, hi⟩)

section
variable {scope : EmitScope} {indices : List Expr} {leaf? : NodeId → Option Scalar}

/-- An access to an array of integers or Booleans. -/
theorem represents_index {array position : Expr} {v : Scalar}
    (harray : array.IsArray ∧ array.Legible) (hposition : position.Legible)
    (hv : v.dtype.isFloat = false) (h : S.element? array position = v.stored?) :
    Represents S (.index array position) v := by
  obtain ⟨d, v⟩ := v
  refine ⟨rfl, ⟨harray.1, harray.2, hposition⟩, ?_⟩
  cases d with
  | i64 => exact ⟨by rw [Expr.eval?, h]; rfl, by rw [Expr.type?, h]; rfl⟩
  | bool => exact ⟨by rw [Expr.eval?, h]; rfl, .byte, by decide, by rw [Expr.type?, h]; rfl⟩
  | _ => cases hv

mutual

/-- The expression of a kernel stands for the value of the kernel. -/
theorem represents_kernelExpr (hnames : scope.Named) (hindices : ∀ e ∈ indices, Emit.IsOperand e) :
    (k : Kernel) → k.Typed scope.trace → k.isIntegral scope.trace = true →
      S.Offers scope indices leaf? k →
      ∃ e v, Emit.kernelExpr scope indices k = .ok (e, v.dtype) ∧
        scope.trace.dtype? k.root = some v.dtype ∧
        k.scalar? scope.trace.dtype? leaf? = some v ∧ Represents S e v
  | .leaf id, _, hintegral, hS => by
    obtain ⟨n, array, v, hn, harray, hleaf, hdtype, helement⟩ :=
      hS.element?_eq id List.mem_cons_self
    have hid : scope.trace.dtype? id = some v.dtype := by
      simp [Trace.dtype?, Trace.type?, hn, hdtype]
    have hfloat : v.dtype.isFloat = false := by
      simpa [Kernel.isIntegral, Trace.isIntegral, hid] using hintegral
    refine ⟨_, v, ?_, hid, hleaf, represents_index (hnames.legible_array harray)
      (Emit.legible_broadcastLinear hindices) hfloat helement⟩
    rw [Emit.kernelExpr, Emit.node_of_node? hn, hdtype]
    simp only [bind, Except.bind, harray]
    rfl
  | .apply id op args, ⟨_, hargs, type, types, htype, htypes, hinfer⟩, hintegral, hS => by
    simp only [Kernel.isIntegral, Bool.and_eq_true] at hintegral
    obtain ⟨⟨hid, hop⟩, hall⟩ := hintegral
    obtain ⟨es, vs, hes, hvs, hrepresents, hroots⟩ :=
      represents_kernelExprs hnames hindices args hargs hall fun k hk => hS.arg hk
    have hdtype : scope.trace.dtype? id = some type.dtype := by rw [Trace.dtype?, htype]; rfl
    have hfloat : type.dtype.isFloat = false := by simpa [Trace.isIntegral, hdtype] using hid
    have hdtypes : types.map TensorType.dtype = vs.map Scalar.dtype := by
      have hunique : Relator.RightUnique fun (k : Kernel) d =>
          scope.trace.dtype? k.root = some d :=
        fun _ _ _ h h' => Option.some.inj (h.symm.trans h')
      refine hunique.forall₂ (List.forall₂_map_right_iff.2 (htypes.imp fun k type hk => ?_))
        (List.forall₂_map_right_iff.2 hroots)
      rw [Trace.dtype?, hk]
      rfl
    obtain ⟨e, v, he, hv, hvdtype, hr⟩ :=
      represents_operation hS.function?_eq hop hrepresents hdtypes hinfer hfloat
    obtain ⟨n, hn, rfl⟩ := Option.map_eq_some_iff.1 htype
    refine ⟨e, v, ?_, hvdtype ▸ hdtype, ?_, hr⟩
    · rw [Emit.kernelExpr, Emit.node_of_node? hn]
      simp only [bind, Except.bind, hes, he, hvdtype]
      rfl
    · rw [Kernel.scalar?, hvs, hdtype]
      exact hv

/-- Likewise for the expressions of a list of kernels. -/
theorem represents_kernelExprs (hnames : scope.Named)
    (hindices : ∀ e ∈ indices, Emit.IsOperand e) :
    (ks : List Kernel) → Kernel.TypedAll scope.trace ks → Kernel.allIntegral scope.trace ks = true →
      (∀ k ∈ ks, S.Offers scope indices leaf? k) →
      ∃ es vs, Emit.kernelExprs scope indices ks = .ok es ∧
        Kernel.scalars? scope.trace.dtype? leaf? ks = some vs ∧
        List.Forall₂ (fun a v => a.2 = v.dtype ∧ Represents S a.1 v) es vs ∧
        List.Forall₂ (fun k v => scope.trace.dtype? k.root = some v.dtype) ks vs
  | [], _, _, _ => ⟨[], [], rfl, rfl, .nil, .nil⟩
  | k :: ks, ⟨hk, hks⟩, hall, hS => by
    obtain ⟨hintegral, hall⟩ := Bool.and_eq_true_iff.1 hall
    obtain ⟨hSk, hSks⟩ := List.forall_mem_cons.1 hS
    obtain ⟨e, v, he, hroot, hv, hr⟩ := represents_kernelExpr hnames hindices k hk hintegral hSk
    obtain ⟨es, vs, hes, hvs, hrs, hroots⟩ :=
      represents_kernelExprs hnames hindices ks hks hall hSks
    refine ⟨(e, v.dtype) :: es, v :: vs, ?_, ?_, .cons ⟨rfl, hr⟩ hrs, .cons hroot hroots⟩
    · rw [Emit.kernelExprs, he]
      simp only [bind, Except.bind, hes]
      rfl
    · rw [Kernel.scalars?, hv, hvs]
      rfl

end

/-- The number that a text evaluates to. -/
def C.Surroundings.evalText? (S : Surroundings) (text : String) : Option Int :=
  (read? text).bind (Expr.eval? S)

/-- The text written for a kernel over integers and Booleans evaluates to the value of the
kernel, stored as a number, which is 0 or 1 for a Boolean. Evaluating the kernel array by array
gives this value too, where the leaves have the elements that the text reads. -/
theorem evalText?_kernelExpr [FloatProduct] {k : Kernel} {rank : Nat} (hnames : scope.Named)
    (hk : k.Typed scope.trace) (hintegral : k.isIntegral scope.trace = true)
    (hS : S.Offers scope (Emit.counters rank) leaf? k) :
    ∃ e v x, Emit.kernelExpr scope (Emit.counters rank) k = .ok (e, v.dtype) ∧
      scope.trace.dtype? k.root = some v.dtype ∧
      k.scalar? scope.trace.dtype? leaf? = some v ∧ v.stored? = some x ∧
      S.evalText? e.render = some x.n ∧ (v.dtype = .bool → x.n = 0 ∨ x.n = 1) ∧
      ∀ p values r ix, scope.trace.Supplies p values k → p.evalKernel values k = .ok r →
        r.shape.InBounds ix → (∀ id ∈ k.leaves, leaf? id = p.projected? values ix id) →
        r.get ix = v := by
  obtain ⟨e, v, he, hroot, hv, hr⟩ := represents_kernelExpr hnames
    (fun _ => Emit.isOperand_counters) k hk hintegral hS
  obtain ⟨x, hx, hbool⟩ : ∃ x, v.stored? = some x ∧ (v.dtype = .bool → x.n = 0 ∨ x.n = 1) := by
    obtain ⟨d, v⟩ := v
    cases d with
    | i64 => exact ⟨_, rfl, fun hbool => by cases hbool⟩
    | bool => exact ⟨_, rfl, fun _ => by cases v <;> simp [truth]⟩
    | _ => cases hr.holds
  refine ⟨e, v, x, he, hroot, hv, hx, ?_, hbool, fun p values r ix hp heval hix hleaves => ?_⟩
  · rw [C.Surroundings.evalText?, Expr.read?_render hr.legible, Option.bind_some,
      hr.holds.eval?_eq, hx]
    rfl
  · have hget := (evalKernel_get hix k hk hp heval).2 (Shape.spreadsTo_refl _)
    rw [← Kernel.scalar?_congr k hleaves, hv, Shape.project_self hix] at hget
    exact (Option.some.inj hget).symm

/-- Whether a number is less than the larger one of its opposite and a Boolean. -/
def guarded : Trace :=
  [Call.placeholder "x" [2] .i64, .placeholder "y" [2] .bool,
    .apply (.unary .neg) [⟨0, 0⟩], .apply (.binary .max) [⟨0, 2⟩, ⟨0, 1⟩],
    .apply (.binary .less) [⟨0, 0⟩, ⟨0, 3⟩],
    .apply (.binary .and) [⟨0, 4⟩, ⟨0, 1⟩]].foldl Trace.after { id := 0 }

/-- The last node of its fused plan. -/
def guardedKernel : Kernel :=
  .apply ⟨0, 5⟩ (.binary .and)
    [.apply ⟨0, 4⟩ (.binary .less)
      [.leaf ⟨0, 0⟩, .apply ⟨0, 3⟩ (.binary .max)
        [.apply ⟨0, 2⟩ (.unary .neg) [.leaf ⟨0, 0⟩], .leaf ⟨0, 1⟩]], .leaf ⟨0, 1⟩]

/-- The arrays of its unit. -/
def guardedScope : EmitScope :=
  ⟨guarded, [(⟨0, 0⟩, ⟨.parameter, "x"⟩), (⟨0, 1⟩, ⟨.parameter, "y"⟩),
    (⟨0, 5⟩, ⟨.temporary, "and_0"⟩)]⟩

/-- Arrays passed to the unit, where the loop has come to the second element. -/
def guardedSurroundings : Surroundings where
  var? _ := none
  element? array position := do
    let k ← position.value? (Emit.counting [1])
    if array = .var "p_x" then [⟨.long, 5⟩, ⟨.long, -3⟩][k]?
    else if array = .var "p_y" then [⟨.byte, 0⟩, ⟨.byte, 1⟩][k]? else none
  function? := helper?

/-- Their elements there. -/
def guardedLeaf? (id : NodeId) : Option Scalar :=
  if id = ⟨0, 0⟩ then some ⟨.i64, (-3 : Int64)⟩
  else if id = ⟨0, 1⟩ then some ⟨.bool, true⟩ else none

theorem evalText?_kernelExpr_guarded :
    guardedScope.Named ∧ guardedKernel.Typed guarded ∧
    guardedKernel.isIntegral guarded = true ∧
    guardedSurroundings.Offers guardedScope (Emit.counters 1) guardedLeaf? guardedKernel ∧
    ∃ e x, Emit.kernelExpr guardedScope (Emit.counters 1) guardedKernel = .ok (e, .bool) ∧
      guardedSurroundings.evalText? e.render = some x ∧ x = 1 := by
  have ht : guarded.Reachable := .calls (.start 0 {}) _
  have hplacement : guarded.placement
      (guarded.fuse ⟨guarded.nodes.map Node.id, [⟨0, 5⟩]⟩) = .ok guardedScope.storage := rfl
  have hnames : guardedScope.Named := ht.named hplacement
  have hk : guardedKernel.Typed guarded := by
    have hsteps : (guarded.fuse ⟨guarded.nodes.map Node.id, [⟨0, 5⟩]⟩).steps =
        [.single ⟨0, 0⟩, .single ⟨0, 1⟩, .fused ⟨0, 5⟩ guardedKernel] := rfl
    have hmem : .fused ⟨0, 5⟩ guardedKernel ∈
        (guarded.fuse ⟨guarded.nodes.map Node.id, [⟨0, 5⟩]⟩).steps := by simp [hsteps]
    exact (Trace.typed_of_mem_fuse ht hmem).1
  have hS : guardedSurroundings.Offers guardedScope (Emit.counters 1) guardedLeaf?
      guardedKernel := by
    have hleaves : guardedKernel.leaves = [⟨0, 0⟩, ⟨0, 0⟩, ⟨0, 1⟩, ⟨0, 1⟩] := rfl
    refine ⟨rfl, ?_⟩
    rw [hleaves]
    simp only [List.forall_mem_cons, List.not_mem_nil, false_imp_iff, implies_true, and_true]
    exact ⟨⟨_, _, _, rfl, rfl, rfl, rfl, rfl⟩, ⟨_, _, _, rfl, rfl, rfl, rfl, rfl⟩,
      ⟨_, _, _, rfl, rfl, rfl, rfl, rfl⟩, ⟨_, _, _, rfl, rfl, rfl, rfl, rfl⟩⟩
  obtain ⟨e, v, x, he, hroot, hv, hx, htext, -⟩ :=
    evalText?_kernelExpr hnames hk (by decide) hS
  obtain rfl : (⟨.bool, true⟩ : Scalar) = v := Option.some.inj hv
  cases hx
  exact ⟨hnames, hk, by decide, hS, e, _, he, htext, rfl⟩

end

end ArrayTrace
