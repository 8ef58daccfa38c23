import ArrayTrace.Proofs.Execution
import ArrayTrace.Proofs.Fusion
import ArrayTrace.Proofs.Scalars

/-!
# Kernels, element by element

A kernel is evaluated array by array: each of its nodes combines whole arrays over the shape
of that node. Each element of its value is also the value of one scalar expression, in which
a leaf contributes the element at the position that the code of the kernel computes from the
counters of the root's shape. So a leaf can be repeated over the shape of the root at once,
whatever the shapes of the nodes in between are.

## Main definitions

* `Kernel.scalar?` — value of a kernel for one element.
* `Kernel.Typed` — every node has the type that is inferred from the arguments.
-/

namespace ArrayTrace

namespace Kernel

/-- The node whose value the kernel is. -/
def root : Kernel → NodeId
  | leaf id => id
  | apply id _ _ => id

mutual

/-- Value for one element, from the element types of the nodes and the elements that the leaves
contribute. -/
def scalar? (dtype? : NodeId → Option DType) (leaf? : NodeId → Option Scalar) :
    Kernel → Option Scalar
  | leaf id => leaf? id
  | apply id op args => do op.scalar? (← scalars? dtype? leaf? args) (← dtype? id)

/-- Values of a list of kernels for one element. -/
def scalars? (dtype? : NodeId → Option DType) (leaf? : NodeId → Option Scalar) :
    List Kernel → Option (List Scalar)
  | [] => some []
  | k :: ks => do
    let first ← scalar? dtype? leaf? k
    let rest ← scalars? dtype? leaf? ks
    return first :: rest

end

mutual

/-- Every node that the kernel applies has an elementwise operation and the type that is
inferred from the types of its arguments. -/
def Typed (t : Trace) : Kernel → Prop
  | leaf _ => True
  | apply id op args =>
    op.isElementwise = true ∧ TypedAll t args ∧
      ∃ type types, t.type? id = some type ∧
        List.Forall₂ (fun k type => t.type? k.root = some type) args types ∧
        op.infer types t.config.floatDType = .ok type

/-- A list of typed kernels. -/
def TypedAll (t : Trace) : List Kernel → Prop
  | [] => True
  | k :: ks => k.Typed t ∧ TypedAll t ks

end

theorem typedAll_iff {t : Trace} {ks : List Kernel} : TypedAll t ks ↔ ∀ k ∈ ks, k.Typed t := by
  induction ks with
  | nil => simp [TypedAll]
  | cons k ks ih => simp [TypedAll, ih]

variable {dtype? : NodeId → Option DType} {leaf? leaf?' : NodeId → Option Scalar}

mutual

/-- Only the leaves of a kernel contribute to its value. -/
theorem scalar?_congr : (k : Kernel) → (∀ id ∈ k.leaves, leaf? id = leaf?' id) →
    k.scalar? dtype? leaf? = k.scalar? dtype? leaf?'
  | leaf id, h => h id List.mem_cons_self
  | apply id op args, h => by rw [scalar?, scalar?, scalars?_congr args h]

theorem scalars?_congr : (ks : List Kernel) → (∀ id ∈ leavesAll ks, leaf? id = leaf?' id) →
    scalars? dtype? leaf? ks = scalars? dtype? leaf?' ks
  | [], _ => rfl
  | k :: ks, h => by
    obtain ⟨hk, hks⟩ := List.forall_mem_append.1 h
    rw [scalars?, scalars?, scalar?_congr k hk, scalars?_congr ks hks]

end

theorem mem_appliedAll {id : NodeId} {ks : List Kernel} :
    id ∈ appliedAll ks ↔ ∃ k ∈ ks, id ∈ k.applied := by
  induction ks with
  | nil => simp [appliedAll]
  | cons k ks ih => simp [appliedAll, ih]

theorem mem_leavesAll {id : NodeId} {ks : List Kernel} :
    id ∈ leavesAll ks ↔ ∃ k ∈ ks, id ∈ k.leaves := by
  induction ks with
  | nil => simp [leavesAll]
  | cons k ks ih => simp [leavesAll, ih]

end Kernel

namespace Trace
variable {t : Trace} {s : Schedule} {M : List NodeId} {id : NodeId} {p : Program}
  {values : Store} {n : Node}

/-! ## The kernels of a fused plan -/

theorem root_tree : (t.tree M id).root = id := by
  rw [tree, kernel]
  split <;> rfl

/-- Merging elementwise nodes gives typed kernels. -/
theorem typed_tree (ht : t.WellFormed) (hM : ∀ i ∈ M, t.isElementwise i = true)
    (hid : t.isElementwise id = true) : (t.tree M id).Typed t := by
  induction hk : id.index using Nat.strongRecOn generalizing id with
  | ind k ih =>
    subst hk
    obtain ⟨n, op, inputs, hn, hkind, hop⟩ := exists_apply_of_isElementwise hid
    obtain ⟨operands, hoperands, hinfer⟩ : ∃ operands,
        List.Forall₂ (fun i x => t.node? i = some x) inputs operands ∧
          op.infer (operands.map Node.type) t.config.floatDType = .ok n.type := by
      simpa only [Admits, hkind] using ht.admits (mem_of_node? hn)
    rw [tree_apply ht hn hkind, Kernel.Typed, Kernel.typedAll_iff]
    refine ⟨hop, List.forall_mem_map.2 fun i hi => ?_, n.type, operands.map Node.type,
      by simp [type?, hn], ?_, hinfer⟩
    · split
      · have hinput : i ∈ t.inputs id := by simpa [inputs_of_node? hn, Node.inputs, hkind] using hi
        have hlt := (ht.input_lt hinput).2
        exact ih _ hlt (hM i ‹_›) rfl
      · trivial
    · refine List.forall₂_map_left_iff.2 (List.forall₂_map_right_iff.2 (hoperands.imp ?_))
      intro i x hx
      have hroot : (if i ∈ M then t.tree M i else .leaf i).root = i := by
        split
        · exact root_tree
        · rfl
      rw [hroot, type?, hx, Option.map_some]

theorem typed_of_mem_fuse (ht : t.Reachable) {root : NodeId} {k : Kernel}
    (hk : .fused root k ∈ (t.fuse s).steps) : k.Typed t ∧ k.root = root := by
  have hM : ∀ i ∈ t.merged s, t.isElementwise i = true := by
    intro i hi
    simp only [merged, List.mem_filter, Bool.and_eq_true] at hi
    exact hi.2.1.1.1
  rw [steps_fuse] at hk
  obtain ⟨id, -, hstep⟩ := List.mem_map.1 hk
  rw [stepOf] at hstep
  split at hstep
  · rename_i hfused
    cases hstep
    exact ⟨typed_tree ht.wellFormed hM (Bool.and_eq_true_iff.1 hfused).1, root_tree⟩
  · cases hstep

/-- What a program and its values have in common with a trace where they evaluate a kernel: the
nodes that the kernel applies, and the types of its leaves. -/
structure Supplies (t : Trace) (p : Program) (values : Store) (k : Kernel) : Prop where
  node?_eq : ∀ id ∈ k.applied, p.node? id = t.node? id
  type_eq : ∀ id ∈ k.leaves, ∀ x, p.read values id = .ok x → t.type? id = some x.type

theorem Supplies.arg {op : Op} {args : List Kernel} {k : Kernel}
    (h : t.Supplies p values (.apply id op args)) (hk : k ∈ args) : t.Supplies p values k where
  node?_eq i hi := h.node?_eq i (List.mem_append_left _ (Kernel.mem_appliedAll.2 ⟨k, hk, hi⟩))
  type_eq i hi := h.type_eq i (Kernel.mem_leavesAll.2 ⟨k, hk, hi⟩)

end Trace

/-- The elements that leaves contribute to an element of a wider array. -/
def Program.projected? (p : Program) (values : Store) (ix : List Nat) (id : NodeId) :
    Option Scalar :=
  (p.read values id).toOption.map fun x => x.get (x.shape.project ix)

theorem Op.operands_project {inputs : List Tensor} {s : Shape} {ix : List Nat}
    (h : ∀ x ∈ inputs, x.shape.spreadsTo s = true) (hlen : s.length ≤ ix.length) :
    operands inputs (s.project ix) = operands inputs ix :=
  List.map_congr_left fun x hx => by rw [Shape.project_project (h x hx) hlen]

section
variable {t : Trace} {p : Program} {values : Store} {s : Shape} {ix : List Nat}

mutual

/-- An element of a kernel's value, read from a wider array, is the value of the kernel for the
elements of the leaves that are read from there. -/
theorem evalKernel_get [FloatProduct] (hix : s.InBounds ix) {r : Tensor} :
    (k : Kernel) → k.Typed t → t.Supplies p values k → p.evalKernel values k = .ok r →
    t.type? k.root = some r.type ∧ (r.shape.spreadsTo s = true →
      k.scalar? t.dtype? (p.projected? values ix) = some (r.get (r.shape.project ix)))
  | .leaf id, _, hp, h => by
    refine ⟨hp.type_eq id List.mem_cons_self r h, fun _ => ?_⟩
    have hread : p.read values id = .ok r := h
    rw [Kernel.scalar?, Program.projected?, hread]
    rfl
  | .apply id op args, ⟨hop, hargs, type, types, htype, htypes, hinfer⟩, hp, h => by
    obtain ⟨rs, hrs, h⟩ := Except.bind_eq_ok.1 h
    obtain ⟨n, hn, h⟩ := Except.bind_eq_ok.1 h
    obtain ⟨hroots, helements⟩ := evalKernels_get hix args hargs (fun k hk => hp.arg hk) hrs
    have hnode : t.node? id = some n := by
      rw [← hp.node?_eq id (List.mem_append_right _ List.mem_cons_self),
        ← Program.toOption_node, hn, Except.toOption]
    have htype' : t.type? id = some n.type := by rw [Trace.type?, hnode, Option.map_some]
    obtain rfl : n.type = type := Option.some.inj (htype'.symm.trans htype)
    have hunique : Relator.RightUnique fun (k : Kernel) type => t.type? k.root = some type :=
      fun _ _ _ h h' => Option.some.inj (h.symm.trans h')
    obtain rfl : rs.map Tensor.type = types :=
      hunique.forall₂ (List.forall₂_map_right_iff.2 hroots) htypes
    obtain ⟨hr, hget⟩ := Op.isElementwise_eval hop hinfer (Except.mapError_eq_ok.1 h)
    refine ⟨hr ▸ htype, fun hspreads => ?_⟩
    rw [← hr] at hinfer hget
    have hinputs : ∀ x ∈ rs, x.shape.spreadsTo r.shape = true := fun x hx =>
      Op.spreadsTo_of_infer hop hinfer (List.mem_map_of_mem hx)
    have hdtype : t.dtype? id = some r.dtype := by
      rw [Trace.dtype?, htype, ← hr]
      rfl
    have hlen : r.shape.length ≤ ix.length := by
      rw [hix.length_eq]
      exact Shape.length_le_of_spreadsTo hspreads
    rw [Kernel.scalar?, helements fun x hx => Shape.spreadsTo_trans (hinputs x hx) hspreads,
      hdtype, ← Op.operands_project hinputs hlen]
    exact hget _ (hix.project hspreads)

/-- Likewise for the values of a list of kernels. -/
theorem evalKernels_get [FloatProduct] (hix : s.InBounds ix) {rs : List Tensor} :
    (ks : List Kernel) → Kernel.TypedAll t ks → (∀ k ∈ ks, t.Supplies p values k) →
    p.evalKernels values ks = .ok rs →
    List.Forall₂ (fun k r => t.type? k.root = some r.type) ks rs ∧
      ((∀ r ∈ rs, r.shape.spreadsTo s = true) →
        Kernel.scalars? t.dtype? (p.projected? values ix) ks = some (Op.operands rs ix))
  | [], _, _, h => by
    cases h
    exact ⟨.nil, fun _ => rfl⟩
  | k :: ks, ⟨hk, hks⟩, hp, h => by
    obtain ⟨r, hr, h⟩ := Except.bind_eq_ok.1 h
    obtain ⟨rs, hrs, h⟩ := Except.bind_eq_ok.1 h
    cases h
    obtain ⟨hp, hps⟩ := List.forall_mem_cons.1 hp
    obtain ⟨hroot, helement⟩ := evalKernel_get hix k hk hp hr
    obtain ⟨hroots, helements⟩ := evalKernels_get hix ks hks hps hrs
    refine ⟨.cons hroot hroots, fun hspreads => ?_⟩
    obtain ⟨hspread, hspreads⟩ := List.forall_mem_cons.1 hspreads
    rw [Kernel.scalars?, helement hspread, helements hspreads]
    rfl

end

mutual

/-- Evaluation reads every leaf. -/
theorem exists_read [FloatProduct] {id : NodeId} {r : Tensor} : (k : Kernel) →
    p.evalKernel values k = .ok r → id ∈ k.leaves → ∃ x, p.read values id = .ok x
  | .leaf _, h, hid => ⟨r, List.mem_singleton.1 hid ▸ h⟩
  | .apply _ _ args, h, hid => by
    obtain ⟨rs, hrs, -⟩ := Except.bind_eq_ok.1 h
    exact exists_read_of_evalKernels args hrs hid

/-- Likewise for a list of kernels. -/
theorem exists_read_of_evalKernels [FloatProduct] {id : NodeId} {rs : List Tensor} :
    (ks : List Kernel) → p.evalKernels values ks = .ok rs → id ∈ Kernel.leavesAll ks →
    ∃ x, p.read values id = .ok x
  | k :: ks, h, hid => by
    obtain ⟨r, hr, h⟩ := Except.bind_eq_ok.1 h
    obtain ⟨rs, hrs, -⟩ := Except.bind_eq_ok.1 h
    rcases List.mem_append.1 hid with hid | hid
    · exact exists_read k hr hid
    · exact exists_read_of_evalKernels ks hrs hid

end

mutual

/-- A leaf spreads to the root, through all the nodes in between. -/
theorem Kernel.Typed.spreadsTo {id : NodeId} {x type : TensorType} (hx : t.type? id = some x) :
    (k : Kernel) → k.Typed t → id ∈ k.leaves → t.type? k.root = some type →
      x.shape.spreadsTo type.shape = true
  | .leaf _, _, hid, htype => by
    obtain rfl := List.mem_singleton.1 hid
    obtain rfl : x = type := Option.some.inj (hx.symm.trans htype)
    exact Shape.spreadsTo_refl _
  | .apply node op args, ⟨hop, hargs, type', types, htype', htypes, hinfer⟩, hid, htype => by
    obtain rfl : type' = type := Option.some.inj (htype'.symm.trans htype)
    obtain ⟨y, hy, hspreads⟩ := Kernel.TypedAll.spreadsTo hx args hargs hid htypes
    exact Shape.spreadsTo_trans hspreads (Op.spreadsTo_of_infer hop hinfer hy)

/-- A leaf spreads to the root of one of the kernels that it occurs in. -/
theorem Kernel.TypedAll.spreadsTo {id : NodeId} {x : TensorType} (hx : t.type? id = some x)
    {types : List TensorType} : (ks : List Kernel) → Kernel.TypedAll t ks →
      id ∈ Kernel.leavesAll ks →
      List.Forall₂ (fun k type => t.type? k.root = some type) ks types →
      ∃ y ∈ types, x.shape.spreadsTo y.shape = true
  | k :: ks, ⟨hk, hks⟩, hid, .cons htype htypes => by
    rcases List.mem_append.1 hid with hid | hid
    · exact ⟨_, List.mem_cons_self, Kernel.Typed.spreadsTo hx k hk hid htype⟩
    · obtain ⟨y, hy, hspreads⟩ := Kernel.TypedAll.spreadsTo hx ks hks hid htypes
      exact ⟨y, List.mem_cons_of_mem _ hy, hspreads⟩

end

end

/-! ## Positions of the leaves -/

/-- The element that a leaf contributes at indices into the array of the root: the one at the
position that the index expression for an operand computes. -/
def Program.element? (p : Program) (values : Store) (σ : C.Names) (indices : List C.Expr)
    (id : NodeId) : Option Scalar := do
  let x ← (p.read values id).toOption
  x.element? (← (Emit.broadcastLinear x.shape indices).value? σ)

namespace Emit
variable {σ : C.Names} {s t : Shape} {indices : List C.Expr} {ix : List Nat}

/-- The position in an operand is that of the projected indices. -/
theorem value?_broadcastLinear (h : Denote σ indices ix) (ht : t.InBounds ix)
    (hspreads : s.spreadsTo t = true) :
    (broadcastLinear s indices).value? σ = some (s.offset (s.project ix)) :=
  value?_linear (h.aligned s) (ht.project hspreads).length_eq

/-- Names in scope of the body of a loop nest that has come to a multi-index. -/
def counting (ix : List Nat) : C.Names := fun x =>
  (ix.zipIdx.find? fun e => counter e.2 = x).map fun e => .counter e.1

theorem denote_counting (ix : List Nat) : Denote (counting ix) (counters ix.length) ix := by
  have hkeys : (ix.zipIdx.map fun e => counter e.2).Nodup := by
    have hmap : (ix.zipIdx.map fun e => counter e.2) = (ix.zipIdx.map Prod.snd).map counter := by
      rw [List.map_map]
      rfl
    rw [hmap, List.zipIdx_map_snd]
    exact List.Nodup.map counter_injective List.nodup_range'
  refine List.forall₂_iff_get.2 ⟨length_counters _, fun a ha ha' => ?_⟩
  have hmem : (ix[a], a) ∈ ix.zipIdx := List.mem_zipIdx_iff_getElem?.2 (by simp)
  have hfind := C.find?_of_nodup hkeys hmem
  refine ⟨by simp [counters, C.Expr.level], ?_⟩
  simp [counters, C.Expr.value?, counting, hfind]

end Emit

theorem Program.element?_eq {p : Program} {values : Store} {σ : C.Names} {indices : List C.Expr}
    {ix : List Nat} {s : Shape} {id : NodeId} {x : Tensor} (hx : p.read values id = .ok x)
    (h : Emit.Denote σ indices ix) (hix : s.InBounds ix) (hspreads : x.shape.spreadsTo s = true) :
    p.element? values σ indices id = p.projected? values ix id := by
  rw [element?, projected?, hx]
  simp only [Except.toOption, Option.bind_eq_bind, Option.bind_some, Option.map_some,
    Emit.value?_broadcastLinear h hix hspreads, Tensor.element?_offset (hix.project hspreads)]

namespace Trace
variable {t : Trace} {s : Schedule} {root : NodeId} {k : Kernel} {p : Program} {values : Store}
  {r : Tensor}

/-- Where evaluating a kernel of a fused plan succeeds, each element of its value is what the
scalar functions of its operations give, once along the kernel, for the elements of the leaves
at the positions that the code computes. These positions lie within the leaves. -/
theorem Reachable.evalKernel_eq_scalar? [FloatProduct] (ht : t.Reachable)
    (hk : .fused root k ∈ (t.fuse s).steps) (hp : t.Supplies p values k)
    (hr : p.evalKernel values k = .ok r) :
    t.type? root = some r.type ∧ ∀ σ ix, r.shape.InBounds ix →
      Emit.Denote σ (Emit.counters r.type.rank) ix →
      (∀ id ∈ k.leaves, ∃ x position, p.read values id = .ok x ∧
        (Emit.broadcastLinear x.shape (Emit.counters r.type.rank)).value? σ = some position ∧
        position < x.type.size) ∧
      k.scalar? t.dtype? (p.element? values σ (Emit.counters r.type.rank)) = some (r.get ix) := by
  obtain ⟨htyped, rfl⟩ := typed_of_mem_fuse ht hk
  have htype := (evalKernel_get (show Shape.InBounds [] [] from trivial) k htyped hp hr).1
  refine ⟨htype, fun σ ix hix hσ => ?_⟩
  have hleaf : ∀ id ∈ k.leaves, ∃ x, p.read values id = .ok x ∧
      x.shape.spreadsTo r.shape = true := fun id hid => by
    obtain ⟨x, hx⟩ := exists_read k hr hid
    exact ⟨x, hx, Kernel.Typed.spreadsTo (hp.type_eq id hid x hx) k htyped hid htype⟩
  constructor
  · intro id hid
    obtain ⟨x, hx, hspreads⟩ := hleaf id hid
    exact ⟨x, _, hx, Emit.value?_broadcastLinear hσ hix hspreads,
      Shape.offset_lt (hix.project hspreads)⟩
  · have hcongr : k.scalar? t.dtype? (p.element? values σ (Emit.counters r.type.rank)) =
        k.scalar? t.dtype? (p.projected? values ix) := Kernel.scalar?_congr k fun id hid => by
      obtain ⟨x, hx, hspreads⟩ := hleaf id hid
      exact Program.element?_eq hx hσ hix hspreads
    rw [hcongr, (evalKernel_get hix k htyped hp hr).2 (Shape.spreadsTo_refl _),
      Shape.project_self hix]

/-- A single element, added to a vector, times a matrix. -/
def stretched : Trace :=
  [Call.placeholder "x" [1] .i64, .placeholder "y" [3] .i64, .placeholder "z" [2, 3] .i64,
    .apply (.binary .add) [⟨0, 0⟩, ⟨0, 1⟩],
    .apply (.binary .mul) [⟨0, 3⟩, ⟨0, 2⟩]].foldl Trace.after { id := 0 }

/-- The product of its fused plan. -/
def stretchedKernel : Kernel :=
  .apply ⟨0, 4⟩ (.binary .mul)
    [.apply ⟨0, 3⟩ (.binary .add) [.leaf ⟨0, 0⟩, .leaf ⟨0, 1⟩], .leaf ⟨0, 2⟩]

/-- A program over its nodes. -/
def stretchedProgram : Program :=
  ⟨stretched.nodes,
    stretched.fuse ⟨[⟨0, 0⟩, ⟨0, 1⟩, ⟨0, 2⟩, ⟨0, 3⟩, ⟨0, 4⟩], [⟨0, 4⟩]⟩, ⟨"", ⟨"", [], [], []⟩⟩⟩

/-- Values of its inputs. -/
def stretchedInputs : Store :=
  ⟨[(⟨0, 0⟩, .vector .i64 [10]), (⟨0, 1⟩, .vector .i64 [1, 2, 3]),
    (⟨0, 2⟩, ⟨.i64, ⟨[2, 3], [1, 1, 1, 2, 2, 2], rfl⟩⟩)]⟩

/-- The sum has fewer axes than the product, and its first summand has length 1. -/
theorem evalKernel_eq_scalar?_stretched :
    .fused ⟨0, 4⟩ stretchedKernel ∈ stretchedProgram.plan.steps ∧
    stretched.Supplies stretchedProgram stretchedInputs stretchedKernel ∧
    ∃ r, stretchedProgram.evalKernel stretchedInputs stretchedKernel = .ok r ∧
      r.type = ⟨[2, 3], .i64⟩ ∧
      stretchedKernel.scalar? stretched.dtype?
        (stretchedProgram.element? stretchedInputs (Emit.counting [1, 2]) (Emit.counters 2)) =
          some (r.get [1, 2]) := by
  have ht : stretched.Reachable := .calls (.start 0 {}) _
  have hk : .fused ⟨0, 4⟩ stretchedKernel ∈ stretchedProgram.plan.steps := by
    have hsteps : stretchedProgram.plan.steps =
      [.single ⟨0, 0⟩, .single ⟨0, 1⟩, .single ⟨0, 2⟩, .fused ⟨0, 4⟩ stretchedKernel] := rfl
    simp [hsteps]
  have hp : stretched.Supplies stretchedProgram stretchedInputs stretchedKernel := by
    refine ⟨List.forall_mem_cons.2 ⟨rfl, List.forall_mem_singleton.2 rfl⟩,
      List.forall_mem_cons.2 ⟨?_, List.forall_mem_cons.2 ⟨?_, List.forall_mem_singleton.2 ?_⟩⟩⟩
    all_goals exact fun x hx => congrArg (fun x => some (Tensor.type x)) (Except.ok.inj hx)
  have hok : (stretchedProgram.evalKernel stretchedInputs stretchedKernel).toOption.isSome =
      true := by
    decide
  obtain ⟨r, hr⟩ := Option.isSome_iff_exists.1 hok
  have hr := toOption_eq_some.1 hr
  obtain ⟨htype, hget⟩ := Reachable.evalKernel_eq_scalar? ht hk hp hr
  have htype : r.type = ⟨[2, 3], .i64⟩ := (Option.some.inj htype).symm
  have hix : r.shape.InBounds [1, 2] := by
    rw [show r.shape = [2, 3] from congrArg TensorType.shape htype]
    decide
  rw [htype] at hget
  exact ⟨hk, hp, r, hr, htype, (hget _ _ hix (Emit.denote_counting [1, 2])).2⟩

end Trace
end ArrayTrace
