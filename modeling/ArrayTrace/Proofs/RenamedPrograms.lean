import ArrayTrace.Proofs.Containment
import ArrayTrace.Proofs.Renaming
import ArrayTrace.Proofs.Totality

/-!
# Compiling a renamed trace

Schedules, plans and programs of a renamed trace are the renamed ones. The code is the same,
since it names arrays after nodes and never after ids.
-/

namespace ArrayTrace

/-! ## Renaming -/

/-- A schedule with all ids renamed. -/
@[simps]
def Schedule.rename (e : Nat → Nat) (s : Schedule) : Schedule where
  nodes := s.nodes.map (NodeId.rename e)
  outputs := s.outputs.map (NodeId.rename e)

namespace Kernel

mutual

/-- A kernel with all ids renamed. -/
def rename (e : Nat → Nat) : Kernel → Kernel
  | leaf id => leaf (id.rename e)
  | apply node op args => apply (node.rename e) op (renameAll e args)

/-- Kernels with all ids renamed. -/
def renameAll (e : Nat → Nat) : List Kernel → List Kernel
  | [] => []
  | k :: ks => k.rename e :: renameAll e ks

end

theorem renameAll_eq_map (e : Nat → Nat) (ks : List Kernel) :
    renameAll e ks = ks.map (rename e) := by
  induction ks with
  | nil => rfl
  | cons k ks ih => rw [renameAll, ih, List.map_cons]

mutual

theorem leaves_rename (e : Nat → Nat) :
    (k : Kernel) → (k.rename e).leaves = k.leaves.map (NodeId.rename e)
  | leaf _ => rfl
  | apply _ _ args => leavesAll_rename e args

theorem leavesAll_rename (e : Nat → Nat) :
    (ks : List Kernel) → leavesAll (renameAll e ks) = (leavesAll ks).map (NodeId.rename e)
  | [] => rfl
  | k :: ks => by
    rw [renameAll, leavesAll, leaves_rename e k, leavesAll_rename e ks, leavesAll, List.map_append]

end

end Kernel

/-- A step with all ids renamed. -/
def Step.rename (e : Nat → Nat) : Step → Step
  | single id => single (id.rename e)
  | fused root kernel => fused (root.rename e) (kernel.rename e)

/-- A plan with all ids renamed. -/
def Plan.rename (e : Nat → Nat) (p : Plan) : Plan :=
  ⟨p.steps.map (Step.rename e), p.outputs.map (NodeId.rename e)⟩

/-- A program with all ids renamed. -/
def Program.rename (e : Nat → Nat) (p : Program) : Program :=
  ⟨p.nodes.map (Node.rename e), p.plan.rename e, p.unit⟩

/-- An error with its id, if it has one, renamed. -/
def CompileError.rename (e : Nat → Nat) : CompileError → CompileError
  | schedule (.unboundOutput id) => schedule (.unboundOutput (id.rename e))
  | error => error

variable {e : Nat → Nat}

/-! ## Plans -/

@[simp] theorem Node.isPlaceholder_rename (n : Node) :
    (n.rename e).isPlaceholder = n.isPlaceholder := by
  obtain ⟨_, _, _, kind⟩ := n
  cases kind <;> rfl

@[simp] theorem Node.isState_rename (n : Node) : (n.rename e).isState = n.isState := by
  obtain ⟨_, _, _, kind⟩ := n
  cases kind <;> rfl

@[simp] theorem Node.isApplied_rename (n : Node) : (n.rename e).isApplied = n.isApplied := by
  obtain ⟨_, _, _, kind⟩ := n
  cases kind <;> rfl

@[simp] theorem Node.constantTable?_rename (n : Node) :
    (n.rename e).constantTable? = n.constantTable? := by
  obtain ⟨_, _, _, kind⟩ := n
  cases kind <;> rfl

@[simp] theorem Node.initialTable?_rename (n : Node) :
    (n.rename e).initialTable? = n.initialTable? := by
  obtain ⟨_, _, _, kind⟩ := n
  cases kind <;> rfl

@[simp] theorem Step.root_rename (s : Step) : (s.rename e).root = s.root.rename e := by
  cases s <;> rfl

@[simp] theorem Plan.roots_rename (p : Plan) :
    (p.rename e).roots = p.roots.map (NodeId.rename e) := by
  simp [Plan.roots, Plan.rename, Function.comp_def]

namespace Trace
variable {t : Trace} {s : Schedule} {p : Plan} {a : NodeId} {ids outputs : List NodeId}

section
variable (he : StrictMono e)
include he

theorem predecessors_rename :
    (t.rename e).predecessors (a.rename e) = (t.predecessors a).map (NodeId.rename e) := by
  rw [predecessors, inputs_rename he, control_rename he, predecessors, List.map_append]

theorem edgeCount_rename : (t.rename e).edgeCount = t.edgeCount := by
  rw [edgeCount, nodes_rename, List.foldr_map, edgeCount]
  simp only [Node.id_rename, predecessors_rename he, List.length_map]

theorem collect_rename (fuel : Nat) (seen stack : List NodeId) :
    (t.rename e).collect fuel (seen.map (NodeId.rename e)) (stack.map (NodeId.rename e)) =
      (t.collect fuel seen stack).map (NodeId.rename e) := by
  induction fuel generalizing seen stack with
  | zero => rfl
  | succ fuel ih =>
    cases stack with
    | nil => rfl
    | cons a stack =>
      rw [List.map_cons, collect, collect]
      simp only [NodeId.mem_map_rename he]
      split
      · exact ih seen stack
      · have hfilter : (((t.predecessors a).map (NodeId.rename e)).filter
              (· ∉ (NodeId.insert a seen).map (NodeId.rename e))) =
            ((t.predecessors a).filter (· ∉ NodeId.insert a seen)).map (NodeId.rename e) := by
          rw [List.filter_map]
          simp only [Function.comp_def, NodeId.mem_map_rename he]
        rw [NodeId.insert_rename he, predecessors_rename he, hfilter, ← List.map_append]
        exact ih _ _

theorem needed_rename :
    (t.rename e).needed (outputs.map (NodeId.rename e)) =
      (t.needed outputs).map (NodeId.rename e) := by
  rw [needed, List.length_map, edgeCount_rename he]
  exact collect_rename he _ [] outputs

theorem readers_rename :
    (t.rename e).readers (s.rename e) (a.rename e) = (t.readers s a).map (NodeId.rename e) := by
  rw [readers, Schedule.rename, List.flatMap_map, readers, List.map_flatMap]
  refine List.flatMap_congr fun reader _ => ?_
  rw [inputs_rename he, List.filter_map, List.map_map, List.map_map]
  simp only [Function.comp_def, NodeId.rename_inj he]

omit he in
theorem constrained_rename :
    (t.rename e).constrained = t.constrained.map (NodeId.rename e) := by
  rw [constrained, rename, List.filter_map, List.flatMap_map, constrained, List.map_flatMap]
  simp only [Function.comp_def, Entry.rename, List.isEmpty_map]
  rfl

theorem merged_rename :
    (t.rename e).merged (s.rename e) = (t.merged s).map (NodeId.rename e) := by
  rw [merged, merged, constrained_rename, Schedule.rename_nodes, List.filter_map]
  congr 1
  refine List.filter_congr fun a _ => ?_
  simp only [Function.comp_apply, isElementwise_rename he, readers_rename he,
    NodeId.mem_map_rename he, Schedule.rename_outputs]
  refine congrArg (and _) ?_
  rcases t.readers s a with _ | ⟨reader, _ | _⟩
  · rfl
  · exact isElementwise_rename he
  · rfl

theorem kernel_rename (merged : List NodeId) (depth : Nat) :
    (t.rename e).kernel (merged.map (NodeId.rename e)) depth (a.rename e) =
      (t.kernel merged depth a).rename e := by
  induction depth generalizing a with
  | zero => rfl
  | succ depth ih =>
    rw [kernel, node?_rename he, kernel]
    cases t.node? a with
    | none => rfl
    | some n =>
      obtain ⟨_, _, _, kind⟩ := n
      cases kind with
      | apply op inputs =>
        simp only [Option.map_some, Node.rename, NodeKind.rename, Kernel.rename,
          Kernel.renameAll_eq_map, List.map_map]
        congr 1
        refine List.map_congr_left fun i _ => ?_
        simp only [Function.comp_apply, NodeId.mem_map_rename he, ih]
        split <;> rfl
      | _ => rfl

theorem fuse_rename : (t.rename e).fuse (s.rename e) = (t.fuse s).rename e := by
  rw [fuse, merged_rename he, fuse, Plan.rename]
  congr 1
  rw [Schedule.rename, List.filter_map, List.map_map, List.map_map]
  simp only [Function.comp_def, NodeId.mem_map_rename he]
  refine List.map_congr_left fun a _ => ?_
  simp only [isElementwise_rename he, inputs_rename he, List.any_map, Function.comp_def,
    NodeId.mem_map_rename he]
  split
  · rw [Step.rename]
    exact congrArg _ (kernel_rename he _ _)
  · rfl

theorem planOf_rename (fuse : Bool) :
    (t.rename e).planOf (s.rename e) fuse = (t.planOf s fuse).rename e := by
  cases fuse with
  | false =>
    simp [planOf, Plan.ofSchedule, Schedule.rename, Plan.rename, Function.comp_def, Step.rename]
  | true => simpa [planOf] using fuse_rename he

theorem nodesAt_rename :
    (t.rename e).nodesAt (ids.map (NodeId.rename e)) = (t.nodesAt ids).map (Node.rename e) := by
  rw [nodesAt, List.filterMap_map, nodesAt, List.map_filterMap]
  refine List.filterMap_congr fun a _ => node?_rename he

theorem distinct_rename (nodes : List Node) :
    distinct (nodes.map (Node.rename e)) = (distinct nodes).map (Node.rename e) := by
  induction nodes using List.reverseRecOn with
  | nil => rfl
  | append_singleton nodes n ih =>
    rw [List.map_append, List.map_singleton, distinct_append_singleton, ih,
      distinct_append_singleton, List.any_map]
    simp only [Function.comp_def, Node.id_rename, NodeId.rename_inj he]
    split
    · rfl
    · rw [List.map_append, List.map_singleton]

theorem mentioned_rename :
    (t.rename e).mentioned (p.rename e) = (t.mentioned p).map (NodeId.rename e) := by
  rw [mentioned, mentioned, Plan.rename, List.map_append, List.map_append, List.map_flatMap,
    List.flatMap_map, List.map_map, List.map_map]
  congr 1
  · congr 1
    refine List.flatMap_congr fun step _ => ?_
    cases step with
    | single a => exact inputs_rename he
    | fused root kernel => exact kernel.leaves_rename e
  · simp only [Function.comp_def, Step.root_rename]

theorem passed_rename : (t.rename e).passed (p.rename e) = (t.passed p).map (Node.rename e) := by
  rw [passed, mentioned_rename he, nodesAt_rename he, List.filter_map, distinct_rename he, passed]
  simp only [Function.comp_def, Node.isPlaceholder_rename]

theorem unitSignature_rename (unitName : String) :
    (t.rename e).unitSignature (p.rename e) unitName = t.unitSignature p unitName := by
  have hdecl (nodes : List Node) :
      (nodes.map (Node.rename e)).map Node.decl = nodes.map Node.decl := by
    rw [List.map_map]
    rfl
  rw [unitSignature, passed_rename he, hdecl, Plan.roots_rename, nodesAt_rename he, List.filter_map,
    hdecl, unitSignature]
  simp only [Plan.rename, nodesAt_rename he, hdecl, Function.comp_def, Node.isState_rename]

end
end Trace

/-! ## Code -/

/-- Computations that go on alike after a result and after the renamed one. -/
theorem toOption_bind_congr {ε α α' β : Type} {x : Except ε α} {x' : Except ε α'} {r : α → α'}
    {k : α → Except ε β} {k' : α' → Except ε β} (hx : x'.toOption = x.toOption.map r)
    (hk : ∀ a, (k' (r a)).toOption = (k a).toOption) :
    (x' >>= k').toOption = (x >>= k).toOption := by
  rw [toOption_bind, toOption_bind, hx, Option.bind_map]
  exact congrArg _ (funext hk)

/-- Scopes of a trace and of the renamed one that hold the same arrays. -/
structure EmitScope.Mirrors (e : Nat → Nat) (s s' : EmitScope) : Prop where
  node : ∀ id, (s'.node (id.rename e)).toOption = (s.node id).toOption.map (Node.rename e)
  array : ∀ id, (s'.array (id.rename e)).toOption = (s.array id).toOption

namespace EmitScope.Mirrors
variable {s s' : EmitScope} {n : Node} {inputs : List NodeId}

section
variable {β : Type} (h : s.Mirrors e s')
include h

theorem node_bind (id : NodeId) {k k' : Node → Except EmitError β}
    (hk : ∀ x, (k' (x.rename e)).toOption = (k x).toOption) :
    (s'.node (id.rename e) >>= k').toOption = (s.node id >>= k).toOption :=
  toOption_bind_congr (h.node id) hk

theorem array_bind (id : NodeId) {k k' : C.Expr → Except EmitError β}
    (hk : ∀ x, (k' x).toOption = (k x).toOption) :
    (s'.array (id.rename e) >>= k').toOption = (s.array id >>= k).toOption :=
  toOption_bind_congr ((h.array id).trans Option.map_id'.symm) hk

theorem nodes (ids : List NodeId) :
    ((ids.map (NodeId.rename e)).mapM s'.node).toOption =
      (ids.mapM s.node).toOption.map (List.map (Node.rename e)) := by
  induction ids with
  | nil => rfl
  | cons a ids ih =>
    simp only [List.map_cons, List.mapM_cons, toOption_bind, toOption_pure, h.node, ih]
    cases (s.node a).toOption with
    | none => rfl
    | some n => cases (ids.mapM s.node).toOption <;> rfl

theorem operand_bind {k k' : Node → Except EmitError β}
    (hk : ∀ x, (k' (x.rename e)).toOption = (k x).toOption) :
    (s'.operand (n.rename e) (inputs.map (NodeId.rename e)) >>= k').toOption =
      (s.operand n inputs >>= k).toOption := by
  refine toOption_bind_congr ?_ hk
  rw [EmitScope.operand, EmitScope.operand, toOption_bind, toOption_bind, h.nodes]
  rcases (inputs.mapM s.node).toOption with _ | _ | ⟨x, _ | ⟨y, _⟩⟩ <;> rfl

theorem operands_bind {k k' : Node × Node → Except EmitError β}
    (hk : ∀ x y, (k' (x.rename e, y.rename e)).toOption = (k (x, y)).toOption) :
    (s'.operands (n.rename e) (inputs.map (NodeId.rename e)) >>= k').toOption =
      (s.operands n inputs >>= k).toOption := by
  refine toOption_bind_congr (r := Prod.map (Node.rename e) (Node.rename e)) ?_ fun r => hk r.1 r.2
  rw [EmitScope.operands, EmitScope.operands, toOption_bind, toOption_bind, h.nodes]
  rcases (inputs.mapM s.node).toOption with _ | _ | ⟨x, _ | ⟨y, _ | _⟩⟩ <;> rfl

end

/-- What goes on after a computation that is the same in both scopes. -/
theorem bind_congr {α β : Type} {x x' : Except EmitError α} {k k' : α → Except EmitError β}
    (hx : x'.toOption = x.toOption) (hk : ∀ a, (k' a).toOption = (k a).toOption) :
    (x' >>= k').toOption = (x >>= k).toOption :=
  toOption_bind_congr (hx.trans Option.map_id'.symm) hk

mutual

theorem kernelExpr (h : s.Mirrors e s') (indices : List C.Expr) : (k : Kernel) →
    (Emit.kernelExpr s' indices (k.rename e)).toOption = (Emit.kernelExpr s indices k).toOption
  | .leaf a => h.node_bind a fun _ => h.array_bind a fun _ => rfl
  | .apply a op args =>
    h.node_bind a fun n => bind_congr (kernelExprs h indices args) fun args => by
      rw [Node.type_rename]
      cases Emit.operation? op args n.type.dtype <;> rfl

theorem kernelExprs (h : s.Mirrors e s') (indices : List C.Expr) : (ks : List Kernel) →
    (Emit.kernelExprs s' indices (Kernel.renameAll e ks)).toOption =
      (Emit.kernelExprs s indices ks).toOption
  | [] => rfl
  | k :: ks =>
    bind_congr (kernelExpr h indices k) fun _ => bind_congr (kernelExprs h indices ks) fun _ => rfl

end

mutual

theorem describe (h : s.Mirrors e s') : (k : Kernel) →
    (Emit.describe s' (k.rename e)).toOption = (Emit.describe s k).toOption
  | .leaf a => h.node_bind a fun _ => rfl
  | .apply _ _ args => bind_congr (describeAll h args) fun _ => rfl

theorem describeAll (h : s.Mirrors e s') : (ks : List Kernel) →
    (Emit.describeAll s' (Kernel.renameAll e ks)).toOption = (Emit.describeAll s ks).toOption
  | [] => rfl
  | k :: ks => bind_congr (describe h k) fun _ => bind_congr (describeAll h ks) fun _ => rfl

end

section
variable (h : s.Mirrors e s')
include h

theorem kernel (root : NodeId) (k : Kernel) :
    (Emit.kernel s' (root.rename e) (k.rename e)).toOption = (Emit.kernel s root k).toOption :=
  h.node_bind root fun _ => h.array_bind root fun _ => bind_congr (h.kernelExpr _ k) fun _ =>
    bind_congr (h.describe k) fun _ => rfl

theorem transpose :
    (Emit.transpose s' (n.rename e) (inputs.map (NodeId.rename e))).toOption =
      (Emit.transpose s n inputs).toOption :=
  h.operand_bind fun x => h.array_bind n.id fun _ => h.array_bind x.id fun _ => rfl

theorem slice (selection : Selection) :
    (Emit.slice s' (n.rename e) selection (inputs.map (NodeId.rename e))).toOption =
      (Emit.slice s n selection inputs).toOption :=
  h.operand_bind fun x => bind_congr rfl fun _ => h.array_bind n.id fun _ =>
    h.array_bind x.id fun _ => rfl

theorem sum :
    (Emit.sum s' (n.rename e) (inputs.map (NodeId.rename e))).toOption =
      (Emit.sum s n inputs).toOption :=
  h.operand_bind fun x => h.array_bind n.id fun _ => h.array_bind x.id fun _ => rfl

theorem norm (order : NormOrder) :
    (Emit.norm s' (n.rename e) order (inputs.map (NodeId.rename e))).toOption =
      (Emit.norm s n order inputs).toOption :=
  h.operand_bind fun x => h.array_bind n.id fun _ => h.array_bind x.id fun _ => rfl

theorem cross :
    (Emit.cross s' (n.rename e) (inputs.map (NodeId.rename e))).toOption =
      (Emit.cross s n inputs).toOption :=
  h.operands_bind fun x y => h.array_bind n.id fun _ => h.array_bind x.id fun _ =>
    h.array_bind y.id fun _ => rfl

theorem matmul :
    (Emit.matmul s' (n.rename e) (inputs.map (NodeId.rename e))).toOption =
      (Emit.matmul s n inputs).toOption := by
  refine h.operands_bind fun x y => ?_
  simp only [Node.type_rename]
  cases Op.leftDims? x.type.shape with
  | none => rfl
  | some d =>
    cases Op.rightDim? y.type.shape with
    | none => rfl
    | some k =>
      exact h.array_bind n.id fun _ => h.array_bind x.id fun _ => h.array_bind y.id fun _ => rfl

theorem concatParts (target : C.Expr) (axis start : Nat) (ids : List NodeId) :
    (Emit.concatParts s' (n.rename e) target axis start (ids.map (NodeId.rename e))).toOption =
      (Emit.concatParts s n target axis start ids).toOption := by
  induction ids generalizing start with
  | nil => rfl
  | cons a ids ih =>
    exact h.node_bind a fun _ => h.array_bind a fun _ => bind_congr (ih _) fun _ => rfl

theorem concat (axis : Nat) :
    (Emit.concat s' (n.rename e) axis (inputs.map (NodeId.rename e))).toOption =
      (Emit.concat s n axis inputs).toOption :=
  h.array_bind n.id fun target => bind_congr (h.concatParts target axis 0 inputs) fun _ => rfl

theorem stackParts (target : C.Expr) (k : Nat) (ids : List NodeId) :
    (Emit.stackParts s' (n.rename e) target k (ids.map (NodeId.rename e))).toOption =
      (Emit.stackParts s n target k ids).toOption := by
  induction ids generalizing k with
  | nil => rfl
  | cons a ids ih =>
    exact h.node_bind a fun _ => h.array_bind a fun _ => bind_congr (ih _) fun _ => rfl

theorem stack :
    (Emit.stack s' (n.rename e) (inputs.map (NodeId.rename e))).toOption =
      (Emit.stack s n inputs).toOption :=
  h.array_bind n.id fun target => bind_congr (h.stackParts target 0 inputs) fun _ => rfl

theorem assign (target : NodeId) (selection : Selection) (value : NodeId) :
    (Emit.assign s' (n.rename e) (target.rename e) selection (value.rename e)).toOption =
      (Emit.assign s n target selection value).toOption :=
  h.node_bind target fun _ => h.node_bind value fun _ => bind_congr rfl fun _ =>
    h.array_bind target fun _ => h.array_bind value fun _ => rfl

theorem emitApply (op : Op) :
    (Trace.emitApply s' (n.rename e) op (inputs.map (NodeId.rename e))).toOption =
      (Trace.emitApply s n op inputs).toOption := by
  have hleaves (op : Op) :
      Kernel.apply (n.rename e).id op ((inputs.map (NodeId.rename e)).map .leaf) =
        (Kernel.apply n.id op (inputs.map .leaf)).rename e := by
    rw [Kernel.rename, Kernel.renameAll_eq_map, List.map_map, List.map_map]
    rfl
  cases op with
  | matmul => exact h.matmul
  | cross => exact h.cross
  | transpose => exact h.transpose
  | slice selection => exact h.slice selection
  | concat axis => exact h.concat axis
  | stack => exact h.stack
  | sum => exact h.sum
  | norm order => exact h.norm order
  | _ =>
    rw [Trace.emitApply, hleaves]
    exact h.kernel n.id _

/-- The code of a step does not depend on the contexts of ids. -/
theorem emitStep (step : Step) :
    (Trace.emitStep s' (step.rename e)).toOption = (Trace.emitStep s step).toOption := by
  cases step with
  | fused root k => exact h.kernel root k
  | single a =>
    refine h.node_bind a fun n => ?_
    obtain ⟨b, name, type, kind⟩ := n
    cases kind with
    | apply op inputs => exact h.emitApply op
    | assign target selection value => exact h.assign target selection value
    | _ => rfl

end
end EmitScope.Mirrors

/-! ## Units -/

section
variable (he : StrictMono e)
include he

theorem lookup_renameKeys {α : Type} (rs : List (NodeId × α)) (id : NodeId) :
    (renameKeys e rs).lookup (id.rename e) = rs.lookup id := by
  induction rs with
  | nil => rfl
  | cons r rs ih =>
    have hkey : (id.rename e == r.1.rename e) = (id == r.1) := by
      rw [Bool.eq_iff_iff, beq_iff_eq, beq_iff_eq, NodeId.rename_inj he]
    rw [renameKeys] at ih
    rw [renameKeys, List.map_cons, List.lookup_cons, List.lookup_cons, ih, hkey]

theorem EmitScope.mirrors_rename (t : Trace) (storage : List (NodeId × Storage)) :
    EmitScope.Mirrors e ⟨t, storage⟩ ⟨t.rename e, renameKeys e storage⟩ where
  node id := by
    rw [EmitScope.node, EmitScope.node, toOption_mapError, toOption_mapError,
      Trace.node_rename he, toOption_bimap]
  array id := by
    rw [EmitScope.array, EmitScope.array, lookup_renameKeys he]
    cases storage.lookup id <;> rfl

theorem ownStorage?_rename (n : Node) (assigned : List NodeId) :
    (n.rename e).ownStorage? (assigned.map (NodeId.rename e)) = n.ownStorage? assigned := by
  obtain ⟨_, _, _, kind⟩ := n
  cases kind with
  | placeholder => simp [Node.ownStorage?, Node.rename, NodeKind.rename, NodeId.mem_map_rename he]
  | _ => rfl

end

namespace Trace
variable {t : Trace} {p : Plan} {outputs : List NodeId} {options : CompileOptions}
  {unitName : String} (he : StrictMono e)
include he

theorem storageOf_rename (roots : List Node) (assigned : List NodeId) :
    storageOf (roots.map (Node.rename e)) (assigned.map (NodeId.rename e)) =
      Except.bimap (renameKeys e) (fun error => error) (storageOf roots assigned) := by
  have hown : (roots.map (Node.rename e)).filterMap (fun n =>
        (n.ownStorage? (assigned.map (NodeId.rename e))).map fun s => (n.id, s)) =
      renameKeys e (roots.filterMap fun n => (n.ownStorage? assigned).map fun s => (n.id, s)) := by
    rw [List.filterMap_map, renameKeys, List.map_filterMap]
    simp only [Function.comp_def, ownStorage?_rename he, Option.map_map, Node.id_rename]
  rw [storageOf, hown, storageOf]
  refine Except.bind_bimap (f := List.map (Option.map fun r => (r.1.rename e, r.2)))
    (Except.mapM_bimap (fun n => ?_) roots) fun shared => congrArg Except.ok ?_
  · simp only [Node.target?_rename]
    cases n.target? with
    | none => rfl
    | some target =>
      simp only [Option.map_some, lookup_renameKeys he]
      split <;> rfl
  · simp only [renameKeys, List.map_append, List.filterMap_map, List.map_filterMap]
    rfl

theorem assigned_rename :
    (t.rename e).assigned (p.rename e) = (t.assigned p).map (NodeId.rename e) := by
  rw [assigned, Plan.roots_rename, nodesAt_rename he, List.filterMap_map, assigned,
    List.map_filterMap]
  simp only [Function.comp_def, Node.target?_rename]

theorem bindings_rename : (t.rename e).bindings (p.rename e) = t.bindings p := by
  rw [bindings, passed_rename he, assigned_rename he, List.zipIdx_map, List.map_map, bindings]
  refine List.map_congr_left fun r _ => ?_
  simp only [Function.comp_apply, bindParameter, Prod.map, Node.id_rename,
    NodeId.mem_map_rename he, Node.name_rename, Node.type_rename, id_eq]

theorem unitOf_rename (steps results : List C.Stmt) :
    (t.rename e).unitOf (p.rename e) unitName steps results =
      t.unitOf p unitName steps results := by
  have hroots :
      (t.rename e).nodesAt (p.rename e).roots = (t.nodesAt p.roots).map (Node.rename e) := by
    rw [Plan.roots_rename, nodesAt_rename he]
  rw [unitOf, unitOf, hroots, passed_rename he, assigned_rename he, bindings_rename he]
  simp only [List.filterMap_map, List.filter_map, List.map_map, List.length_map, Plan.rename,
    nodesAt_rename he, Function.comp_def, Node.constantTable?_rename, Node.initialTable?_rename,
    Node.isState_rename, Node.isApplied_rename, Node.id_rename, NodeId.mem_map_rename he]
  rfl

theorem copyOut_rename {storage : List (NodeId × Storage)} (r : Node × Nat) :
    (copyOut ⟨t.rename e, renameKeys e storage⟩ (r.1.rename e, r.2)).toOption =
      (copyOut ⟨t, storage⟩ r).toOption := by
  simp only [copyOut, toOption_bind, Node.id_rename,
    (EmitScope.mirrors_rename he t storage).array, Node.type_rename]

/-- The code of a plan does not depend on the contexts of ids. -/
theorem Ready.emit_rename {u u' : EmittedUnit} (h : t.Ready p)
    (h' : (t.rename e).Ready (p.rename e)) (hu : t.emit p unitName = .ok u)
    (hu' : (t.rename e).emit (p.rename e) unitName = .ok u') : u' = u := by
  obtain ⟨⟨unit, signature⟩, hunit, hu⟩ := Except.bind_eq_ok.1 hu
  obtain ⟨⟨unit', signature'⟩, hunit', hu'⟩ := Except.bind_eq_ok.1 hu'
  cases hu
  cases hu'
  obtain ⟨storage, steps, results, hstorage, hsteps, hresults, rfl, rfl⟩ := h.unit_eq_ok hunit
  obtain ⟨storage', steps', results', hstorage', hsteps', hresults', rfl, rfl⟩ :=
    h'.unit_eq_ok hunit'
  rw [Plan.roots_rename, nodesAt_rename he, assigned_rename he, storageOf_rename he, hstorage]
    at hstorage'
  cases hstorage'
  have hmirrors := EmitScope.mirrors_rename he t storage
  rw [← toOption_eq_some, toOption_mapM] at hsteps hsteps' hresults hresults'
  simp only [Plan.rename, List.mapM_map, Function.comp_def, hmirrors.emitStep] at hsteps'
  simp only [Plan.rename, nodesAt_rename he, List.zipIdx_map, List.mapM_map, Function.comp_def,
    Prod.map, id_eq, copyOut_rename he] at hresults'
  cases hsteps.symm.trans hsteps'
  cases hresults.symm.trans hresults'
  rw [unitOf_rename he, unitSignature_rename he]

/-! ## Programs -/

theorem refusal?_rename :
    (t.rename e).refusal? (outputs.map (NodeId.rename e)) options =
      (t.refusal? outputs options).map (CompileError.rename e) := by
  rw [refusal?, refusal?, List.find?_map]
  simp only [Function.comp_def, contains_rename he]
  split
  · rfl
  · cases outputs.find? fun id => !t.contains id with
    | some id => rfl
    | none =>
      simp only [Option.map_none]
      split <;> rfl

theorem Reachable.compile_rename_eq_ok (ht : t.Reachable) {p : Program}
    (hp : t.compile outputs options = .ok p) :
    (t.rename e).compile (outputs.map (NodeId.rename e)) options = .ok (p.rename e) := by
  obtain ⟨hraw, houtputs, hname, hcompiled⟩ := ht.of_compile_eq_ok hp
  have ht' := ht.rename he
  have houtputs' : ∀ o ∈ outputs.map (NodeId.rename e), (t.rename e).contains o = true := by
    intro o ho
    obtain ⟨a, ha, rfl⟩ := List.mem_map.1 ho
    rw [contains_rename he]
    exact houtputs a ha
  obtain ⟨q, hq, hcompiled'⟩ := ht'.compile_eq_ok houtputs' options hraw hname
  have hschedule : (⟨(t.rename e).needed (outputs.map (NodeId.rename e)),
      outputs.map (NodeId.rename e)⟩ : Schedule) =
      Schedule.rename e ⟨t.needed outputs, outputs⟩ := by
    rw [needed_rename he, Schedule.rename]
  have hplan : q.plan = p.plan.rename e := by
    rw [hcompiled'.plan_eq, hcompiled.plan_eq, hschedule, planOf_rename he]
  have hnodes : q.nodes = p.nodes.map (Node.rename e) := by
    rw [hcompiled'.nodes_eq, hcompiled.nodes_eq, hschedule, Schedule.rename_nodes,
      nodesAt_rename he]
  have hready : t.Ready p.plan :=
    hcompiled.plan_eq ▸ ready_planOf ht (ht.scheduled_needed houtputs) options.fuse
  have hready' : (t.rename e).Ready q.plan :=
    hcompiled'.plan_eq ▸ ready_planOf ht' (ht'.scheduled_needed houtputs') options.fuse
  obtain ⟨-, -, -, hunit⟩ := exists_schedule_of_compile hp
  obtain ⟨-, -, -, hunit'⟩ := exists_schedule_of_compile hq
  rw [hplan] at hready' hunit'
  have hemit : q.unit = p.unit := hready.emit_rename he hready' hunit hunit'
  rw [hq, Program.rename, ← hnodes, ← hplan, ← hemit]

/-- Compiling a renamed trace gives the renamed program, with the same code. -/
theorem Reachable.compile_rename (ht : t.Reachable) (outputs : List NodeId)
    (options : CompileOptions) :
    (t.rename e).compile (outputs.map (NodeId.rename e)) options =
      Except.bimap (Program.rename e) (CompileError.rename e) (t.compile outputs options) := by
  cases hp : t.compile outputs options with
  | ok p => exact ht.compile_rename_eq_ok he hp
  | error error =>
    refine (ht.rename he).compile_eq_error ?_
    rw [refusal?_rename he, ht.compile_eq_error_iff.1 hp]
    rfl

end Trace
end ArrayTrace
