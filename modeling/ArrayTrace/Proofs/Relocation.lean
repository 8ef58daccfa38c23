import ArrayTrace.Proofs.Placement
import ArrayTrace.Proofs.Preference
import ArrayTrace.Proofs.Variables

/-!
# Values kept in step with code

Where the arrays of a program hold the values that have been computed so far, the code of a node
that moves elements leaves them holding the values after the node has been evaluated. It writes
every place of its array once, and what it reads is what was there beforehand.
-/

namespace ArrayTrace
open C

/-- Whether every array holds the value that is kept there. -/
def EmitScope.Carries (scope : EmitScope) (σ : Names) (μ : Memory) (contents : Contents) : Prop :=
  ∀ id b y, scope.buffer? σ id = some b → μ (scope.trace.home id) = some y →
    ∀ k < y.type.size, contents b k = y.element? k

/-- Arrays that are apart can hold any values. -/
theorem EmitScope.Apart.exists_carries {scope : EmitScope} {σ : Names} (h : scope.Apart σ)
    (μ : Memory) : ∃ contents, scope.Carries σ μ contents := by
  have hheld : ∀ b k, ∃ z : Option Scalar, ∀ id y, scope.buffer? σ id = some b →
      μ (scope.trace.home id) = some y → z = y.element? k := by
    intro b k
    by_cases hany : ∃ id y, scope.buffer? σ id = some b ∧ μ (scope.trace.home id) = some y
    · obtain ⟨id, y, hid, hy⟩ := hany
      refine ⟨y.element? k, fun id' y' hid' hy' => ?_⟩
      rw [(h id' id b b hid' hid).1 rfl, hy] at hy'
      rw [Option.some.inj hy']
    · exact ⟨none, fun id y hid hy => absurd ⟨id, y, hid, hy⟩ hany⟩
  choose contents hcontents using hheld
  exact ⟨contents, fun id b y hb hy k _ => hcontents b k id y hb hy⟩

namespace Emit
variable {scope : EmitScope} {σ : Names} {n : Node} {st : Stmt} {b : Buffer} {ts : List Transfer}
  {states μ ν : Memory} {contents : Contents}

section
variable [FloatProduct] (h : Executes scope σ n b ts) (ht : scope.trace.WellFormed)
  (hn : n ∈ scope.trace.nodes) (hb : scope.buffer? σ n.id = some b)
  (hfilled : scope.trace.Filled {i | i ∈ n.inputs} μ) (hcarries : scope.Carries σ μ contents)
include h ht hn hb hfilled hcarries

/-- Performing the transfers of a node leaves in its array what executing it does, where the
conversions are defined, which they are except in assignments of floats to integers. -/
theorem Executes.run_eq {o : Option Tensor}
    (ho : scope.trace.outcome states μ n = some o) :
    ∃ r, o = some r ∧ r.type = n.type ∧
      (∀ k < n.type.size, (∀ τ ∈ ts, τ.place = k → (τ.value? contents).isSome) →
        run contents ts b k = r.element? k) ∧
      (¬ scope.trace.Truncates n → ∀ τ ∈ ts, (τ.value? contents).isSome) := by
  obtain ⟨r, rfl, htype, hdeliver, hrest⟩ := h.outcome states μ o hfilled ho
  have hread : ∀ τ ∈ ts, (τ.value? contents = none → scope.trace.Truncates n) ∧
      ∀ v, τ.value? contents = some v → r.element? τ.place = some v := by
    intro τ hτ
    obtain ⟨source, z, hsource, hz, horigin, hwritten⟩ := hdeliver τ hτ
    exact hwritten _ (by rw [Transfer.value?, hcarries source τ.source z hsource hz _ horigin])
  refine ⟨r, rfl, htype, fun k hk hdefined => ?_, fun hnot τ hτ => ?_⟩
  · by_cases hplace : k ∈ n.places
    · obtain ⟨τ, hτ, rfl⟩ := List.mem_map.1 (h.places_perm.mem_iff.2 hplace)
      obtain ⟨v, hv⟩ := Option.isSome_iff_exists.1 (hdefined τ hτ rfl)
      have hrun := h.undisturbed.run_eq hτ (μ := contents)
      rw [h.target_eq τ hτ] at hrun
      rw [hrun, hv, (hread τ hτ).2 v hv]
    · obtain ⟨z, hz, hztype, helement⟩ := hrest k hk hplace
      rw [← Trace.home_id ht hn] at hz
      rw [helement, run_of_ne fun τ hτ => .inr fun he => hplace ?_]
      · exact hcarries n.id b z hb hz k (hztype ▸ hk)
      · exact h.places_perm.mem_iff.1 (he ▸ List.mem_map_of_mem hτ)
  · exact Option.isSome_iff_ne_none.2 fun hnone => hnot ((hread τ hτ).1 hnone)

/-- Performing the transfers of a node keeps the arrays in step with executing it, if all
conversions are defined. -/
theorem Executes.carries (hapart : scope.Apart σ)
    (heffect : scope.trace.effect states μ n = some ν)
    (hdefined : ∀ τ ∈ ts, (τ.value? contents).isSome) :
    scope.Carries σ ν (run contents ts) := by
  obtain ⟨o, ho, rfl⟩ := Option.map_eq_some_iff.1 heffect
  obtain ⟨r, rfl, htype, hrun, -⟩ := h.run_eq ht hn hb hfilled hcarries ho
  intro id b' y hb' hy k hk
  have hhome : b' = b ↔ scope.trace.home id = n.dest := by
    rw [hapart id n.id b' b hb' hb, Trace.home_id ht hn]
  by_cases hsame : b' = b
  · obtain rfl := hsame
    rw [hhome.1 rfl, Function.update_self] at hy
    obtain rfl : r = y := Option.some.inj hy
    exact hrun k (htype ▸ hk) fun τ hτ _ => hdefined τ hτ
  · rw [Function.update_of_ne fun he => hsame (hhome.2 he)] at hy
    rw [run_of_ne fun τ hτ => .inl fun he => hsame (he.trans (h.target_eq τ hτ))]
    exact hcarries id b' y hb' hy k hk

end

/-! ## The code of nodes that move elements -/

variable [FloatProduct]

/-- The code of an operation that moves elements, on checked operands. -/
theorem exists_moves {op : Op} {operands : List Node} {preferred : DType} {β : NodeId → Buffer}
    (hop : op.isMovement = true) (hx : ∀ x ∈ operands, scope.trace.node? x.id = some x)
    (hinfer : op.infer (operands.map Node.type) preferred = .ok n.type)
    (hb : scope.buffer? σ n.id = some b) (hβ : ∀ x ∈ operands, scope.buffer? σ x.id = some (β x.id))
    (h : Trace.emitApply scope n op (operands.map Node.id) = .ok st) :
    ∃ ts, st.transfers? σ = some ts ∧ Moves scope σ n op operands b ts := by
  have hfloat : ∀ {x : Node} {rest : List Node}, n.type.dtype =
      Op.commonDType preferred x.type (rest.map Node.type) → ∀ y ∈ x :: rest,
        y.type.dtype.isFloat = true → n.type.dtype ≠ .i64 := by
    intro x rest hcommon y hy hyfloat hint
    have hout := Op.isFloat_commonDType preferred
      (List.mem_map_of_mem (f := Node.type) hy) hyfloat
    rw [← hcommon, hint] at hout
    cases hout
  cases op with
  | transpose =>
    obtain ⟨x, rfl⟩ := List.length_eq_one_iff.1 (by simpa using Op.length_of_infer hinfer rfl)
    exact moves_transpose (hx x List.mem_cons_self)
      (congrArg TensorType.shape (Op.infer_transpose_eq_ok hinfer)) hb (hβ x List.mem_cons_self) h
  | slice selection =>
    obtain ⟨x, rfl⟩ := List.length_eq_one_iff.1 (by simpa using Op.length_of_infer hinfer rfl)
    obtain ⟨w, hw, htype⟩ := Op.infer_slice_eq_ok hinfer
    exact moves_slice (hx x List.mem_cons_self) hw (congrArg TensorType.shape htype) hb
      (hβ x List.mem_cons_self) h
  | concat axis =>
    cases operands with
    | nil => cases hinfer
    | cons x rest =>
      obtain ⟨s, hs, htype⟩ := Op.infer_concat_eq_ok hinfer
      have hshape : n.type.shape = s := by rw [htype]
      rw [← hshape, ← List.map_cons, List.map_map] at hs
      exact moves_concat hx (hfloat (by rw [htype])) hs hb hβ h
  | stack =>
    cases operands with
    | nil => cases hinfer
    | cons x rest =>
      obtain ⟨hshapes, htype⟩ := Op.infer_stack_eq_ok hinfer
      refine moves_stack hx (hfloat (by rw [htype]))
        (fun y hy => hshapes _ (List.mem_map_of_mem hy)) ?_ hb hβ h
      rw [htype, List.length_map]
  | _ => cases hop

omit [FloatProduct] in
/-- What a node reads is not kept in an array of the node's own. -/
theorem home_ne_of_input (ht : scope.trace.WellFormed) (hn : n ∈ scope.trace.nodes)
    {x : Node} (hx : scope.trace.node? x.id = some x) (hinput : x.id ∈ n.inputs) :
    scope.trace.home x.id ≠ n.id := by
  intro he
  have hlt := (ht.input_known hn x.id hinput).2
  rcases Trace.home_eq_or_mem_inputs hx with hhome | hhome
  · rw [← he, hhome] at hlt
    exact Nat.lt_irrefl _ hlt
  · have hlt' := (ht.input_known (Trace.mem_of_node? hx) _ hhome).2
    rw [he] at hlt'
    omega

theorem exists_executes_apply (ht : scope.trace.WellFormed) (hn : n ∈ scope.trace.nodes) {op : Op}
    {inputs : List NodeId} (hk : n.kind = .apply op inputs) (hop : op.isMovement = true)
    (hapart : scope.Apart σ) (hb : scope.buffer? σ n.id = some b)
    (hbuffer : ∀ i ∈ inputs, ∃ b, scope.buffer? σ i = some b)
    (h : Trace.emitApply scope n op inputs = .ok st) :
    ∃ ts, st.transfers? σ = some ts ∧ Executes scope σ n b ts := by
  obtain ⟨operands, hops, hinfer⟩ := ht.operands hn hk
  obtain rfl : inputs = operands.map Node.id := by
    rw [← List.forall₂_eq_eq_eq, List.forall₂_map_right_iff]
    exact hops.imp fun i x hx => (ht.id_of_node? hx).symm
  have hx : ∀ x ∈ operands, scope.trace.node? x.id = some x :=
    List.forall₂_same.1 (List.forall₂_map_left_iff.1 hops)
  have hβ : ∀ i, ∃ β, i ∈ operands.map Node.id → scope.buffer? σ i = some β := by
    intro i
    by_cases hi : i ∈ operands.map Node.id
    · exact (hbuffer i hi).imp fun _ hβ _ => hβ
    · exact ⟨b, fun hi' => absurd hi' hi⟩
  choose β hβ using hβ
  have hβ : ∀ x ∈ operands, scope.buffer? σ x.id = some (β x.id) :=
    fun x hx => hβ x.id (List.mem_map_of_mem hx)
  obtain ⟨ts, hts, hmoves⟩ := exists_moves hop hx hinfer hb hβ h
  refine ⟨ts, hts, hmoves.executes ht hk hop rfl hx hinfer fun x hmem hsame => ?_⟩
  have hinput : x.id ∈ n.inputs := by
    rw [Node.inputs, hk]
    exact List.mem_map_of_mem hmem
  refine home_ne_of_input ht hn (hx x hmem) hinput (((hapart _ _ b b hsame hb).1 rfl).trans ?_)
  rw [Trace.home_id ht hn, Node.dest, Node.target?, hk]
  rfl

theorem exists_executes_assign (ht : scope.trace.WellFormed) (hn : n ∈ scope.trace.nodes)
    {target value : NodeId} {selection : Selection} (hk : n.kind = .assign target selection value)
    (hapart : scope.Apart σ) (hb : scope.buffer? σ n.id = some b)
    (hbuffer : ∀ i ∈ [target, value], ∃ b, scope.buffer? σ i = some b)
    (h : assign scope n target selection value = .ok st) :
    ∃ ts, st.transfers? σ = some ts ∧ Executes scope σ n b ts := by
  obtain ⟨x, v, w, hx, hv, htype, hw, -, hspreads⟩ := ht.spreadsTo_of_assign hn hk
  obtain rfl := ht.id_of_node? hx
  obtain rfl := ht.id_of_node? hv
  have hdest : n.dest = x.id := by
    rw [Node.dest, Node.target?, hk]
    rfl
  have hhome : scope.trace.home x.id = x.id :=
    Trace.home_of_target ht hn (by rw [Node.target?, hk])
  obtain ⟨b', hb'⟩ := hbuffer x.id List.mem_cons_self
  obtain ⟨β, hβ⟩ := hbuffer v.id (List.mem_cons_of_mem _ List.mem_cons_self)
  obtain rfl : b' = b := (hapart _ _ _ _ hb' hb).2 (by rw [hhome, Trace.home_id ht hn, hdest])
  refine ⟨_, transfers?_assign hx hv hw hspreads hb' hβ h,
    executes_assign ht hk hx hv htype hw hspreads hβ (fun hsame => ?_) hhome⟩
  have hvhome := (hapart _ _ _ _ hβ hb').1 hsame
  rw [Trace.home_of_node? ht hv, hhome, ← hdest] at hvhome
  rw [Trace.type_eq_of_dest_eq ht (Trace.mem_of_node? hv) hn hvhome, htype]

omit [FloatProduct] in
theorem assign_of_emitStep (ht : scope.trace.WellFormed) (hn : n ∈ scope.trace.nodes)
    {target value : NodeId} {selection : Selection}
    (hk : n.kind = .assign target selection value)
    (h : Trace.emitStep scope (.single n.id) = .ok st) :
    assign scope n target selection value = .ok st := by
  rw [Trace.emitStep] at h
  replace h := Except.of_bind_eq_ok h (node_of_node? (ht.node?_id hn))
  rwa [hk] at h

/-- The code of a node that moves elements has the effect of executing it. -/
theorem exists_executes (ht : scope.trace.WellFormed) (hn : n ∈ scope.trace.nodes)
    (hmove : n.isMovement = true) (hapart : scope.Apart σ)
    (hbuffer : ∀ i ∈ n.id :: n.inputs, ∃ b, scope.buffer? σ i = some b)
    (h : Trace.emitStep scope (.single n.id) = .ok st) :
    ∃ b ts, scope.buffer? σ n.id = some b ∧ st.transfers? σ = some ts ∧
      Executes scope σ n b ts := by
  obtain ⟨⟨b, hb⟩, hbuffer⟩ := List.forall_mem_cons.1 hbuffer
  cases hk : n.kind with
  | apply op inputs =>
    rw [Node.isMovement, hk] at hmove
    rw [Node.inputs, hk] at hbuffer
    rw [Trace.emitStep] at h
    replace h := Except.of_bind_eq_ok h (node_of_node? (ht.node?_id hn))
    simp only [hk] at h
    exact ⟨b, (exists_executes_apply ht hn hk hmove hapart hb hbuffer h).imp fun _ h => ⟨hb, h⟩⟩
  | assign target selection value =>
    rw [Node.inputs, hk] at hbuffer
    replace h := assign_of_emitStep ht hn hk h
    exact ⟨b, (exists_executes_assign ht hn hk hapart hb hbuffer h).imp fun _ h => ⟨hb, h⟩⟩
  | _ => simp [Node.isMovement, hk] at hmove

/-- The code of a node has the effect of evaluating the node, as far as its conversions are
defined. -/
structure Refines (scope : EmitScope) (σ : Names) (p : Program) (n : Node) (st : Stmt)
    (b : Buffer) (ts : List Transfer) : Prop where
  transfers_eq : st.transfers? σ = some ts
  /-- It writes into the array of the node, to each place that the node writes once. -/
  buffer_eq : scope.buffer? σ n.id = some b
  target_eq : ∀ τ ∈ ts, τ.target = b
  places_perm : (ts.map Transfer.place).Perm n.places
  /-- It writes what was there to read beforehand, or leaves it undefined. -/
  run_eq : ∀ (contents : Contents), ∀ τ ∈ ts, run contents ts b τ.place = τ.value? contents
  /-- Where the inputs have been evaluated, evaluating the node succeeds. -/
  exists_eval : scope.trace.Executable → ∀ states values : Store,
    scope.trace.Filled {i | i ∈ n.inputs} values.get? →
    ∃ values', p.evalNode states values n = .ok values'
  /-- What evaluating the node gives is left in its array where the conversions are defined, which
  they are except in assignments of floats to integers. If all are, the other arrays stay. -/
  carries : ∀ (states values values' : Store) (contents : Contents),
    scope.trace.Filled {i | i ∈ n.inputs} values.get? →
    p.evalNode states values n = .ok values' → scope.Carries σ values.get? contents →
    ∃ r, values'.get? n.dest = some r ∧ r.type = n.type ∧
      (∀ k < n.type.size, (∀ τ ∈ ts, τ.place = k → (τ.value? contents).isSome) →
        run contents ts b k = r.element? k) ∧
      (¬ scope.trace.Truncates n → ∀ τ ∈ ts, (τ.value? contents).isSome) ∧
      ((∀ τ ∈ ts, (τ.value? contents).isSome) → scope.Carries σ values'.get? (run contents ts))

theorem Executes.refines (h : Executes scope σ n b ts) (ht : scope.trace.WellFormed)
    (hn : n ∈ scope.trace.nodes) (hmove : n.isMovement = true) (hapart : scope.Apart σ)
    (hb : scope.buffer? σ n.id = some b) (hts : st.transfers? σ = some ts) {p : Program}
    (hp : ∀ i ∈ n.inputs, p.node? i = scope.trace.node? i) : Refines scope σ p n st b ts where
  transfers_eq := hts
  buffer_eq := hb
  target_eq := h.target_eq
  places_perm := h.places_perm
  run_eq := by
    intro contents τ hτ
    have hrun := h.undisturbed.run_eq hτ (μ := contents)
    rwa [h.target_eq τ hτ] at hrun
  exists_eval := by
    intro he states values hfilled
    have hkind := Node.of_isMovement hmove
    obtain ⟨v, hv, -⟩ : ∃ v, scope.trace.outcome states.get? values.get? n = some (some v) ∧
        v.type = n.type := Trace.exists_outcome ht he hn
      (fun hstate => absurd hstate (by simp [hkind.1]))
      (fun hplaceholder => absurd hplaceholder (by simp [hkind.2.1]))
      fun i hi x hx => hfilled.exists_home ht hx hi
    obtain ⟨values', hvalues', -⟩ :=
      Program.exists_evalNode hp (congrArg (Option.map (Function.update values.get? n.dest)) hv)
    exact ⟨values', hvalues'⟩
  carries := by
    intro states values values' contents hfilled heval hcarries
    have heffect := Program.toOption_evalNode states values hp
    rw [heval] at heffect
    have heffect : scope.trace.effect states.get? values.get? n = some values'.get? :=
      heffect.symm
    obtain ⟨o, ho, hvalues'⟩ := Option.map_eq_some_iff.1 heffect
    obtain ⟨r, rfl, htype, hrun, hdefined⟩ := h.run_eq ht hn hb hfilled hcarries ho
    have hr : values'.get? n.dest = some r := by rw [← hvalues', Function.update_self]
    exact ⟨r, hr, htype, hrun, hdefined, h.carries ht hn hb hfilled hcarries hapart heffect⟩

end Emit

/-! ## Compiled programs -/

namespace Trace
variable {t : Trace} {s : Schedule} {p : Program} {n : Node} {outputs : List NodeId}
  {options : CompileOptions}

/-- Nodes that move elements are never fused. -/
theorem single_mem_steps (ht : t.WellFormed) (hs : t.Scheduled s) (fuse : Bool)
    (hn : n ∈ t.nodes) (hmem : n.id ∈ s.nodes) (hmove : n.isMovement = true) :
    .single n.id ∈ (t.planOf s fuse).steps := by
  have hnot : t.isElementwise n.id = false := by
    simp [isElementwise, ht.node?_id hn, (Node.of_isMovement hmove).2.2]
  cases fuse with
  | false => exact List.mem_map_of_mem hmem
  | true =>
    refine List.mem_map.2 ⟨n.id, mem_roots.2 ⟨hmem, fun hmerged => ?_⟩, ?_⟩
    · simp [((merged_iff hs).1 hmerged).elementwise] at hnot
    · rw [hnot]
      rfl

/-- The code of steps leaves the names in scope as they are bound in the beginning. -/
theorem after_bindings_append (ht : t.Reachable) (hs : t.Scheduled s) {fuse : Bool}
    {storage : List (NodeId × Storage)} (hready : t.Ready (t.planOf s fuse))
    (hnodup : (t.planOf s fuse).roots.Nodup)
    (hstorage : storageOf (t.nodesAt (t.planOf s fuse).roots) (t.assigned (t.planOf s fuse)) =
      .ok storage) {sts : List Stmt}
    (hsts : ∀ st ∈ sts, ∃ step ∈ (t.planOf s fuse).steps, emitStep ⟨t, storage⟩ step = .ok st) :
    (Stmt.all (t.bindings (t.planOf s fuse) ++ sts)).after SourceFile.callNames =
      t.bound (t.planOf s fuse) := by
  have hconfined : ∀ st ∈ sts, Stmt.Confined ((t.unitOf (t.planOf s fuse) "" [] []).extent?
      (t.unitSignature (t.planOf s fuse) "")) (t.bound (t.planOf s fuse)) st := by
    intro st hst
    obtain ⟨step, hstep, hemit⟩ := hsts st hst
    exact confined_emitStep ht hs hstep (backed_bound ht.wellFormed hready hnodup hstorage) hemit
  exact Stmt.after_all_append.trans (Stmt.confined_all hconfined).after_eq

/-- The code of a compiled program for a node that moves elements, in which all arrays that it
needs are apart. -/
theorem Reachable.exists_code (ht : t.Reachable) (hp : t.compile outputs options = .ok p)
    (hn : n ∈ p.nodes) (hmove : n.isMovement = true) :
    ∃ u storage before st after,
      t.unit p.plan options.unitName = .ok (u, p.signature) ∧ p.unit.source = u.render ∧
      t.placement p.plan = .ok storage ∧ u.body = .all (before ++ st :: after) ∧
      emitStep ⟨t, storage⟩ (.single n.id) = .ok st ∧
      (∀ i ∈ n.id :: n.inputs, ∃ b, EmitScope.buffer? ⟨t, storage⟩
        ((Stmt.all before).after SourceFile.callNames) i = some b) ∧
      EmitScope.Apart ⟨t, storage⟩ ((Stmt.all before).after SourceFile.callNames) := by
  have hwf := ht.wellFormed
  obtain ⟨-, houtputs, -, hcompiled⟩ := ht.of_compile_eq_ok hp
  have hs := ht.scheduled_needed houtputs
  obtain ⟨hnode, hmem⟩ := (hcompiled.mem_nodes hwf).1 hn
  obtain ⟨hready, hnodup, storage, steps, results, hstorage, hsteps, -, hunit, hsource⟩ :=
    ht.exists_storage_of_compile hp
  have hstep : .single n.id ∈ p.plan.steps :=
    hcompiled.plan_eq ▸ single_mem_steps hwf hs options.fuse hnode hmem hmove
  have hforall := Except.mapM_eq_ok.1 hsteps
  obtain ⟨st, hst, hemit⟩ := exists_of_forall₂ hforall hstep
  obtain ⟨before, after, rfl⟩ := List.append_of_mem hst
  have hbody : (t.unitOf p.plan options.unitName (before ++ st :: after) results).body =
      .all ((t.bindings p.plan ++ before) ++ st :: (after ++ results)) := by
    simp [unitOf]
  have hnames : (Stmt.all (t.bindings p.plan ++ before)).after SourceFile.callNames =
      t.bound p.plan := by
    rw [hcompiled.plan_eq] at hready hnodup hstorage hforall ⊢
    exact after_bindings_append ht hs hready hnodup hstorage fun st' hst' =>
      exists_of_forall₂ hforall.flip (List.mem_append_left _ hst')
  have hbuffer : ∀ i ∈ n.id :: n.inputs,
      ∃ b, EmitScope.buffer? ⟨t, storage⟩ (t.bound p.plan) i = some b := by
    refine List.forall_mem_cons.2 ⟨exists_buffer hwf hready hstorage
      (List.mem_map_of_mem hstep), fun i hi => exists_buffer hwf hready hstorage ?_⟩
    refine hready.read_mem i (List.mem_flatMap.2 ⟨_, hstep, ?_⟩)
    rwa [← inputs_of_node? (hwf.node?_id hnode)] at hi
  refine ⟨_, storage, t.bindings p.plan ++ before, st, after ++ results, hunit, hsource,
    Except.bind_eq_ok.2 ⟨_, nodesOf_eq hready.root_known, hstorage⟩, hbody, hemit, ?_⟩
  rw [hnames]
  exact ⟨hbuffer, apart_bound hwf hready hstorage⟩

/-- What the code of a compiled program does for a node that moves elements: it writes the
elements that evaluating the node puts there, to each place once, as if it read all of them
beforehand. Only an assignment of floats to integers can leave undefined what it writes, where
the integral part of a float is no 64-bit integer. -/
theorem Reachable.compile_refines [FloatProduct] (ht : t.Reachable)
    (hp : t.compile outputs options = .ok p) (hn : n ∈ p.nodes) (hmove : n.isMovement = true) :
    ∃ u storage before st after b ts,
      t.unit p.plan options.unitName = .ok (u, p.signature) ∧ p.unit.source = u.render ∧
      t.placement p.plan = .ok storage ∧ u.body = .all (before ++ st :: after) ∧
      emitStep ⟨t, storage⟩ (.single n.id) = .ok st ∧
      Emit.Refines ⟨t, storage⟩ ((Stmt.all before).after SourceFile.callNames) p n st b ts := by
  have hwf := ht.wellFormed
  obtain ⟨-, houtputs, -, hcompiled⟩ := ht.of_compile_eq_ok hp
  have hs := ht.scheduled_needed houtputs
  obtain ⟨hnode, hmem⟩ := (hcompiled.mem_nodes hwf).1 hn
  obtain ⟨u, storage, before, st, after, hunit, hsource, hplacement, hbody, hemit, hbuffer,
    hapart⟩ := ht.exists_code hp hn hmove
  obtain ⟨b, ts, hb, hts, hexecutes⟩ :=
    Emit.exists_executes hwf hnode hmove hapart hbuffer hemit
  refine ⟨u, storage, before, st, after, b, ts, hunit, hsource, hplacement, hbody, hemit, ?_⟩
  exact hexecutes.refines hwf hnode hmove hapart hb hts fun i hi =>
    hcompiled.node?_input hwf hs (hwf.node?_id hnode) hmem hi

/-- An array, joined with one that has no elements, of which an element is overwritten, and which
is then assigned to itself. -/
def echoed : Trace :=
  [Call.placeholder "x" [2] .i64, .placeholder "e" [0] .bool,
    .apply (.concat 0) [⟨0, 0⟩, ⟨0, 1⟩], .apply (.slice [.range 0 1 1]) [⟨0, 2⟩],
    .assign ⟨0, 0⟩ [.range 1 2 1] ⟨0, 3⟩, .assign ⟨0, 0⟩ [] ⟨0, 4⟩].foldl
    Trace.after { id := 0 }

/-- The joined array is written once from its parts, and the array that is assigned to itself
from itself. -/
theorem compile_refines_echoed :
    ∃ p, echoed.compile [⟨0, 5⟩, ⟨0, 2⟩] {} = .ok p ∧ ∀ id ∈ [(⟨0, 2⟩ : NodeId), ⟨0, 5⟩],
      ∃ n ∈ p.nodes, n.id = id ∧ n.isMovement = true ∧ n.places = [0, 1] ∧
        ∃ u storage before st after b ts,
          echoed.unit p.plan "jit_unit" = .ok (u, p.signature) ∧ p.unit.source = u.render ∧
          echoed.placement p.plan = .ok storage ∧ u.body = .all (before ++ st :: after) ∧
          emitStep ⟨echoed, storage⟩ (.single n.id) = .ok st ∧
          Emit.Refines ⟨echoed, storage⟩ ((Stmt.all before).after SourceFile.callNames) p n st
            b ts := by
  have ht : echoed.Reachable := .calls (.start 0 {}) _
  have houtputs : ∀ o ∈ [(⟨0, 5⟩ : NodeId), ⟨0, 2⟩], echoed.contains o = true := by decide
  obtain ⟨p, hp, hcompiled⟩ := ht.compile_eq_ok houtputs {} rfl (by decide)
  have hneeded : ∀ id ∈ [(⟨0, 2⟩ : NodeId), ⟨0, 5⟩],
      id ∈ echoed.needed [⟨0, 5⟩, ⟨0, 2⟩] ∧
        ((echoed.node? id).any fun n => n.isMovement && n.places = [0, 1]) = true := by decide
  refine ⟨p, hp, fun id hid => ?_⟩
  obtain ⟨hmem, hany⟩ := hneeded id hid
  obtain ⟨n, hn⟩ := exists_node_of_contains ((ht.scheduled_needed houtputs).known hmem)
  obtain rfl := ht.wellFormed.id_of_node? hn
  rw [hn, Option.any_some, Bool.and_eq_true, decide_eq_true_eq] at hany
  have hnode := (hcompiled.mem_nodes ht.wellFormed).2 ⟨mem_of_node? hn, hmem⟩
  exact ⟨n, hnode, rfl, hany.1, hany.2, ht.compile_refines hp hnode hany.1⟩

/-- A float assigned into an array of integers. -/
def truncating : Trace :=
  [Call.placeholder "x" [1] .f64, .state "v" ⟨.i64, .vector [0]⟩, .assign ⟨0, 1⟩ [] ⟨0, 0⟩].foldl
    Trace.after { id := 0 }

/-- What its arrays hold before the assignment, where the float is larger than all integers. -/
def beyond : Store := ⟨[(⟨0, 0⟩, ⟨.f64, .vector [1e19]⟩), (⟨0, 1⟩, ⟨.i64, .vector [0]⟩)]⟩

/-- Its code is one transfer, into the array of the variable. -/
theorem transfers?_truncating {storage : List (NodeId × Storage)} {σ : Names} {b β : Buffer}
    {st : Stmt} (hb : EmitScope.buffer? ⟨truncating, storage⟩ σ ⟨0, 1⟩ = some b)
    (hβ : EmitScope.buffer? ⟨truncating, storage⟩ σ ⟨0, 0⟩ = some β)
    (h : emitStep ⟨truncating, storage⟩ (.single ⟨0, 2⟩) = .ok st) :
    st.transfers? σ = some [⟨b, 0, β, 0, [.i64]⟩] := by
  have hwf : truncating.WellFormed := (Reachable.calls (.start 0 {}) _).wellFormed
  obtain ⟨x, hx, hxtype⟩ : ∃ x, truncating.node? ⟨0, 1⟩ = some x ∧ x.type = ⟨[1], .i64⟩ :=
    ⟨_, rfl, rfl⟩
  obtain ⟨v, hv, hvtype⟩ : ∃ v, truncating.node? ⟨0, 0⟩ = some v ∧ v.type = ⟨[1], .f64⟩ :=
    ⟨_, rfl, rfl⟩
  obtain ⟨n, hn, hk⟩ : ∃ n, truncating.node? ⟨0, 2⟩ = some n ∧
      n.kind = .assign ⟨0, 1⟩ [] ⟨0, 0⟩ := ⟨_, rfl, rfl⟩
  have hw : Selection.resolve [] x.type.shape = .ok [⟨⟨0, 1⟩, true⟩] := by
    rw [hxtype]
    rfl
  rw [← hwf.id_of_node? hn] at h
  have hassign := Emit.assign_of_emitStep hwf (mem_of_node? hn) hk h
  have hxid := hwf.id_of_node? hx
  have hvid := hwf.id_of_node? hv
  rw [← hxid] at hx hb hassign
  rw [← hvid] at hv hβ hassign
  rw [Emit.transfers?_assign hx hv hw (by rw [hvtype]; rfl) hb hβ hassign, Emit.assignTransfers,
    hxtype, hvtype]
  rfl

/-- Evaluating the assignment stores the largest integer. -/
theorem effect_truncating [FloatProduct] (states : Memory) {n : Node}
    (hk : n.kind = .assign ⟨0, 1⟩ [] ⟨0, 0⟩) :
    truncating.effect states beyond.get? n =
      some (Function.update beyond.get? n.dest (some ⟨.i64, .vector [Int64.maxValue]⟩)) := by
  rw [effect, outcome]
  simp only [hk]
  rfl

/-- Evaluating the assignment stores the largest integer, and what its code stores is
undefined. -/
theorem run_truncating :
    ∃ p, truncating.compile [⟨0, 2⟩] {} = .ok p ∧ ∃ n ∈ p.nodes, n.id = ⟨0, 2⟩ ∧
      n.isMovement = true ∧ ∃ u storage before st after b ts,
        truncating.unit p.plan "jit_unit" = .ok (u, p.signature) ∧ p.unit.source = u.render ∧
        truncating.placement p.plan = .ok storage ∧ u.body = .all (before ++ st :: after) ∧
        emitStep ⟨truncating, storage⟩ (.single n.id) = .ok st ∧
        EmitScope.buffer? ⟨truncating, storage⟩ ((Stmt.all before).after SourceFile.callNames)
          n.id = some b ∧
        st.transfers? ((Stmt.all before).after SourceFile.callNames) = some ts ∧
        ∃ contents, EmitScope.Carries ⟨truncating, storage⟩
            ((Stmt.all before).after SourceFile.callNames) beyond.get? contents ∧
          ∃ values r, p.evalNode p.initialStates beyond n = .ok values ∧
            values.get? n.dest = some r ∧ r.element? 0 = some ⟨.i64, Int64.maxValue⟩ ∧
            run contents ts b 0 = none := by
  have ht : truncating.Reachable := .calls (.start 0 {}) _
  have hwf := ht.wellFormed
  have houtputs : ∀ o ∈ [(⟨0, 2⟩ : NodeId)], truncating.contains o = true := by decide
  have hs := ht.scheduled_needed houtputs
  obtain ⟨p, hp, hcompiled⟩ := ht.compile_eq_ok houtputs {} rfl (by decide)
  obtain ⟨n, hn, hk⟩ : ∃ n, truncating.node? ⟨0, 2⟩ = some n ∧
      n.kind = .assign ⟨0, 1⟩ [] ⟨0, 0⟩ := ⟨_, rfl, rfl⟩
  have hnid := hwf.id_of_node? hn
  have hmem := mem_of_node? hn
  have hneeded : ⟨0, 2⟩ ∈ truncating.needed [⟨0, 2⟩] := by decide
  have hmove : n.isMovement = true := by rw [Node.isMovement, hk]
  have hinputs : n.inputs = [⟨0, 1⟩, ⟨0, 0⟩] := by rw [Node.inputs, hk]
  have hnode : n ∈ p.nodes := (hcompiled.mem_nodes hwf).2 ⟨hmem, hnid ▸ hneeded⟩
  obtain ⟨u, storage, before, st, after, hunit, hsource, hplacement, hbody, hemit, hbuffer,
    hapart⟩ := ht.exists_code hp hnode hmove
  obtain ⟨b, hb⟩ := hbuffer ⟨0, 1⟩ (by simp [hinputs])
  obtain ⟨b', hb'⟩ := hbuffer n.id List.mem_cons_self
  obtain ⟨β, hβ⟩ := hbuffer ⟨0, 0⟩ (by simp [hinputs])
  obtain rfl : b = b' := (hapart _ _ _ _ hb hb').2 (by rw [hnid]; rfl)
  obtain ⟨contents, hcontents⟩ := hapart.exists_carries beyond.get?
  obtain ⟨values, hvalues, hget⟩ := Program.exists_evalNode
    (fun i hi => hcompiled.node?_input hwf hs hn hneeded hi)
    (effect_truncating p.initialStates.get? hk)
  refine ⟨p, hp, n, hnode, hnid, hmove, u, storage, before, st, after, b, _, hunit, hsource,
    hplacement, hbody, hemit, hb', transfers?_truncating hb hβ (hnid ▸ hemit), contents, hcontents,
    values, _, hvalues, by rw [hget, Function.update_self], rfl, ?_⟩
  have hread : contents β 0 = some ⟨.f64, 1e19⟩ :=
    hcontents ⟨0, 0⟩ β ⟨.f64, .vector [1e19]⟩ hβ rfl 0 Nat.one_pos
  have hnone : Scalar.to? ⟨.f64, 1e19⟩ .i64 = none := by decide +kernel
  have hvalue : Transfer.value? ⟨b, 0, β, 0, [.i64]⟩ contents = none := by
    rw [Transfer.value?, hread, Option.bind_some, List.foldlM_cons, hnone]
    rfl
  exact Transfer.perform_self.trans hvalue

end Trace
end ArrayTrace
