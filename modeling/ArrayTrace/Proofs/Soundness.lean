import ArrayTrace.Proofs.Semantics
import ArrayTrace.Proofs.Transparency

/-!
# Programs do not go wrong

A compiled program holds every node that it names, and a machine of it never fails once it
has accepted its arguments: whatever was asked of it before, a call answers with arrays of
the declared types, and every variable has a value of its declared type. What carries this
through any number of requests is `Holds`, and that every step of an execution leaves a
value of the type of its node (`Scheduled.exists_effects`).
-/

namespace ArrayTrace

/-- Every node that a step names. -/
def Step.mentioned : Step → List NodeId
  | .single id => [id]
  | .fused root kernel => root :: (kernel.applied ++ kernel.leaves)

/-- A program that holds every node named by its steps, its outputs, and its nodes. -/
structure Program.Closed (p : Program) : Prop where
  step : ∀ step ∈ p.plan.steps, ∀ id ∈ step.mentioned, (p.node? id).isSome
  output : ∀ id ∈ p.plan.outputs, (p.node? id).isSome
  input : ∀ n ∈ p.nodes, ∀ id ∈ n.inputs, (p.node? id).isSome
  target : ∀ n ∈ p.nodes, ∀ id, n.target? = some id → (p.node? id).isSome

/-- What a caller can do with a machine. -/
inductive Use
  | get (name : String)
  | set (name : String) (value : Tensor)
  | call (args : List Tensor)

section
variable [FloatProduct]

/-- The machine after a use; one that it refuses or fails on changes nothing. -/
def Machine.after (m : Machine) : Use → Machine
  | .get _ => m
  | .set name value => (m.set name value).toOption.getD m
  | .call args => ((m.call args).toOption.map Prod.snd).getD m

/-- No use exchanges the program of a machine. -/
theorem Machine.program_after (m : Machine) (use : Use) : (m.after use).program = m.program := by
  cases use with
  | get name => rfl
  | set name value =>
    rw [after]
    cases hset : m.set name value with
    | error e => rfl
    | ok m' => exact Trace.program_of_set hset
  | call args =>
    rw [after]
    cases hcall : m.call args with
    | error e => rfl
    | ok r => exact Trace.program_of_call hcall

theorem Machine.program_uses (m : Machine) (uses : List Use) :
    (uses.foldl after m).program = m.program := by
  induction uses generalizing m with
  | nil => rfl
  | cons use uses ih => exact (ih _).trans (m.program_after use)

end

namespace Trace
variable {t : Trace} {s : Schedule} {p : Program} {options : CompileOptions} {m m' : Machine}
  {n : Node} {id : NodeId} {states μ : Memory} {args : List Tensor} {outputs : List NodeId}

/-! ## Closed programs -/

section
variable (ht : t.Reachable) (hs : t.Scheduled s)
include ht hs

/-- The nodes that the step of a scheduled node names are scheduled. -/
theorem mentioned_stepOf (hid : id ∈ s.nodes) :
    ∀ x ∈ (t.stepOf (t.merged s) id).mentioned, x ∈ s.nodes := by
  intro x hx
  rw [stepOf] at hx
  split at hx
  · rename_i hfused
    have helementwise : t.isElementwise id = true := (Bool.and_eq_true_iff.1 hfused).1
    rw [Step.mentioned, List.mem_cons, List.mem_append] at hx
    rcases hx with rfl | hx | hx
    · exact hid
    · obtain ⟨n, op, inputs, hn, hk, -⟩ := exists_apply_of_isElementwise helementwise
      have hblock : (t.tree (t.merged s) id).applied = t.block (t.merged s) id := by
        rw [block, tree_apply ht.wellFormed hn hk]
      exact (mem_block ht hs hid (hblock ▸ hx)).1
    · exact (mem_roots.1 (leaf_mem_roots ht hs hid helementwise hx)).1
  · rw [Step.mentioned, List.mem_singleton] at hx
    exact hx ▸ hid

theorem Compiled.closed (hp : t.Compiled s options p) : p.Closed := by
  have hwf := ht.wellFormed
  have hfound : ∀ id ∈ s.nodes, (p.node? id).isSome := by
    intro id hid
    rw [hp.node?_eq hwf hs hid]
    exact hs.known hid
  have hinput : ∀ n ∈ p.nodes, ∀ id ∈ n.inputs, (p.node? id).isSome := by
    intro n hn id hid
    obtain ⟨hmem, hnid⟩ := (hp.mem_nodes hwf).1 hn
    exact hfound id (hs.input_mem hnid (inputs_of_node? (hwf.node?_id hmem) ▸ hid))
  refine ⟨fun step hstep id hid => ?_, fun id hid => ?_, hinput, fun n hn id htarget => ?_⟩
  · refine hfound id ?_
    rw [hp.plan_eq] at hstep
    cases hfuse : options.fuse with
    | true =>
      rw [planOf, hfuse, if_pos rfl, steps_fuse] at hstep
      obtain ⟨root, hroot, rfl⟩ := List.mem_map.1 hstep
      exact mentioned_stepOf ht hs (mem_roots.1 hroot).1 id hid
    | false =>
      rw [planOf, hfuse, if_neg (by simp)] at hstep
      obtain ⟨root, hroot, rfl⟩ := List.mem_map.1 hstep
      obtain rfl := List.mem_singleton.1 hid
      exact hroot
  · rw [hp.outputs_eq] at hid
    exact hfound id (hs.output_mem hid)
  · exact hinput n hn id (input_of_target htarget)

end

/-! ## Calls succeed -/

/-- The outputs of an execution that fills its nodes are there and have the types of their
nodes. -/
theorem Filled.exists_results (ht : t.WellFormed) {K : Set NodeId} (hfilled : t.Filled K μ)
    (hknown : ∀ o ∈ outputs, t.contains o = true) (hmem : ∀ o ∈ outputs, o ∈ K) :
    ∃ results, (outputs.mapM fun o => μ (t.home o)) = some results ∧
      results.map Tensor.type = (t.nodesAt outputs).map Node.type := by
  induction outputs with
  | nil => exact ⟨[], rfl, rfl⟩
  | cons o outputs ih =>
    obtain ⟨ho, hrest⟩ := List.forall_mem_cons.1 hknown
    obtain ⟨hoK, hrestK⟩ := List.forall_mem_cons.1 hmem
    obtain ⟨n, hn⟩ := exists_node_of_contains ho
    obtain rfl := ht.id_of_node? hn
    obtain ⟨v, hv, htype⟩ := hfilled n (mem_of_node? hn) hoK
    obtain ⟨results, hresults, htypes⟩ := ih hrest hrestK
    refine ⟨v :: results, ?_, ?_⟩
    · rw [mapM_eq_some] at hresults ⊢
      exact .cons ((home_of_node? ht hn).symm ▸ hv) hresults
    · rw [nodesAt, List.filterMap_cons_some hn, List.map_cons, List.map_cons, htype, htypes]
      rfl

/-- Variables that are held and arguments that are accepted supply an execution. -/
theorem supplied_of_accepts (ht : t.Reachable) (hs : t.Scheduled s) (hp : t.Compiled s options p)
    (hholds : Holds p.nodes states) (h : Accepts (t.passed (t.planOf s options.fuse)) args) :
    t.Supplied s.nodes states (argMemory (t.passed (t.planOf s options.fuse)) args) where
  state := by
    intro n hn hid hstate
    have hmem : n ∈ p.nodes := (hp.mem_nodes ht.wellFormed).2 ⟨hn, hid⟩
    obtain ⟨v, hv⟩ := Option.ne_none_iff_exists'.1
      ((hholds.ne_none_iff n.id).2 ⟨n, hmem, rfl, hstate⟩)
    exact ⟨v, hv, hholds.type_eq n hmem hstate v hv⟩
  placeholder := by
    intro n hn hid hplaceholder
    obtain ⟨v, -, hbound⟩ := exists_argMemory_eq h.length_eq (nodup_map_id_distinct _)
      ((mem_passed_planOf ht hs options.fuse).2 ⟨hn, hid, hplaceholder⟩)
    refine ⟨v, hbound, ?_⟩
    exact typed_argMemory ht.wellFormed
      (fun n hn => ((mem_passed_planOf ht hs options.fuse).1 hn).1) h n hn
      (Node.isStorage_of_isPlaceholder hplaceholder) v hbound

/-! ## Machines -/

/-- A machine of a compiled program that holds its variables. -/
structure Sound (t : Trace) (s : Schedule) (options : CompileOptions) (m : Machine) : Prop where
  compiled : t.Compiled s options m.program
  holds : Holds m.program.nodes m.states.get?

/-- A variable is found under its name. -/
theorem Compiled.get_eq_ok (hp : t.Compiled s options m.program) (ht : t.WellFormed)
    (hn : n ∈ m.program.nodes) (hstate : n.isState = true) {v : Tensor}
    (hv : m.states.get? n.id = some v) : m.get n.name = .ok v := by
  have hid : m.stateId n.name = .ok n.id := by
    simp only [Machine.stateId]
    split
    · rename_i x hfind
      have hname := List.find?_some hfind
      rw [decide_eq_true_eq] at hname
      have hx := hp.mem_trace ht x (List.mem_of_find?_eq_some hfind)
      rw [List.inj_on_of_nodup_map ht.names_nodup hx (hp.mem_trace ht n hn) hname.1]
    · rename_i hnone
      exact absurd (decide_eq_true ⟨rfl, hstate⟩) (List.find?_eq_none.1 hnone n hn)
  show (m.stateId n.name >>= Program.lookup m.states) = .ok v
  rw [hid]
  show Program.lookup m.states n.id = .ok v
  simp [Program.lookup, hv]

theorem Sound.alike (h : t.Sound s options m) : t.Alike s options options m m :=
  ⟨h.compiled, h.compiled, rfl, h.holds⟩

namespace Sound

theorem start (ht : t.WellFormed) (hp : t.Compiled s options p) : t.Sound s options p.start :=
  ⟨hp, .start ht (hp.mem_trace ht)⟩

section
variable (h : t.Sound s options m) (ht : t.Reachable) (hs : t.Scheduled s)
include h ht hs

theorem set {name : String} {value : Tensor} (hset : m.set name value = .ok m') :
    t.Sound s options m' := by
  have hrel := h.alike.set ht hs name value
  rw [hset] at hrel
  have halike : t.Alike s options options m' m' := by simpa [Except.toOption] using hrel
  exact ⟨halike.left, halike.holds⟩

theorem call [FloatProduct] {results : List Tensor}
    (hcall : m.call args = .ok (results, m')) : t.Sound s options m' := by
  have hwf := ht.wellFormed
  have hnodes := h.compiled.mem_trace hwf
  have hprogram : m'.program = m.program := program_of_call hcall
  by_cases haccepts : Accepts (t.passed (t.planOf s options.fuse)) args
  · have htyped : t.Typed (argMemory (t.passed (t.planOf s options.fuse)) args) :=
      typed_argMemory hwf (fun n hn => ((mem_passed_planOf ht hs options.fuse).1 hn).1) haccepts
    have hanswer := toOption_call ht hs h.compiled (h.holds.typed hwf hnodes)
      (h.holds.hidden hwf hnodes hs _) haccepts
    rw [hcall] at hanswer
    exact ⟨hprogram ▸ h.compiled, hprogram ▸ h.holds.answer hwf hnodes htyped hanswer.symm⟩
  · have hnone := toOption_call_eq_none h.compiled.parameters_eq haccepts
    rw [hcall] at hnone
    cases hnone

theorem after [FloatProduct] (use : Use) : t.Sound s options (m.after use) := by
  cases use with
  | get name => exact h
  | set name value =>
    rw [Machine.after]
    cases hset : m.set name value with
    | error e => exact h
    | ok m' => exact h.set ht hs hset
  | call args =>
    rw [Machine.after]
    cases hcall : m.call args with
    | error e => exact h
    | ok r => exact h.call ht hs hcall

/-- A call that accepts its arguments answers with arrays of the declared types. -/
theorem exists_call_eq_ok [FloatProduct] (he : t.Executable)
    (hargs : m.signature.checkArguments args = .ok ()) :
    ∃ results m', m.call args = .ok (results, m') ∧
      results.map Tensor.type = m.signature.outputs.map ArrayDecl.type := by
  have hwf := ht.wellFormed
  have hnodes := h.compiled.mem_trace hwf
  have haccepts := (checkArguments_eq_ok h.compiled.parameters_eq).1 hargs
  obtain ⟨ν, hν, hfilled⟩ := hs.exists_effects ht he
    (supplied_of_accepts ht hs h.compiled h.holds haccepts)
  have hout : ∀ o ∈ s.outputs, o ∈ s.nodes := fun o ho => hs.output_mem ho
  obtain ⟨results, hresults, htypes⟩ :=
    hfilled.exists_results hwf (fun o ho => hs.known (hout o ho)) hout
  have hanswer := toOption_call ht hs h.compiled (h.holds.typed hwf hnodes)
    (h.holds.hidden hwf hnodes hs _) haccepts
  simp only [answer, hν, hresults, Option.bind_eq_bind, Option.bind_some] at hanswer
  obtain ⟨⟨results', m'⟩, hr, he⟩ := Option.map_eq_some_iff.1 hanswer
  obtain rfl : results' = results := congrArg Prod.fst he
  refine ⟨results', m', toOption_eq_some.1 hr, ?_⟩
  have houtputs : m.signature.outputs = (t.nodesAt s.outputs).map Node.decl := by
    have hsignature : m.signature = _ := h.compiled.signature_eq
    rw [hsignature, unitSignature, ← h.compiled.plan_eq, h.compiled.outputs_eq]
  rw [htypes, houtputs, List.map_map]
  rfl

/-- A declared variable has a value of its type. -/
theorem exists_get_eq_ok {decl : ArrayDecl} (hdecl : decl ∈ m.signature.states) :
    ∃ v, m.get decl.name = .ok v ∧ v.type = decl.type := by
  have hwf := ht.wellFormed
  have hstates : m.signature.states = _ := h.compiled.states_eq hs
  rw [hstates] at hdecl
  obtain ⟨n, hn, rfl⟩ := List.mem_map.1 hdecl
  obtain ⟨hn, hstate⟩ := List.mem_filter.1 hn
  rw [← h.compiled.nodes_eq] at hn
  obtain ⟨v, hv⟩ := Option.ne_none_iff_exists'.1 ((h.holds.ne_none_iff n.id).2 ⟨n, hn, rfl, hstate⟩)
  exact ⟨v, h.compiled.get_eq_ok hwf hn hstate hv, h.holds.type_eq n hn hstate v hv⟩

/-- What is true of a machine after any uses. -/
theorem uses [FloatProduct] (us : List Use) : t.Sound s options (us.foldl Machine.after m) := by
  induction us generalizing m with
  | nil => exact h
  | cons u us ih => exact ih (h.after ht hs u)

end
end Sound

/-- Compiling known outputs under a valid unit name gives a closed program. Whatever is done
with a machine of it, a call that accepts its arguments answers with arrays of the declared
types, and each variable has a value of its declared type. -/
theorem Reachable.compile_sound [FloatProduct] (ht : t.Reachable) (he : t.Executable)
    (houtputs : ∀ o ∈ outputs, t.contains o = true) {unitName : String}
    (hname : isIdentifier unitName = true) (fuse : Bool) :
    ∃ p, t.compile outputs { fuse, unitName } = .ok p ∧ p.Closed ∧ ∀ uses : List Use,
      let m := uses.foldl Machine.after p.start
      (∀ args, p.signature.checkArguments args = .ok () →
        ∃ results m', m.call args = .ok (results, m') ∧
          results.map Tensor.type = p.signature.outputs.map ArrayDecl.type) ∧
      ∀ decl ∈ p.signature.states, ∃ v, m.get decl.name = .ok v ∧ v.type = decl.type := by
  have hs := ht.scheduled_needed houtputs
  obtain ⟨p, hp, hcompiled⟩ := ht.compile_eq_ok houtputs { fuse, unitName } rfl hname
  refine ⟨p, hp, hcompiled.closed ht hs, fun uses => ?_⟩
  intro m
  have hsound : t.Sound _ _ m := (Sound.start ht.wellFormed hcompiled).uses ht hs uses
  have hsignature : m.signature = p.signature :=
    hsound.compiled.signature_eq.trans hcompiled.signature_eq.symm
  rw [← hsignature]
  exact ⟨fun args hargs => hsound.exists_call_eq_ok ht hs he hargs,
    fun decl hdecl => hsound.exists_get_eq_ok ht hs hdecl⟩

/-- A variable is set, and a call overwrites it; then calls still succeed. -/
theorem compile_sound_drained :
    ∃ p, drained.compile [⟨0, 4⟩] { fuse := true } = .ok p ∧ p.Closed ∧
      let uses := [Use.set "level" (.vector .i64 [1, 2]), .call [.vector .i64 [3, 4]]]
      ∃ results m', (uses.foldl Machine.after p.start).call [.vector .i64 [5, 6]] =
        .ok (results, m') ∧ results.map Tensor.type = [⟨[2], .i64⟩] := by
  have ht : drained.Reachable := .calls (.start 0 {}) _
  have houtputs : ∀ o ∈ [(⟨0, 4⟩ : NodeId)], drained.contains o = true := by decide
  have hname : isIdentifier "jit_unit" = true := by decide
  obtain ⟨p, hp, hclosed, hall⟩ :=
    Reachable.compile_sound ht ⟨rfl, by decide⟩ houtputs hname true
  have hcompiled := ht.compiled houtputs rfl hname hp
  refine ⟨p, hp, hclosed, ?_⟩
  have htypes : p.signature.outputs.map ArrayDecl.type = [⟨[2], .i64⟩] := by
    rw [hcompiled.signature_eq]
    rfl
  rw [← htypes]
  exact (hall _).1 _ ((checkArguments_eq_ok hcompiled.parameters_eq).2 (.cons rfl .nil))

end Trace
end ArrayTrace
