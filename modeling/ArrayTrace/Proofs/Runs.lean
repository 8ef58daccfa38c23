import ArrayTrace.Proofs.Compilation

/-!
# Runs of compiled programs

The steps of a compiled program leave the same values as executing the scheduled nodes one
by one, except for the merged nodes, whose values a fused program does not keep. A kernel
computes what its nodes leave behind when they are executed in order.
-/

namespace ArrayTrace

theorem Program.increasing_nodesAt {t : Trace} (ht : t.WellFormed) {ids : List NodeId}
    (hids : NodeId.Ascending ids) (hknown : ∀ id ∈ ids, t.contains id = true) :
    Program.Increasing (t.nodesAt ids) := by
  rw [← ht.map_id_nodesAt hknown, NodeId.Ascending, List.pairwise_map] at hids
  exact hids

namespace Trace
variable {t : Trace} {s : Schedule} {p : Program} {options : CompileOptions}
  {states μ ν : Memory} {n x : Node} {id : NodeId} {values : Store}

/-- A compiled program knows the scheduled nodes as the trace does. -/
theorem Compiled.node?_eq (hp : t.Compiled s options p) (ht : t.WellFormed) (hs : t.Scheduled s)
    (hid : id ∈ s.nodes) : p.node? id = t.node? id := by
  have hincreasing : Program.Increasing p.nodes :=
    hp.nodes_eq ▸ Program.increasing_nodesAt ht hs.ascending fun id hid => hs.known hid
  refine Option.ext fun n => (Program.node?_eq_some hincreasing).trans ?_
  rw [hp.nodes_eq, ht.mem_nodesAt, ht.node?_eq_some, and_assoc]
  exact ⟨fun h => ⟨h.1, h.2.2⟩, fun h => ⟨h.1, h.2 ▸ hid, h.2⟩⟩

/-- It knows the inputs of scheduled nodes as well. -/
theorem Compiled.node?_input (hp : t.Compiled s options p) (ht : t.WellFormed) (hs : t.Scheduled s)
    (hn : t.node? id = some n) (hid : id ∈ s.nodes) {i : NodeId} (hi : i ∈ n.inputs) :
    p.node? i = t.node? i := by
  rw [← inputs_of_node? hn] at hi
  exact hp.node?_eq ht hs (hs.input_mem hid hi)

/-! ## Kernels -/

/-- Two memories that agree except at merged nodes. -/
def AgreeOff (M : List NodeId) (μ ν : Memory) : Prop := ∀ id, id ∉ M → μ id = ν id

theorem AgreeOff.update {M : List NodeId} (h : AgreeOff M μ ν) (id : NodeId) (v : Option Tensor) :
    AgreeOff M (Function.update μ id v) (Function.update ν id v) := by
  intro x hx
  by_cases he : x = id
  · rw [he, Function.update_self, Function.update_self]
  · rw [Function.update_of_ne he, Function.update_of_ne he, h x hx]

theorem home_not_merged (ht : t.WellFormed) (hs : t.Scheduled s) (hid : t.contains id = true)
    (hm : id ∉ t.merged s) : t.home id ∉ t.merged s := by
  obtain ⟨n, hn⟩ := exists_node_of_contains hid
  rw [home, hn, Option.bind_some]
  cases htarget : n.target? with
  | none => exact hm
  | some target =>
    obtain ⟨y, hy, hstorage, -⟩ := isStorage_of_target ht (mem_of_node? hn) htarget
    exact not_merged_of_isStorage hs hy hstorage

theorem dest_of_isElementwise (h : t.isElementwise id = true) (hn : t.node? id = some n) :
    n.dest = n.id ∧ t.home id = id := by
  obtain ⟨n', op, inputs, hn', hk, -⟩ := exists_apply_of_isElementwise h
  rw [hn] at hn'
  cases hn'
  simp [Node.dest, home, hn, Node.target?, hk]

/-- Executing an operation computes it from the values of its inputs. -/
theorem effect_apply [FloatProduct] {op : Op} {inputs : List NodeId}
    (hk : n.kind = .apply op inputs) :
    t.effect states μ n =
      ((inputs.mapM fun i => μ (t.home i)).bind fun args =>
        (op.eval args n.type).toOption).map fun v => Function.update μ n.id (some v) := by
  rw [effect, outcome, Node.dest]
  simp only [hk, Node.target?, Option.getD_none]
  cases inputs.mapM fun i => μ (t.home i) with
  | none => rfl
  | some args =>
    cases hv : (op.eval args n.type).toOption <;> simp [hv]

section
variable (ht : t.Reachable) (hs : t.Scheduled s) (hp : t.Compiled s options p)
include ht hs

/-- A node that is not merged, and neither are its inputs, reads no merged node. -/
theorem sources_not_merged (hid : id ∈ s.nodes) (hn : t.node? id = some n) (hm : id ∉ t.merged s)
    (hinputs : ∀ i ∈ t.inputs id, i ∉ t.merged s) {x : NodeId} (hx : x ∈ t.sources n) :
    x ∉ t.merged s := by
  obtain rfl := ht.wellFormed.id_of_node? hn
  have hhome : ∀ i ∈ n.inputs, t.home i ∉ t.merged s := by
    intro i hi
    have hi : i ∈ t.inputs n.id := inputs_of_node? hn ▸ hi
    exact home_not_merged ht.wellFormed hs (hs.known (hs.input_mem hid hi)) (hinputs i hi)
  cases hk : n.kind with
  | placeholder =>
    simp only [sources, hk, List.mem_singleton] at hx
    exact hx ▸ hm
  | apply op inputs =>
    simp only [sources, hk, List.mem_map] at hx
    obtain ⟨i, hi, rfl⟩ := hx
    exact hhome i (by simpa [Node.inputs, hk] using hi)
  | assign target selection value =>
    simp only [sources, hk, List.mem_cons, List.not_mem_nil, or_false] at hx
    rcases hx with rfl | rfl
    · exact hinputs _ (by simp [inputs_of_node? hn, Node.inputs, hk])
    · exact hhome value (by simp [Node.inputs, hk])
  | _ => simp [sources, hk] at hx

variable [FloatProduct]

/-- Executing merged nodes leaves everything else alone. -/
theorem effects_merged {ids : List NodeId} (hids : ids ⊆ t.merged s)
    (h : t.effects states μ ids = some ν) (hid : id ∉ ids) : ν id = μ id := by
  refine effects_of_ne h fun x hx n hn he => hid ?_
  have hdest := (dest_of_isElementwise ((merged_iff hs).1 (hids hx)).elementwise hn).1
  rw [he, hdest, ht.wellFormed.id_of_node? hn]
  exact hx

/-- Executing merged nodes keeps a memory in agreement with the values. -/
theorem AgreeOff.effects {ids : List NodeId} (hids : ids ⊆ t.merged s)
    (hμ : AgreeOff (t.merged s) values.get? μ) (h : t.effects states μ ids = some ν) :
    AgreeOff (t.merged s) values.get? ν := by
  intro x hx
  rw [hμ x hx]
  exact (effects_merged ht hs hids h fun hmem => hx (hids hmem)).symm

include hp

/-- Evaluating the arguments of a kernel is executing the merged ones among them. -/
private theorem toOption_evalKernels (states : Memory) {l : List NodeId} (hl : ∀ i ∈ l, i ∈ s.nodes)
    (hnodup : (t.inputBlocks (t.merged s) l).Nodup)
    (ih : ∀ i ∈ l, i ∈ t.merged s → (t.block (t.merged s) i).Nodup → ∀ {μ : Memory},
      AgreeOff (t.merged s) values.get? μ →
        (p.evalKernel values (t.tree (t.merged s) i)).toOption =
          (t.effects states μ (t.block (t.merged s) i)).bind fun ν => ν i)
    (hμ : AgreeOff (t.merged s) values.get? μ) :
    (p.evalKernels values (l.map fun i =>
        if i ∈ t.merged s then t.tree (t.merged s) i else .leaf i)).toOption =
      (t.effects states μ (t.inputBlocks (t.merged s) l)).bind fun ν =>
        l.mapM fun i => ν (t.home i) := by
  induction l generalizing μ with
  | nil => rfl
  | cons i l ihl =>
    obtain ⟨hi, hrest⟩ := List.forall_mem_cons.1 hl
    have hmerged := inputBlocks_subset_merged ht hs hrest
    have ihl' := fun hnodupl {μ : Memory} (hμ : AgreeOff (t.merged s) values.get? μ) =>
      ihl hrest hnodupl (fun j hj => ih j (List.mem_cons_of_mem _ hj)) hμ
    rw [List.map_cons, Program.evalKernels, toOption_bind]
    by_cases hm : i ∈ t.merged s
    · -- the value of a merged argument is still there after the arguments behind it
      rw [inputBlocks_cons_of_mem hm, List.nodup_append] at hnodup
      obtain ⟨hnodupi, hnodupl, hdisjoint⟩ := hnodup
      obtain ⟨n, hn⟩ := exists_node_of_contains (hs.known hi)
      have hhome := (dest_of_isElementwise ((merged_iff hs).1 hm).elementwise hn).2
      rw [if_pos hm, inputBlocks_cons_of_mem hm, effects_append,
        ih i List.mem_cons_self hm hnodupi hμ]
      cases hν : t.effects states μ (t.block (t.merged s) i) with
      | none => rfl
      | some ν =>
        have hagree := hμ.effects ht hs (block_subset_merged ht hs hi hm) hν
        simp only [Option.bind_some, toOption_bind, ihl' hnodupl hagree, toOption_pure]
        cases hν' : t.effects states ν (t.inputBlocks (t.merged s) l) with
        | none => cases ν i <;> rfl
        | some ν' =>
          have hkept : ν' (t.home i) = ν i := by
            rw [hhome]
            exact effects_merged ht hs hmerged hν' fun hmem =>
              hdisjoint i (self_mem_block ht hs hi) i hmem rfl
          simp only [Option.bind_some, List.mapM_cons, hkept]
          rfl
    · rw [inputBlocks_cons_of_not_mem hm] at hnodup ⊢
      have hhome := home_not_merged ht.wellFormed hs (hs.known hi) hm
      have hread : (p.evalKernel values (.leaf i)).toOption = μ (t.home i) := by
        rw [Program.evalKernel, Program.toOption_read _ (hp.node?_eq ht.wellFormed hs hi)]
        exact hμ _ hhome
      rw [if_neg hm, hread]
      simp only [toOption_bind, ihl' hnodup hμ, toOption_pure]
      cases hν' : t.effects states μ (t.inputBlocks (t.merged s) l) with
      | none => cases μ (t.home i) <;> rfl
      | some ν' =>
        have hkept : ν' (t.home i) = μ (t.home i) :=
          effects_merged ht hs hmerged hν' fun hmem => hhome (hmerged hmem)
        simp only [Option.bind_some, List.mapM_cons, hkept]
        rfl

/-- The value of a kernel is what executing its nodes leaves at the root. -/
theorem toOption_evalKernel (states : Memory) (hid : id ∈ s.nodes)
    (helementwise : t.isElementwise id = true) (hnodup : (t.block (t.merged s) id).Nodup)
    (hμ : AgreeOff (t.merged s) values.get? μ) :
    (p.evalKernel values (t.tree (t.merged s) id)).toOption =
      (t.effects states μ (t.block (t.merged s) id)).bind fun ν => ν id := by
  refine block_induction ht hs (motive := fun id => t.isElementwise id = true →
    (t.block (t.merged s) id).Nodup → ∀ {μ : Memory}, AgreeOff (t.merged s) values.get? μ →
      (p.evalKernel values (t.tree (t.merged s) id)).toOption =
        (t.effects states μ (t.block (t.merged s) id)).bind fun ν => ν id)
    ?_ hid helementwise hnodup hμ
  intro id hid ih helementwise hnodup μ hμ
  obtain ⟨n, op, inputs, hn, hk, -⟩ := exists_apply_of_isElementwise helementwise
  obtain rfl := ht.wellFormed.id_of_node? hn
  have hinputs : t.inputs n.id = inputs := by simp [inputs_of_node? hn, Node.inputs, hk]
  have hmem : ∀ i ∈ inputs, i ∈ s.nodes := fun i hi => hs.input_mem hid (hinputs ▸ hi)
  rw [block_apply ht hs hn hk] at hnodup ⊢
  rw [tree_apply ht.wellFormed hn hk, Program.evalKernel, toOption_bind,
    toOption_evalKernels ht hs hp states hmem (List.nodup_append.1 hnodup).1
      (fun i hi hm hnodup _ hμ =>
        ih i (hinputs ▸ hi) hm ((merged_iff hs).1 hm).elementwise hnodup hμ) hμ,
    effects_append]
  cases t.effects states μ (t.inputBlocks (t.merged s) inputs) with
  | none => rfl
  | some ν =>
    simp only [Option.bind_some, toOption_bind, Program.toOption_node, toOption_mapError,
      hp.node?_eq ht.wellFormed hs hid, hn, effects_cons, effects_nil, effect_apply hk]
    cases inputs.mapM fun i => ν (t.home i) with
    | none => rfl
    | some args => cases hv : (op.eval args n.type).toOption <;> simp [hv]

/-! ## Steps -/

/-- A fused step leaves what executing its nodes leaves, apart from the merged ones. -/
theorem rel_evalStep_fused {states' : Store} (hid : id ∈ s.nodes)
    (helementwise : t.isElementwise id = true) (hnodup : (t.block (t.merged s) id).Nodup)
    (hμ : AgreeOff (t.merged s) values.get? μ) :
    Option.Rel (fun values ν => AgreeOff (t.merged s) values.get? ν)
      (p.evalStep states' values (.fused id (t.tree (t.merged s) id))).toOption
      (t.effects states μ (t.block (t.merged s) id)) := by
  rw [Program.evalStep, toOption_bind,
    toOption_evalKernel ht hs hp states hid helementwise hnodup hμ]
  cases hν : t.effects states μ (t.block (t.merged s) id) with
  | none => exact .none
  | some ν =>
    obtain ⟨n, op, inputs, hn, hk, -⟩ := exists_apply_of_isElementwise helementwise
    obtain rfl := ht.wellFormed.id_of_node? hn
    rw [block_apply ht hs hn hk, effects_append, Option.bind_eq_some_iff] at hν
    obtain ⟨ν', hν', hlast⟩ := hν
    rw [effects_cons, hn, Option.bind_some, effect_apply hk, Option.bind_map] at hlast
    obtain ⟨v, -, hlast⟩ := Option.bind_eq_some_iff.1 hlast
    cases hlast
    simp only [Option.bind_some, Function.update_self, toOption_pure]
    have hinputs : ∀ i ∈ inputs, i ∈ s.nodes := fun i hi =>
      hs.input_mem hid (by simpa [inputs_of_node? hn, Node.inputs, hk] using hi)
    have hagree := hμ.effects ht hs (inputBlocks_subset_merged ht hs hinputs) hν'
    refine .some ?_
    rw [Store.get?_insert]
    exact hagree.update n.id _

/-- A step of one node that reads no merged nodes leaves what executing the node leaves. -/
theorem rel_evalStep_single {states' : Store} (hid : id ∈ s.nodes) (hm : id ∉ t.merged s)
    (hinputs : ∀ i ∈ t.inputs id, i ∉ t.merged s) (hμ : AgreeOff (t.merged s) values.get? μ) :
    Option.Rel (fun values ν => AgreeOff (t.merged s) values.get? ν)
      (p.evalStep states' values (.single id)).toOption (t.effects states'.get? μ [id]) := by
  obtain ⟨n, hn⟩ := exists_node_of_contains (hs.known hid)
  obtain rfl := ht.wellFormed.id_of_node? hn
  have hknown : ∀ i ∈ n.inputs, p.node? i = t.node? i := fun i hi =>
    hp.node?_input ht.wellFormed hs hn hid hi
  have hstep := Program.toOption_evalNode states' values hknown
  have hsources : ∀ x ∈ t.sources n, values.get? x = μ x := fun x hx =>
    hμ x (sources_not_merged ht hs hid hn hm hinputs hx)
  rw [effect, outcome_congr hsources] at hstep
  rw [Program.evalStep, toOption_bind, Program.toOption_node, hp.node?_eq ht.wellFormed hs hid, hn,
    Option.bind_some, effects_cons, hn, Option.bind_some, effect]
  cases hv : t.outcome states'.get? μ n with
  | none =>
    rw [hv] at hstep
    simp only [Option.map_none, Option.map_eq_none_iff] at hstep
    rw [hstep]
    exact .none
  | some v =>
    rw [hv] at hstep
    obtain ⟨values', hvalues', hupdate⟩ := Option.map_eq_some_iff.1 hstep
    rw [hvalues']
    refine .some ?_
    rw [hupdate]
    exact hμ.update n.dest _

/-- The step of a root leaves what executing its block leaves. -/
theorem rel_evalStep {states' : Store} (hid : id ∈ t.roots s)
    (hnodup : (t.block (t.merged s) id).Nodup) (hμ : AgreeOff (t.merged s) values.get? μ) :
    Option.Rel (fun values ν => AgreeOff (t.merged s) values.get? ν)
      (p.evalStep states' values (t.stepOf (t.merged s) id)).toOption
      (t.effects states'.get? μ (t.block (t.merged s) id)) := by
  obtain ⟨hmem, hm⟩ := mem_roots.1 hid
  rw [stepOf]
  split
  · rename_i hfused
    rw [Bool.and_eq_true] at hfused
    exact rel_evalStep_fused ht hs hp hmem hfused.1 hnodup hμ
  · have hinputs := inputs_not_merged hs hmem ‹_›
    rw [block_of_inputs_not_merged ht hs hmem hinputs]
    exact rel_evalStep_single ht hs hp hmem hm hinputs hμ

/-- The steps of a fused plan leave what executing the nodes leaves, block by block. -/
theorem rel_evalSteps {states' : Store} {ids : List NodeId} (hids : ∀ id ∈ ids, id ∈ t.roots s)
    (hnodup : (ids.flatMap (t.block (t.merged s))).Nodup)
    (hμ : AgreeOff (t.merged s) values.get? μ) :
    Option.Rel (fun values ν => AgreeOff (t.merged s) values.get? ν)
      ((ids.map (t.stepOf (t.merged s))).foldlM (p.evalStep states') values).toOption
      (t.effects states'.get? μ (ids.flatMap (t.block (t.merged s)))) := by
  induction ids generalizing values μ with
  | nil => exact .some hμ
  | cons id ids ih =>
    obtain ⟨hid, hrest⟩ := List.forall_mem_cons.1 hids
    rw [List.flatMap_cons, List.nodup_append] at hnodup
    rw [List.map_cons, List.foldlM_cons, toOption_bind, List.flatMap_cons, effects_append]
    exact rel_bind (rel_evalStep ht hs hp hid hnodup.1 hμ)
      fun values' ν hν => ih hrest hnodup.2.1 hν

end

/-- The nodes whose values a program does not keep. -/
def hidden (t : Trace) (s : Schedule) (fuse : Bool) : List NodeId :=
  if fuse then t.merged s else []

theorem not_mem_hidden {fuse : Bool} (h : id ∉ t.merged s) : id ∉ t.hidden s fuse := by
  cases fuse
  · exact List.not_mem_nil
  · exact h

section
variable (ht : t.Reachable) (hs : t.Scheduled s) (hp : t.Compiled s options p)
include ht hs hp

/-- The steps of a compiled program leave what executing the scheduled nodes leaves. -/
theorem rel_steps [FloatProduct] {states' : Store} (hstates : t.Typed states'.get?)
    (hvalues : t.Typed values.get?) :
    Option.Rel (fun values μ => AgreeOff (t.hidden s options.fuse) values.get? μ)
      (p.plan.steps.foldlM (p.evalStep states') values).toOption
      (t.effects states'.get? values.get? s.nodes) := by
  rw [hp.plan_eq]
  cases hfuse : options.fuse with
  | true =>
    have hevaluated : t.effects states'.get? values.get? s.nodes =
        t.effects states'.get? values.get? ((t.roots s).flatMap (t.block (t.merged s))) := by
      rw [← evaluated_fuse ht hs]
      exact ((hs.linearizes ht).legal ht hs.closed).effects_eq ht hstates hvalues closed_empty
        ((linearizes_evaluated ht hs).legal ht hs.closed) (perm_evaluated ht hs).symm
    rw [hevaluated]
    have hnodup := nodup_evaluated ht hs
    rw [evaluated_fuse ht hs] at hnodup
    exact rel_evalSteps ht hs hp (fun _ h => h) hnodup fun _ _ => rfl
  | false =>
    have heq := Program.toOption_evalSteps (p := p) (t := t) states' values
      fun id (hid : id ∈ s.nodes) =>
        ⟨hp.node?_eq ht.wellFormed hs hid,
          fun i hi => hp.node?_eq ht.wellFormed hs (hs.input_mem hid hi)⟩
    rw [← heq]
    show Option.Rel _ ((s.nodes.map Step.single).foldlM (p.evalStep states') values).toOption _
    cases ((s.nodes.map Step.single).foldlM (p.evalStep states') values).toOption with
    | none => exact .none
    | some values' => exact .some fun _ _ => rfl

end
end Trace
end ArrayTrace
