import ArrayTrace.Proofs.Compilation

/-!
# What fusion keeps of a schedule

A fused plan evaluates the nodes of its schedule, each once and after everything that it
waits for. Its steps come in the order of the schedule, and what a step takes from outside
is the root of an earlier step. The nodes that a step evaluates besides its root are those
that have been merged into it: elementwise operations of a single use that no
execution-order edge and no output holds in place.

## Main definitions

* `Step.operands`, `Step.absorbed` — what a step reads, and what it evaluates on the way.
* `Trace.Regroups` — what a plan keeps of a schedule.
* `Trace.Builds` — the recursion that builds a kernel, without a bound on its depth.
-/

namespace ArrayTrace

/-- The values that a step takes from earlier steps. -/
def Step.operands (t : Trace) : Step → List NodeId
  | single id => t.inputs id
  | fused _ kernel => kernel.leaves

/-- The nodes that a step evaluates besides its root. -/
def Step.absorbed (step : Step) : List NodeId := step.evaluated.filter (· ≠ step.root)

namespace Trace
variable {t : Trace} {s : Schedule} {n : Node} {id x r : NodeId} {M outputs : List NodeId}
  {step : Step}

/-! ## Building kernels -/

mutual

/-- The kernel of a node is built by expanding the inputs in `M`, and theirs in turn. A
derivation is a run of this recursion, which ends. -/
inductive Builds (t : Trace) (M : List NodeId) : NodeId → Kernel → Prop
  | apply {id : NodeId} {n : Node} {op : Op} {inputs : List NodeId} {args : List Kernel}
      (hn : t.node? id = some n) (hkind : n.kind = .apply op inputs)
      (hargs : BuildsAll t M inputs args) : Builds t M id (.apply id op args)
  | leaf {id : NodeId} (h : ∀ n op inputs, t.node? id = some n → n.kind ≠ .apply op inputs) :
      Builds t M id (.leaf id)

/-- The arguments of a kernel are built one after the other. -/
inductive BuildsAll (t : Trace) (M : List NodeId) : List NodeId → List Kernel → Prop
  | nil : BuildsAll t M [] []
  | expand {id : NodeId} {k : Kernel} {ids : List NodeId} {ks : List Kernel} (hid : id ∈ M)
      (hk : Builds t M id k) (hks : BuildsAll t M ids ks) : BuildsAll t M (id :: ids) (k :: ks)
  | keep {id : NodeId} {ids : List NodeId} {ks : List Kernel} (hid : id ∉ M)
      (hks : BuildsAll t M ids ks) : BuildsAll t M (id :: ids) (.leaf id :: ks)

end

theorem tree_of_not_apply (h : ∀ n op inputs, t.node? id = some n → n.kind ≠ .apply op inputs) :
    t.tree M id = .leaf id := by
  rw [tree, kernel]
  split
  · rename_i op inputs hkind
    obtain ⟨n, hn, hkind⟩ := Option.map_eq_some_iff.1 hkind
    exact absurd hkind (h n op inputs hn)
  · rfl

theorem buildsAll_map {ids : List NodeId}
    (h : ∀ i ∈ ids, i ∈ M → t.Builds M i (t.tree M i)) :
    t.BuildsAll M ids (ids.map fun i => if i ∈ M then t.tree M i else .leaf i) := by
  induction ids with
  | nil => exact .nil
  | cons i ids ih =>
    obtain ⟨hi, hrest⟩ := List.forall_mem_cons.1 h
    rw [List.map_cons]
    by_cases hm : i ∈ M
    · rw [if_pos hm]
      exact .expand hm (hi hm) (ih hrest)
    · rw [if_neg hm]
      exact .keep hm (ih hrest)

/-- Building kernels ends, whatever is expanded: inputs have smaller numbers. -/
theorem WellFormed.builds_tree (ht : t.WellFormed) (M : List NodeId) (id : NodeId) :
    t.Builds M id (t.tree M id) := by
  induction hk : id.index using Nat.strongRecOn generalizing id with
  | ind k ih =>
    subst hk
    by_cases hid : ∃ n op inputs, t.node? id = some n ∧ n.kind = .apply op inputs
    · obtain ⟨n, op, inputs, hn, hkind⟩ := hid
      have hinputs : t.inputs id = inputs := by simp [inputs_of_node? hn, Node.inputs, hkind]
      rw [tree_apply ht hn hkind]
      refine .apply hn hkind (buildsAll_map fun i hi _ => ?_)
      exact ih _ (ht.input_lt (hinputs ▸ hi)).2 i rfl
    · have hleaf : ∀ n op inputs, t.node? id = some n → n.kind ≠ .apply op inputs :=
        fun n op inputs hn hkind => hid ⟨n, op, inputs, hn, hkind⟩
      rw [tree_of_not_apply hleaf]
      exact .leaf hleaf

/-! ## What is merged -/

theorem control_eq_nil_of_not_constrained (ht : t.WellFormed) (h : id ∉ t.constrained) :
    t.control id = [] := by
  cases he : t.entry? id with
  | none => simp [control, he]
  | some e =>
    by_contra hne
    have hcontrol : t.control id = e.control := by simp [control, he]
    have hid : e.node.id = id := ht.id_of_node? (by simp [node?, he])
    refine h (List.mem_flatMap.2 ⟨e, List.mem_filter.2 ⟨mem_of_entry_eq_some he, ?_⟩, ?_⟩)
    · rw [hcontrol] at hne
      simpa using hne
    · rw [hid]
      exact List.mem_cons_self

theorem count_flatMap_inputs {ids : List NodeId}
    (h : ∀ y ∈ ids, (t.inputs y).count id = if y = r then 1 else 0) :
    (ids.flatMap t.inputs).count id = ids.count r := by
  induction ids with
  | nil => rfl
  | cons y ids ih =>
    obtain ⟨hy, hrest⟩ := List.forall_mem_cons.1 h
    rw [List.flatMap_cons, List.count_append, hy, ih hrest, List.count_cons]
    simp only [beq_iff_eq]
    omega

/-- A merged node has a single use in the schedule. -/
theorem Mergeable.count_inputs (h : t.Mergeable s id) (hs : t.Scheduled s) :
    (s.nodes.flatMap t.inputs).count id = 1 := by
  obtain ⟨r, hr, -, huses⟩ := h.reader
  rw [count_flatMap_inputs huses]
  exact List.count_eq_one_of_mem hs.ascending.nodup hr

/-- In an order that respects all edges a node comes after what it waits for. -/
theorem Linearizes.predecessor_mem {K : Set NodeId} {pre post : List NodeId}
    (h : t.Linearizes K (pre ++ id :: post)) (hK : t.Closed K) (ht : t.Reachable)
    (hx : x ∈ t.predecessors id) : x ∈ pre := by
  have hid : id ∈ K := h.mem_iff.1 (by simp)
  have hmem := h.mem_iff.2 (hK.predecessor hid hx)
  refine (List.mem_append.1 hmem).resolve_right fun hright => ?_
  rcases List.mem_cons.1 hright with rfl | hpost
  · exact Nat.lt_irrefl _ (ht.predecessor_lt hx).2
  · exact (List.pairwise_cons.1 (List.pairwise_append.1 h.respects).2.1).1 x hpost hx

section
variable (ht : t.Reachable) (hs : t.Scheduled s)
include ht hs

theorem leaf_lt (hid : id ∈ s.nodes) (helementwise : t.isElementwise id = true)
    (hx : x ∈ (t.tree (t.merged s) id).leaves) : x.index < id.index := by
  refine block_induction ht hs (motive := fun id => t.isElementwise id = true →
    x ∈ (t.tree (t.merged s) id).leaves → x.index < id.index) ?_ hid helementwise hx
  intro id _ ih helementwise hx
  rw [leaves_tree ht.wellFormed helementwise] at hx
  obtain ⟨i, hi, hx⟩ := List.mem_flatMap.1 hx
  have hlt := (ht.wellFormed.input_lt hi).2
  split at hx
  · exact Nat.lt_trans (ih i hi ‹_› ((merged_iff hs).1 ‹_›).elementwise hx) hlt
  · obtain rfl := List.mem_singleton.1 hx
    exact hlt

/-- What the step of a root takes from outside are roots that come before it. -/
theorem operand_stepOf (hid : id ∈ t.roots s)
    (hx : x ∈ (t.stepOf (t.merged s) id).operands t) : x ∈ t.roots s ∧ x.index < id.index := by
  obtain ⟨hmem, -⟩ := mem_roots.1 hid
  rw [stepOf] at hx
  split at hx
  · rename_i h
    rw [Bool.and_eq_true] at h
    exact ⟨leaf_mem_roots ht hs hmem h.1 hx, leaf_lt ht hs hmem h.1 hx⟩
  · exact ⟨mem_roots.2 ⟨hs.input_mem hmem hx, inputs_not_merged hs hmem ‹_› x hx⟩,
      (ht.wellFormed.input_lt hx).2⟩

/-- What a scheduled node waits for beyond its inputs are roots that come before it. -/
theorem control_mem_roots (hid : id ∈ s.nodes) (hx : x ∈ t.control id) :
    x ∈ t.roots s ∧ x.index < id.index := by
  have hpred : x ∈ t.predecessors id := List.mem_append_right _ hx
  refine ⟨mem_roots.2 ⟨hs.predecessor hid hpred, fun hm => ?_⟩, (ht.predecessor_lt hpred).2⟩
  exact not_mem_control_of_not_constrained ((merged_iff hs).1 hm).not_constrained hx

/-- The step of a root evaluates the root and merged nodes. -/
theorem mem_evaluated_stepOf (hid : id ∈ t.roots s)
    (hx : x ∈ (t.stepOf (t.merged s) id).evaluated) : x = id ∨ x ∈ t.merged s := by
  obtain ⟨hmem, -⟩ := mem_roots.1 hid
  rw [stepOf] at hx
  split at hx
  · rename_i h
    rw [Bool.and_eq_true] at h
    obtain ⟨n, op, inputs, hn, hk, -⟩ := exists_apply_of_isElementwise h.1
    have hblock : (t.tree (t.merged s) id).applied = t.block (t.merged s) id := by
      rw [block, tree_apply ht.wellFormed hn hk]
    exact (mem_block ht hs hmem (hblock ▸ hx)).2.2
  · exact .inl (List.mem_singleton.1 hx)

/-- The nodes that the step of a root evaluates besides the root are its merged nodes. -/
theorem absorbed_stepOf (hid : id ∈ t.roots s) :
    (t.stepOf (t.merged s) id).absorbed =
      (t.stepOf (t.merged s) id).evaluated.filter (· ∈ t.merged s) := by
  refine List.filter_congr fun x hx => ?_
  have hmerged := mem_evaluated_stepOf ht hs hid hx
  rw [root_stepOf]
  by_cases he : x = id
  · simp [he, (mem_roots.1 hid).2]
  · simp [he, hmerged.resolve_left he]

omit ht in
theorem perm_filter_merged : (s.nodes.filter (· ∈ t.merged s)).Perm (t.merged s) := by
  have hnodup := hs.ascending.nodup
  refine (List.perm_ext_iff_of_nodup (hnodup.filter _) (hnodup.filter _)).2 fun x => ?_
  rw [List.mem_filter, decide_eq_true_eq]
  exact and_iff_right_of_imp fun hm => ((merged_iff hs).1 hm).mem

/-- Every merged node is evaluated in one step. -/
theorem perm_absorbed : ((t.fuse s).steps.flatMap Step.absorbed).Perm (t.merged s) := by
  have habsorbed : (t.fuse s).steps.flatMap Step.absorbed =
      (t.fuse s).evaluated.filter (· ∈ t.merged s) := by
    rw [Plan.evaluated, steps_fuse, List.filter_flatMap, List.flatMap_map, List.flatMap_map]
    exact List.flatMap_congr fun id hid => absorbed_stepOf ht hs hid
  rw [habsorbed]
  exact ((perm_evaluated ht hs).filter _).trans (perm_filter_merged hs)

omit ht hs in
theorem exists_stepOf_eq (h : step ∈ (t.fuse s).steps) :
    ∃ id ∈ t.roots s, t.stepOf (t.merged s) id = step :=
  List.mem_map.1 (steps_fuse ▸ h)

/-- What a step reads and what its root waits for are roots of earlier steps. -/
theorem exists_earlier {pre post : List Step} (he : (t.fuse s).steps = pre ++ step :: post)
    (hx : x ∈ step.operands t ∨ x ∈ t.control step.root) : ∃ other ∈ pre, other.root = x := by
  have hstep : step ∈ (t.fuse s).steps := by simp [he]
  obtain ⟨id, hid, rfl⟩ := exists_stepOf_eq hstep
  have hsplit : t.roots s = pre.map Step.root ++ id :: post.map Step.root := by
    rw [← roots_fuse, Plan.roots, he, List.map_append, List.map_cons, root_stepOf]
  have hmem := (mem_roots.1 hid).1
  obtain ⟨hx, hlt⟩ : x ∈ t.roots s ∧ x.index < id.index := by
    rw [root_stepOf] at hx
    rcases hx with hx | hx
    · exact operand_stepOf ht hs hid hx
    · exact control_mem_roots ht hs hmem hx
  have hbefore := (before_iff_index_lt (hs.known (mem_roots.1 hx).1) (hs.known hmem)).2 hlt
  have hascending : NodeId.Ascending (t.roots s) := hs.ascending.filter _
  rw [hsplit] at hascending hx
  exact List.mem_map.1 (hascending.mem_left hx hbefore)

/-- What a step evaluates besides its root has been merged. -/
theorem mergeable_of_absorbed (hstep : step ∈ (t.fuse s).steps) (hx : x ∈ step.absorbed) :
    t.Mergeable s x := by
  obtain ⟨id, hid, rfl⟩ := exists_stepOf_eq hstep
  obtain ⟨hx, hne⟩ := List.mem_filter.1 hx
  rw [root_stepOf, decide_eq_true_eq] at hne
  exact (merged_iff hs).1 ((mem_evaluated_stepOf ht hs hid hx).resolve_left hne)

omit ht in
theorem length_steps : (t.fuse s).steps.length + (t.merged s).length = s.nodes.length := by
  have hsplit := (List.filter_append_perm (· ∈ t.merged s) s.nodes).length_eq
  rw [List.length_append, (perm_filter_merged hs).length_eq] at hsplit
  rw [steps_fuse, List.length_map, ← hsplit, Nat.add_comm]
  simp only [roots, decide_not]

end

/-! ## Regrouping -/

/-- What a plan that merges nodes of a schedule keeps of it. -/
structure Regroups (t : Trace) (s : Schedule) (p : Plan) : Prop where
  /-- The scheduled nodes are evaluated once each, -/
  evaluated_perm : p.evaluated.Perm s.nodes
  /-- after their inputs and whatever else they wait for. -/
  evaluated_after : ∀ {pre id post}, p.evaluated = pre ++ id :: post →
    ∀ x ∈ t.predecessors id, x ∈ pre
  /-- What a step reads, and what its root waits for, are roots of earlier steps. -/
  earlier : ∀ {pre step post}, p.steps = pre ++ step :: post →
    ∀ x, x ∈ step.operands t ∨ x ∈ t.control step.root → ∃ other ∈ pre, other.root = x
  outputs_eq : p.outputs = s.outputs
  output_root : ∀ o ∈ s.outputs, ∃ step ∈ p.steps, step.root = o
  roots_sublist : (p.steps.map Step.root).Sublist s.nodes
  /-- What a step evaluates besides its root nobody else can see. -/
  absorbed : ∀ step ∈ p.steps, ∀ x ∈ step.absorbed,
    t.isElementwise x = true ∧ (s.nodes.flatMap t.inputs).count x = 1 ∧ x ∉ s.outputs ∧
      t.control x = [] ∧ ∀ y, x ∉ t.control y
  /-- Every merged node belongs to one step. -/
  absorbed_perm : (p.steps.flatMap Step.absorbed).Perm (t.merged s)
  length_add : p.steps.length + (t.merged s).length = s.nodes.length
  built : ∀ {root kernel}, .fused root kernel ∈ p.steps → t.Builds (t.merged s) root kernel

/-- The fused plan of a schedule keeps all that a plan has to keep. Building a kernel ends
from any node. -/
theorem Reachable.regroups_fuse (ht : t.Reachable) (h : t.schedule outputs false = .ok s) :
    t.Regroups s (t.fuse s) ∧ ∀ id, ∃ kernel, t.Builds (t.merged s) id kernel := by
  have hs := ht.scheduled h
  have hlin := linearizes_evaluated ht hs
  have hroots : (t.fuse s).steps.map Step.root = t.roots s := roots_fuse
  refine ⟨?_, fun id => ⟨_, ht.wellFormed.builds_tree _ id⟩⟩
  refine
    { evaluated_perm := perm_evaluated ht hs
      evaluated_after := fun {pre id post} he x hx => ?_
      earlier := fun he x hx => exists_earlier ht hs he hx
      outputs_eq := rfl
      output_root := fun o ho => ?_
      roots_sublist := hroots ▸ List.filter_sublist
      absorbed := fun step hstep x hx => ?_
      absorbed_perm := perm_absorbed ht hs
      length_add := length_steps hs
      built := fun {root kernel} hstep => ?_ }
  · rw [he] at hlin
    exact hlin.predecessor_mem hs.closed ht hx
  · have hroot : o ∈ (t.fuse s).steps.map Step.root :=
      hroots ▸ mem_roots.2 ⟨hs.output_mem ho, fun hm => ((merged_iff hs).1 hm).not_output ho⟩
    exact List.mem_map.1 hroot
  · have hm := mergeable_of_absorbed ht hs hstep hx
    exact ⟨hm.elementwise, hm.count_inputs hs, hm.not_output,
      control_eq_nil_of_not_constrained ht.wellFormed hm.not_constrained,
      fun y => not_mem_control_of_not_constrained hm.not_constrained⟩
  · obtain ⟨id, -, he⟩ := exists_stepOf_eq hstep
    rw [stepOf] at he
    split at he
    · cases he
      exact ht.wellFormed.builds_tree _ _
    · cases he

/-- An operand that is used twice, one that is used once, and one that is read before its
array is overwritten. -/
def threaded : Trace :=
  [Call.placeholder "x" [2] .i64, .state "level" (.vector .i64 [7, 9]),
    .apply (.unary .neg) [⟨0, 0⟩], .apply (.binary .add) [⟨0, 2⟩, ⟨0, 2⟩],
    .apply (.unary .neg) [⟨0, 1⟩], .apply (.binary .add) [⟨0, 3⟩, ⟨0, 4⟩],
    .assign ⟨0, 1⟩ [] ⟨0, 0⟩].foldl Trace.after { id := 0 }

/-- The operand that is used once is merged, and the others are not. -/
theorem regroups_fuse_threaded :
    ∃ s, threaded.schedule [⟨0, 5⟩, ⟨0, 6⟩] false = .ok s ∧
      threaded.Regroups s (threaded.fuse s) ∧ threaded.merged s = [⟨0, 3⟩] := by
  have ht : threaded.Reachable := .calls (.start 0 {}) _
  let s : Schedule := ⟨[⟨0, 0⟩, ⟨0, 1⟩, ⟨0, 2⟩, ⟨0, 3⟩, ⟨0, 4⟩, ⟨0, 5⟩, ⟨0, 6⟩], [⟨0, 5⟩, ⟨0, 6⟩]⟩
  have hs : threaded.schedule [⟨0, 5⟩, ⟨0, 6⟩] false = .ok s := by decide
  exact ⟨s, hs, (ht.regroups_fuse hs).1, by decide⟩

end Trace
end ArrayTrace
