import ArrayTrace.Proofs.Scheduling

/-!
# The order in which fused plans evaluate

A fused plan evaluates every scheduled node once. A merged node has a single reader, so it
occurs in one kernel, in front of that reader; nothing else waits for it and it waits for
nothing but its inputs. The order of evaluation therefore respects every edge, as the
schedule does.
-/

namespace ArrayTrace

theorem Kernel.leavesAll_map {α : Type} (f : α → Kernel) (as : List α) :
    Kernel.leavesAll (as.map f) = as.flatMap fun a => (f a).leaves := by
  induction as with
  | nil => rfl
  | cons a as ih => simp [Kernel.leavesAll, ih]

namespace Trace
variable {t : Trace} {s : Schedule} {n : Node} {id x r : NodeId} {M : List NodeId}

/-! ## Merged nodes -/

/-- What is required of a node that is merged into its reader. -/
structure Mergeable (t : Trace) (s : Schedule) (id : NodeId) : Prop where
  mem : id ∈ s.nodes
  elementwise : t.isElementwise id = true
  not_output : id ∉ s.outputs
  not_constrained : id ∉ t.constrained
  reader : ∃ r ∈ s.nodes, t.isElementwise r = true ∧
    ∀ x ∈ s.nodes, (t.inputs x).count id = if x = r then 1 else 0

private theorem count_readers_of_nodup {ids : List NodeId} (h : ids.Nodup) :
    (ids.flatMap fun r => ((t.inputs r).filter (· = id)).map fun _ => r).count x =
      if x ∈ ids then (t.inputs x).count id else 0 := by
  induction ids with
  | nil => rfl
  | cons r ids ih =>
    obtain ⟨hr, hids⟩ := List.nodup_cons.1 h
    have hlen : ((t.inputs r).filter (· = id)).length = (t.inputs r).count id := by
      rw [List.count, List.countP_eq_length_filter]
      rfl
    rw [List.flatMap_cons, List.count_append, ih hids, List.map_const', List.count_replicate, hlen]
    by_cases hx : r = x
    · subst hx
      simp [hr]
    · simp [hx, Ne.symm hx]

theorem merged_iff (hs : t.Scheduled s) : id ∈ t.merged s ↔ t.Mergeable s id := by
  have hcount : ∀ x, (t.readers s id).count x =
      if x ∈ s.nodes then (t.inputs x).count id else 0 :=
    fun x => count_readers_of_nodup hs.ascending.nodup
  simp only [merged, List.mem_filter, Bool.and_eq_true, decide_not, Bool.not_eq_true',
    decide_eq_false_iff_not]
  constructor
  · rintro ⟨hmem, ⟨⟨helementwise, hout⟩, hconstrained⟩, hreader⟩
    split at hreader
    · rename_i r hr
      have hone : ∀ x, (t.readers s id).count x = if x = r then 1 else 0 := by
        intro x
        rw [hr, List.count_singleton]
        simp only [beq_iff_eq, eq_comm (a := x)]
      have hr : r ∈ s.nodes := by
        by_contra hno
        have := hone r
        rw [hcount, if_neg hno, if_pos rfl] at this
        cases this
      refine ⟨hmem, helementwise, hout, hconstrained, r, hr, hreader, fun x hx => ?_⟩
      rw [← hone, hcount, if_pos hx]
    · cases hreader
  · rintro ⟨hmem, helementwise, hout, hconstrained, r, hr, hreader, huses⟩
    have hperm : (t.readers s id).Perm [r] := by
      refine List.perm_iff_count.2 fun x => ?_
      rw [hcount, List.count_singleton]
      by_cases hx : x ∈ s.nodes
      · rw [if_pos hx, huses x hx]
        simp only [beq_iff_eq, eq_comm (a := x)]
      · have hne : r ≠ x := fun he => hx (he ▸ hr)
        simp [hx, hne]
    rw [List.perm_singleton.1 hperm]
    exact ⟨hmem, ⟨⟨helementwise, hout⟩, hconstrained⟩, hreader⟩

theorem exists_apply_of_isElementwise (h : t.isElementwise id = true) :
    ∃ n op inputs, t.node? id = some n ∧ n.kind = .apply op inputs ∧ op.isElementwise = true := by
  rw [isElementwise, Option.any_eq_true] at h
  obtain ⟨n, hn, h⟩ := h
  obtain ⟨_, _, _, kind⟩ := n
  cases kind with
  | apply op inputs => exact ⟨_, op, inputs, hn, rfl, h⟩
  | _ => cases h

/-- A merged node is no placeholder and no variable. -/
theorem not_merged_of_isStorage (hs : t.Scheduled s) (hn : t.node? id = some n)
    (h : n.isStorage = true) : id ∉ t.merged s := by
  intro hm
  obtain ⟨n', op, inputs, hn', hk, -⟩ :=
    exists_apply_of_isElementwise ((merged_iff hs).1 hm).elementwise
  rw [hn] at hn'
  cases hn'
  simp [Node.isStorage, hk] at h

theorem mem_of_entry_eq_some {e : Entry} (h : t.entry? id = some e) : e ∈ t.entries := by
  unfold entry? at h
  split at h
  · exact List.mem_of_getElem? h
  · cases h

/-- No control edge leads from a node at no control edge. -/
theorem not_mem_control_of_not_constrained (h : id ∉ t.constrained) : id ∉ t.control x := by
  intro hmem
  cases he : t.entry? x with
  | none => simp [control, he] at hmem
  | some e =>
    have hcontrol : id ∈ e.control := by simpa [control, he] using hmem
    refine h (List.mem_flatMap.2 ⟨e, List.mem_filter.2 ⟨mem_of_entry_eq_some he, ?_⟩,
      List.mem_cons_of_mem _ hcontrol⟩)
    simpa using List.ne_nil_of_mem hcontrol

/-! ## Kernels -/

/-- The kernel of a node. -/
def tree (t : Trace) (M : List NodeId) (id : NodeId) : Kernel := t.kernel M (id.index + 1) id

/-- Every depth above the number of a node gives the same kernel. -/
theorem kernel_eq_tree (ht : t.WellFormed) {depth : Nat} (h : id.index < depth) :
    t.kernel M depth id = t.tree M id := by
  induction hk : id.index using Nat.strongRecOn generalizing id depth with
  | ind k ih =>
    subst hk
    obtain ⟨depth, rfl⟩ : ∃ d, depth = d + 1 := ⟨depth - 1, by omega⟩
    rw [tree, kernel, kernel]
    split
    · rename_i op inputs hkind
      obtain ⟨n, hn, hkind⟩ := Option.map_eq_some_iff.1 hkind
      congr 1
      refine List.map_congr_left fun i hi => ?_
      split
      · have hlt : i.index < id.index := (ht.input_lt (by
          simpa [inputs_of_node? hn, Node.inputs, hkind] using hi)).2
        have hkernel : t.kernel M id.index i = t.tree M i := ih _ hlt hlt rfl
        rw [ih _ hlt (by omega) rfl, hkernel]
      · rfl
    · rfl

theorem tree_apply (ht : t.WellFormed) (hn : t.node? id = some n) {op : Op}
    {inputs : List NodeId} (hk : n.kind = .apply op inputs) :
    t.tree M id = .apply id op (inputs.map fun i => if i ∈ M then t.tree M i else .leaf i) := by
  rw [tree, kernel]
  simp only [hn, Option.map_some, hk]
  congr 1
  refine List.map_congr_left fun i hi => ?_
  split
  · have hinput : i ∈ t.inputs id := by simpa [inputs_of_node? hn, Node.inputs, hk] using hi
    exact kernel_eq_tree ht (ht.input_lt hinput).2
  · rfl

theorem leaves_tree (ht : t.WellFormed) (helementwise : t.isElementwise id = true) :
    (t.tree M id).leaves =
      (t.inputs id).flatMap fun i => if i ∈ M then (t.tree M i).leaves else [i] := by
  obtain ⟨n, op, inputs, hn, hk, -⟩ := exists_apply_of_isElementwise helementwise
  have hinputs : t.inputs id = inputs := by simp [inputs_of_node? hn, Node.inputs, hk]
  rw [tree_apply ht hn hk, Kernel.leaves, Kernel.leavesAll_map, hinputs]
  refine List.flatMap_congr fun i _ => ?_
  split
  · rfl
  · rfl

/-- The nodes that the step of a node evaluates, the node itself last. -/
def block (t : Trace) (M : List NodeId) (id : NodeId) : List NodeId :=
  match t.tree M id with
  | .leaf _ => [id]
  | .apply node op args => Kernel.applied (.apply node op args)

theorem block_of_not_apply (h : ∀ n op inputs, t.node? id = some n → n.kind ≠ .apply op inputs) :
    t.block M id = [id] := by
  have htree : t.tree M id = .leaf id := by
    rw [tree, kernel]
    split
    · rename_i op inputs hkind
      obtain ⟨n, hn, hkind⟩ := Option.map_eq_some_iff.1 hkind
      exact absurd hkind (h n op inputs hn)
    · rfl
  rw [block, htree]

/-- The nodes that the step of a node evaluates for its inputs, which are those merged into it. -/
def inputBlocks (t : Trace) (M ids : List NodeId) : List NodeId :=
  (ids.filter (· ∈ M)).flatMap (t.block M)

theorem inputBlocks_cons_of_mem (h : x ∈ M) (ids : List NodeId) :
    t.inputBlocks M (x :: ids) = t.block M x ++ t.inputBlocks M ids := by
  rw [inputBlocks, List.filter_cons_of_pos (by simpa using h), List.flatMap_cons, inputBlocks]

theorem inputBlocks_cons_of_not_mem (h : x ∉ M) (ids : List NodeId) :
    t.inputBlocks M (x :: ids) = t.inputBlocks M ids := by
  rw [inputBlocks, List.filter_cons_of_neg (by simpa using h), inputBlocks]

theorem mem_inputBlocks {ids : List NodeId} :
    x ∈ t.inputBlocks M ids ↔ ∃ i ∈ ids, i ∈ M ∧ x ∈ t.block M i := by
  simp [inputBlocks, and_assoc]

theorem inputBlocks_eq_nil {ids : List NodeId} (h : ∀ i ∈ ids, i ∉ M) :
    t.inputBlocks M ids = [] := by
  rw [inputBlocks, List.filter_eq_nil_iff.2 fun i hi => by simpa using h i hi, List.flatMap_nil]

/-- If each block contains `id` as often as `r`, and its own root once more, so do the blocks
of the inputs. -/
theorem count_inputBlocks (hm : id ∈ M) {ids : List NodeId}
    (h : ∀ i ∈ ids, i ∈ M →
      (t.block M i).count id = (if i = id then 1 else 0) + (t.block M i).count r) :
    (t.inputBlocks M ids).count id = ids.count id + (t.inputBlocks M ids).count r := by
  induction ids with
  | nil => rfl
  | cons i ids ih =>
    obtain ⟨hi, hrest⟩ := List.forall_mem_cons.1 h
    have ih := ih hrest
    rw [List.count_cons]
    by_cases him : i ∈ M
    · rw [inputBlocks_cons_of_mem him, List.count_append, List.count_append, hi him]
      simp only [beq_iff_eq]
      omega
    · have hne : i ≠ id := fun he => him (he ▸ hm)
      rw [inputBlocks_cons_of_not_mem him, ih]
      simp [hne]

theorem Scheduled.input_mem (hs : t.Scheduled s) (hid : id ∈ s.nodes) (hx : x ∈ t.inputs id) :
    x ∈ s.nodes :=
  hs.predecessor hid (List.mem_append_left _ hx)

/-- The nodes that are roots of steps. -/
def roots (t : Trace) (s : Schedule) : List NodeId := s.nodes.filter (· ∉ t.merged s)

theorem mem_roots : id ∈ t.roots s ↔ id ∈ s.nodes ∧ id ∉ t.merged s := by
  simp [roots]

/-- The step of a root. -/
def stepOf (t : Trace) (M : List NodeId) (id : NodeId) : Step :=
  if t.isElementwise id && (t.inputs id).any (· ∈ M) then .fused id (t.tree M id) else .single id

theorem steps_fuse : (t.fuse s).steps = (t.roots s).map (t.stepOf (t.merged s)) := rfl

@[simp] theorem root_stepOf : (t.stepOf M id).root = id := by
  rw [stepOf]
  split <;> rfl

/-- Only elementwise operations read merged nodes. -/
theorem isElementwise_of_merged_input (hs : t.Scheduled s) (hid : id ∈ s.nodes)
    (hx : x ∈ t.inputs id) (hm : x ∈ t.merged s) : t.isElementwise id = true := by
  obtain ⟨r, -, helementwise, huses⟩ := ((merged_iff hs).1 hm).reader
  have hpos : 0 < (t.inputs id).count x := List.count_pos_iff.2 hx
  have hcount := huses id hid
  by_cases hr : id = r
  · exact hr ▸ helementwise
  · rw [if_neg hr] at hcount
    omega

/-- A merged node is an input of whatever waits for it. -/
theorem input_of_predecessor_merged (hs : t.Scheduled s) (hm : id ∈ t.merged s)
    (h : id ∈ t.predecessors x) : id ∈ t.inputs x :=
  (List.mem_append.1 h).resolve_right
    (not_mem_control_of_not_constrained ((merged_iff hs).1 hm).not_constrained)

/-- A step that is not fused reads no merged node. -/
theorem inputs_not_merged (hs : t.Scheduled s) (hid : id ∈ s.nodes)
    (h : ¬ (t.isElementwise id && (t.inputs id).any (· ∈ t.merged s)) = true) :
    ∀ i ∈ t.inputs id, i ∉ t.merged s := by
  intro i hi hm
  rw [Bool.and_eq_true] at h
  exact h ⟨isElementwise_of_merged_input hs hid hi hm,
    List.any_eq_true.2 ⟨i, hi, by simpa using hm⟩⟩

section
variable (ht : t.Reachable) (hs : t.Scheduled s)
include ht hs

theorem applied_tree (hm : id ∈ t.merged s) :
    (t.tree (t.merged s) id).applied = t.block (t.merged s) id := by
  obtain ⟨n, op, inputs, hn, hk, -⟩ :=
    exists_apply_of_isElementwise ((merged_iff hs).1 hm).elementwise
  rw [block, tree_apply ht.wellFormed hn hk]

theorem appliedAll_eq (ids : List NodeId) :
    Kernel.appliedAll (ids.map fun i =>
      if i ∈ t.merged s then t.tree (t.merged s) i else .leaf i) =
      t.inputBlocks (t.merged s) ids := by
  induction ids with
  | nil => rfl
  | cons i ids ih =>
    rw [List.map_cons, Kernel.appliedAll, ih]
    by_cases hm : i ∈ t.merged s
    · rw [if_pos hm, applied_tree ht hs hm, inputBlocks_cons_of_mem hm]
    · rw [if_neg hm, Kernel.applied, inputBlocks_cons_of_not_mem hm, List.nil_append]

theorem block_apply (hn : t.node? id = some n) {op : Op}
    {inputs : List NodeId} (hk : n.kind = .apply op inputs) :
    t.block (t.merged s) id = t.inputBlocks (t.merged s) inputs ++ [id] := by
  rw [block, tree_apply ht.wellFormed hn hk]
  exact congrArg (· ++ [id]) (appliedAll_eq ht hs inputs)

/-- The nodes evaluated with a scheduled node: merged inputs first. -/
theorem block_eq (hid : id ∈ s.nodes) :
    t.block (t.merged s) id = t.inputBlocks (t.merged s) (t.inputs id) ++ [id] := by
  obtain ⟨n, hn⟩ := exists_node_of_contains (hs.known hid)
  by_cases hk : ∃ op inputs, n.kind = .apply op inputs
  · obtain ⟨op, inputs, hk⟩ := hk
    rw [block_apply ht hs hn hk, inputs_of_node? hn]
    simp [Node.inputs, hk]
  · have hnone : ∀ i ∈ t.inputs id, i ∉ t.merged s := by
      intro i hi hmerged
      obtain ⟨n', op, inputs, hn', hk', -⟩ :=
        exists_apply_of_isElementwise (isElementwise_of_merged_input hs hid hi hmerged)
      rw [hn] at hn'
      cases hn'
      exact hk ⟨op, inputs, hk'⟩
    rw [inputBlocks_eq_nil hnone, List.nil_append]
    refine block_of_not_apply fun n' op inputs hn' hk' => hk ⟨op, inputs, ?_⟩
    rw [hn] at hn'
    cases hn'
    exact hk'

/-- A statement about the nodes evaluated with a scheduled node by induction over its
merged inputs. -/
theorem block_induction {motive : NodeId → Prop}
    (step : ∀ id ∈ s.nodes, (∀ i ∈ t.inputs id, i ∈ t.merged s → motive i) → motive id)
    (hid : id ∈ s.nodes) : motive id := by
  induction hk : id.index using Nat.strongRecOn generalizing id with
  | ind k ih =>
    subst hk
    exact step id hid fun i hi _ =>
      ih _ (ht.wellFormed.input_lt hi).2 (hs.input_mem hid hi) rfl

theorem self_mem_block (hid : id ∈ s.nodes) : id ∈ t.block (t.merged s) id := by
  rw [block_eq ht hs hid]
  exact List.mem_append_right _ List.mem_cons_self

theorem block_of_inputs_not_merged (hid : id ∈ s.nodes)
    (h : ∀ i ∈ t.inputs id, i ∉ t.merged s) : t.block (t.merged s) id = [id] := by
  rw [block_eq ht hs hid, inputBlocks_eq_nil h, List.nil_append]

theorem mem_block_iff (hid : id ∈ s.nodes) :
    x ∈ t.block (t.merged s) id ↔
      x = id ∨ ∃ i ∈ t.inputs id, i ∈ t.merged s ∧ x ∈ t.block (t.merged s) i := by
  rw [block_eq ht hs hid, List.mem_append, List.mem_singleton, mem_inputBlocks]
  exact or_comm

/-- All nodes evaluated with a node, other than itself, are merged. -/
theorem mem_block (hid : id ∈ s.nodes) (hx : x ∈ t.block (t.merged s) id) :
    x ∈ s.nodes ∧ x.index ≤ id.index ∧ (x = id ∨ x ∈ t.merged s) := by
  refine block_induction ht hs (motive := fun id => x ∈ t.block (t.merged s) id →
    x ∈ s.nodes ∧ x.index ≤ id.index ∧ (x = id ∨ x ∈ t.merged s)) ?_ hid hx
  intro id hid ih hx
  rcases (mem_block_iff ht hs hid).1 hx with rfl | ⟨i, hi, hm, hx⟩
  · exact ⟨hid, Nat.le_refl _, .inl rfl⟩
  · obtain ⟨hmem, hle, hmerged⟩ := ih i hi hm hx
    have hlt := (ht.wellFormed.input_lt hi).2
    refine ⟨hmem, by omega, .inr ?_⟩
    rcases hmerged with rfl | hmerged
    · exact hm
    · exact hmerged

theorem block_subset_merged (hid : id ∈ s.nodes) (hm : id ∈ t.merged s) :
    t.block (t.merged s) id ⊆ t.merged s := by
  intro x hx
  rcases (mem_block ht hs hid hx).2.2 with rfl | h
  · exact hm
  · exact h

theorem inputBlocks_subset_merged {ids : List NodeId} (hids : ∀ i ∈ ids, i ∈ s.nodes) :
    t.inputBlocks (t.merged s) ids ⊆ t.merged s := by
  intro x hx
  obtain ⟨i, hi, hm, hx⟩ := mem_inputBlocks.1 hx
  exact block_subset_merged ht hs (hids i hi) hm hx

/-- The merged inputs of the nodes evaluated with a node are evaluated with it too. -/
theorem mem_block_of_input (hid : id ∈ s.nodes) (hx : x ∈ t.block (t.merged s) id)
    (hr : r ∈ t.inputs x) (hm : r ∈ t.merged s) : r ∈ t.block (t.merged s) id := by
  refine block_induction ht hs (motive := fun id => x ∈ t.block (t.merged s) id →
    r ∈ t.block (t.merged s) id) ?_ hid hx
  intro id hid ih hx
  refine (mem_block_iff ht hs hid).2 ?_
  rcases (mem_block_iff ht hs hid).1 hx with rfl | ⟨i, hi, hmi, hx⟩
  · exact .inr ⟨r, hr, hm, self_mem_block ht hs (hs.input_mem hid hr)⟩
  · exact .inr ⟨i, hi, hmi, ih i hi hmi hx⟩

/-- The leaves of a kernel are roots of steps. -/
theorem leaf_mem_roots (hid : id ∈ s.nodes) (helementwise : t.isElementwise id = true)
    (hx : x ∈ (t.tree (t.merged s) id).leaves) : x ∈ t.roots s := by
  refine block_induction ht hs (motive := fun id => t.isElementwise id = true →
    x ∈ (t.tree (t.merged s) id).leaves → x ∈ t.roots s) ?_ hid helementwise hx
  intro id hid ih helementwise hx
  rw [leaves_tree ht.wellFormed helementwise] at hx
  obtain ⟨i, hi, hx⟩ := List.mem_flatMap.1 hx
  split at hx
  · exact ih i hi ‹_› ((merged_iff hs).1 ‹_›).elementwise hx
  · obtain rfl := List.mem_singleton.1 hx
    exact mem_roots.2 ⟨hs.input_mem hid hi, ‹_›⟩

/-! ## How often a node is evaluated -/

/-- A merged node is evaluated as often as its reader, apart from its own block. -/
theorem count_block_merged (hm : id ∈ t.merged s) (hr : ∀ y ∈ s.nodes,
    (t.inputs y).count id = if y = r then 1 else 0) (hx : x ∈ s.nodes) :
    (t.block (t.merged s) x).count id =
      (if x = id then 1 else 0) + (t.block (t.merged s) x).count r := by
  refine block_induction ht hs (motive := fun x => (t.block (t.merged s) x).count id =
    (if x = id then 1 else 0) + (t.block (t.merged s) x).count r) ?_ hx
  intro x hx ih
  rw [block_eq ht hs hx, List.count_append, List.count_append,
    count_inputBlocks hm ih, hr x hx, List.count_singleton, List.count_singleton]
  simp only [beq_iff_eq]
  omega

/-- A node that is not merged is evaluated in its own block only. -/
theorem count_block_root (hm : id ∉ t.merged s) (hx : x ∈ s.nodes) :
    (t.block (t.merged s) x).count id = if x = id then 1 else 0 := by
  have hzero : (t.inputBlocks (t.merged s) (t.inputs x)).count id = 0 :=
    List.count_eq_zero.2 fun hmem =>
      hm (inputBlocks_subset_merged ht hs (fun i hi => hs.input_mem hx hi) hmem)
  rw [block_eq ht hs hx, List.count_append, List.count_singleton, hzero, Nat.zero_add]
  simp only [beq_iff_eq]

/-- The steps of a fused plan evaluate the blocks of their roots. -/
theorem evaluated_fuse :
    (t.fuse s).evaluated = (t.roots s).flatMap (t.block (t.merged s)) := by
  rw [Plan.evaluated, steps_fuse, List.flatMap_map]
  refine List.flatMap_congr fun id hid => ?_
  obtain ⟨hmem, -⟩ := mem_roots.1 hid
  rw [stepOf]
  split
  · rename_i h
    rw [Bool.and_eq_true] at h
    obtain ⟨n, op, inputs, hn, hk, -⟩ := exists_apply_of_isElementwise h.1
    rw [Step.evaluated, block, tree_apply ht.wellFormed hn hk]
  · rw [Step.evaluated, block_of_inputs_not_merged ht hs hmem (inputs_not_merged hs hmem ‹_›)]

private theorem count_flatMap_blocks {ids : List NodeId} (hids : ∀ x ∈ ids, x ∈ s.nodes)
    (hm : id ∈ t.merged s) (hnot : ∀ x ∈ ids, x ≠ id)
    (hr : ∀ y ∈ s.nodes, (t.inputs y).count id = if y = r then 1 else 0) :
    (ids.flatMap (t.block (t.merged s))).count id =
      (ids.flatMap (t.block (t.merged s))).count r := by
  induction ids with
  | nil => rfl
  | cons x ids ih =>
    rw [List.flatMap_cons, List.count_append, List.count_append,
      count_block_merged ht hs hm hr (hids x List.mem_cons_self),
      if_neg (hnot x List.mem_cons_self),
      ih (fun y hy => hids y (List.mem_cons_of_mem _ hy))
        (fun y hy => hnot y (List.mem_cons_of_mem _ hy)), Nat.zero_add]

private theorem count_flatMap_roots {ids : List NodeId} (hids : ∀ x ∈ ids, x ∈ s.nodes)
    (hm : id ∉ t.merged s) :
    (ids.flatMap (t.block (t.merged s))).count id = ids.count id := by
  induction ids with
  | nil => rfl
  | cons x ids ih =>
    rw [List.flatMap_cons, List.count_append, count_block_root ht hs hm (hids x List.mem_cons_self),
      ih fun y hy => hids y (List.mem_cons_of_mem _ hy), List.count_cons]
    simp only [beq_iff_eq]
    omega

theorem count_evaluated (hid : id ∈ s.nodes) : (t.fuse s).evaluated.count id = 1 := by
  -- a merged node is evaluated as often as its reader, which has a larger number
  induction hk : t.size - id.index using Nat.strongRecOn generalizing id with
  | ind k ih =>
    subst hk
    have hroots : ∀ x ∈ t.roots s, x ∈ s.nodes := fun x hx => (mem_roots.1 hx).1
    rw [evaluated_fuse ht hs]
    by_cases hm : id ∈ t.merged s
    · obtain ⟨r, hr, -, huses⟩ := ((merged_iff hs).1 hm).reader
      have hpos : 0 < (t.inputs r).count id := by rw [huses r hr, if_pos rfl]; exact Nat.one_pos
      have hlt := (ht.wellFormed.input_lt (List.count_pos_iff.1 hpos)).2
      have hsize := (contains_iff.1 (hs.known hr)).2
      rw [count_flatMap_blocks ht hs hroots hm (fun x hx he => (mem_roots.1 hx).2 (he ▸ hm)) huses,
        ← evaluated_fuse ht hs]
      exact ih _ (by omega) hr rfl
    · rw [count_flatMap_roots ht hs hroots hm]
      exact List.count_eq_one_of_mem (hs.ascending.nodup.filter _) (mem_roots.2 ⟨hid, hm⟩)

/-- A fused plan evaluates every scheduled node once. -/
theorem perm_evaluated : (t.fuse s).evaluated.Perm s.nodes := by
  refine List.perm_iff_count.2 fun id => ?_
  by_cases hid : id ∈ s.nodes
  · rw [count_evaluated ht hs hid, List.count_eq_one_of_mem hs.ascending.nodup hid]
  · rw [List.count_eq_zero.2 hid]
    refine List.count_eq_zero.2 fun hmem => hid ?_
    rw [evaluated_fuse ht hs] at hmem
    obtain ⟨x, hx, hmem⟩ := List.mem_flatMap.1 hmem
    exact (mem_block ht hs (mem_roots.1 hx).1 hmem).1

theorem nodup_evaluated : (t.fuse s).evaluated.Nodup :=
  (perm_evaluated ht hs).nodup_iff.2 hs.ascending.nodup

/-! ## The order respects all edges -/

private theorem pairwise_block (hid : id ∈ s.nodes) (hnodup : (t.block (t.merged s) id).Nodup) :
    (t.block (t.merged s) id).Pairwise fun a b => b ∉ t.predecessors a := by
  refine block_induction ht hs (motive := fun id => (t.block (t.merged s) id).Nodup →
    (t.block (t.merged s) id).Pairwise fun a b => b ∉ t.predecessors a) ?_ hid hnodup
  intro id hid ih hnodup
  have hle : ∀ x ∈ t.block (t.merged s) id, x.index ≤ id.index :=
    fun x hx => (mem_block ht hs hid hx).2.1
  rw [block_eq ht hs hid] at hnodup hle ⊢
  refine List.pairwise_append.2 ⟨?_, List.pairwise_singleton _ _, ?_⟩
  · obtain ⟨hblocks, hdisjoint⟩ := List.nodup_flatMap.1 (List.nodup_append.1 hnodup).1
    have hinputs : ∀ i ∈ (t.inputs id).filter (· ∈ t.merged s),
        i ∈ t.inputs id ∧ i ∈ t.merged s := fun i hi => by simpa using hi
    refine List.pairwise_flatMap.2 ⟨fun i hi => ?_, ?_⟩
    · obtain ⟨hmem, hm⟩ := hinputs i hi
      exact ih i hmem hm (hblocks i hi)
    · refine List.Pairwise.imp_of_mem (fun {i j} hi hj hij a ha b hb hpred => ?_) hdisjoint
      obtain ⟨hi, -⟩ := hinputs i hi
      obtain ⟨hj, hmj⟩ := hinputs j hj
      have hmb := block_subset_merged ht hs (hs.input_mem hid hj) hmj hb
      have hinput := input_of_predecessor_merged hs hmb hpred
      exact hij (mem_block_of_input ht hs (hs.input_mem hid hi) ha hinput hmb) hb
  · intro a ha b hb hpred
    obtain rfl := List.mem_singleton.1 hb
    have := (ht.predecessor_lt hpred).2
    have := hle a (List.mem_append_left _ ha)
    omega

/-- The order in which a fused plan evaluates respects all edges. -/
theorem linearizes_evaluated : t.Linearizes {id | id ∈ s.nodes} (t.fuse s).evaluated where
  mem_iff := (perm_evaluated ht hs).mem_iff
  nodup := nodup_evaluated ht hs
  respects := by
    have hnodup := nodup_evaluated ht hs
    rw [evaluated_fuse ht hs] at hnodup ⊢
    obtain ⟨hblocks, hdisjoint⟩ := List.nodup_flatMap.1 hnodup
    refine List.pairwise_flatMap.2
      ⟨fun x hx => pairwise_block ht hs (mem_roots.1 hx).1 (hblocks x hx), ?_⟩
    have hordered : (t.roots s).Pairwise fun x y => x.before y = true :=
      hs.ascending.filter _
    refine List.Pairwise.imp_of_mem (fun {x y} hx hy hxy a ha b hb hpred => ?_)
      (hordered.and hdisjoint)
    obtain ⟨hx, -⟩ := mem_roots.1 hx
    obtain ⟨hy, -⟩ := mem_roots.1 hy
    by_cases hmb : b ∈ t.merged s
    · have hinput := input_of_predecessor_merged hs hmb hpred
      exact hxy.2 (mem_block_of_input ht hs hx ha hinput hmb) hb
    · -- an unmerged node of the later block is its root
      obtain rfl := (mem_block ht hs hy hb).2.2.resolve_right hmb
      have hlt := (ht.predecessor_lt hpred).2
      have hle := (mem_block ht hs hx ha).2.1
      have hbefore := hxy.1
      simp only [NodeId.before, (contains_iff.1 (hs.known hx)).1,
        (contains_iff.1 (hs.known hy)).1, Bool.or_eq_true, Bool.and_eq_true,
        decide_eq_true_eq] at hbefore
      omega

end
end Trace
end ArrayTrace
