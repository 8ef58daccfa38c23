import ArrayTrace.Proofs.Calls

/-!
# Fusion and the calling convention

The fused and the unfused program of one trace take the same parameters, but each lists them
in the order in which its own steps first read them. A merged node reads its inputs when its
reader is computed, so the two orders differ when merged nodes read placeholders in another
order than their readers read the merged nodes.
-/

namespace ArrayTrace

attribute [ext] Signature

namespace Trace
variable {t : Trace} {s : Schedule} {plan : Plan} {n x : Node} {id r : NodeId}
  {nodes nodes' rest : List Node} {ids outputs : List NodeId}

/-! ## Prefixes of lists of distinct nodes -/

theorem prefix_distinct_append (nodes rest : List Node) :
    distinct nodes <+: distinct (nodes ++ rest) := by
  induction rest using List.reverseRecOn with
  | nil => simp
  | append_singleton rest n ih =>
    rw [← List.append_assoc, distinct_append_singleton]
    split
    · exact ih
    · exact ih.trans (List.prefix_append _ _)

/-- What is listed after nodes does not hide how they differ. -/
theorem distinct_append_inj (hperm : (distinct nodes).Perm (distinct nodes')) :
    distinct (nodes ++ rest) = distinct (nodes' ++ rest) ↔ distinct nodes = distinct nodes' := by
  constructor
  · intro h
    have hprefix := prefix_distinct_append nodes rest
    rw [h] at hprefix
    rw [List.prefix_iff_eq_take.1 hprefix,
      List.prefix_iff_eq_take.1 (prefix_distinct_append nodes' rest), hperm.length_eq]
  · intro h
    rw [distinct, distinct, List.foldl_append, List.foldl_append, ← distinct, ← distinct, h]

/-! ## Reads of placeholders -/

/-- The placeholder of an id. -/
def placeholder? (t : Trace) (id : NodeId) : Option Node := (t.node? id).filter Node.isPlaceholder

/-- The placeholders that the steps of a plan read, in the order in which they first do. -/
def firstReads (t : Trace) (plan : Plan) : List Node :=
  distinct ((t.stepReads plan).filterMap t.placeholder?)

theorem filter_isPlaceholder_nodesAt :
    (t.nodesAt ids).filter Node.isPlaceholder = ids.filterMap t.placeholder? := by
  rw [nodesAt, List.filter_filterMap]
  rfl

theorem placeholder?_of_merged (hs : t.Scheduled s) (hm : id ∈ t.merged s) :
    t.placeholder? id = none := by
  rw [placeholder?, Option.filter_eq_none_iff]
  intro n hn hplaceholder
  exact not_merged_of_isStorage hs hn (Node.isStorage_of_isPlaceholder hplaceholder) hm

/-- The parameters are those that the steps read, then those that are only returned. -/
theorem passed_eq : t.passed plan =
    distinct ((t.stepReads plan).filterMap t.placeholder? ++
      (plan.outputs ++ plan.roots).filterMap t.placeholder?) := by
  rw [passed, filter_isPlaceholder_nodesAt, mentioned, List.append_assoc, List.filterMap_append]
  rfl

/-- What the step of a node reads. -/
def blockReads (t : Trace) (M : List NodeId) (id : NodeId) : List NodeId :=
  (t.inputs id).flatMap fun i => if i ∈ M then (t.tree M i).leaves else [i]

theorem stepReads_ofSchedule : t.stepReads (.ofSchedule s) = s.nodes.flatMap t.inputs := by
  rw [stepReads, Plan.ofSchedule, List.flatMap_map]

theorem nodup_distinct (nodes : List Node) : (distinct nodes).Nodup :=
  (nodup_map_id_distinct nodes).of_map _

theorem eq_of_placeholder? (ht : t.WellFormed) :
    ∀ a ∈ ids.filterMap t.placeholder?, ∀ b ∈ ids.filterMap t.placeholder?,
      a.id = b.id → a = b := by
  rw [← filter_isPlaceholder_nodesAt]
  intro a ha b hb hid
  exact ht.eq_of_id_eq (ht.mem_nodesAt.1 (List.mem_filter.1 ha).1).1
    (ht.mem_nodesAt.1 (List.mem_filter.1 hb).1).1 hid

section
variable (ht : t.Reachable) (hs : t.Scheduled s)
include ht hs

/-- The step of a root reads what its merged inputs read in their place. -/
theorem stepReads_fuse :
    t.stepReads (t.fuse s) = (t.roots s).flatMap (t.blockReads (t.merged s)) := by
  rw [stepReads, steps_fuse, List.flatMap_map]
  refine List.flatMap_congr fun id hid => ?_
  obtain ⟨hmem, -⟩ := mem_roots.1 hid
  by_cases hfused : (t.isElementwise id && (t.inputs id).any (· ∈ t.merged s)) = true
  · rw [stepOf, if_pos hfused]
    rw [Bool.and_eq_true] at hfused
    exact leaves_tree ht.wellFormed hfused.1
  · have hinputs := inputs_not_merged hs hmem hfused
    rw [stepOf, if_neg hfused, blockReads, List.flatMap_congr fun i hi => if_neg (hinputs i hi)]
    exact (List.flatMap_singleton' _).symm

theorem blockReads_eq : t.blockReads (t.merged s) id =
    (t.inputs id).flatMap fun i =>
      if i ∈ t.merged s then t.blockReads (t.merged s) i else [i] := by
  refine List.flatMap_congr fun i hi => ?_
  by_cases hm : i ∈ t.merged s
  · rw [if_pos hm, if_pos hm, leaves_tree ht.wellFormed ((merged_iff hs).1 hm).elementwise,
      blockReads]
  · rw [if_neg hm, if_neg hm]

theorem mem_blockReads (hid : id ∈ s.nodes) : r ∈ t.blockReads (t.merged s) id ↔
    r ∉ t.merged s ∧ ∃ x ∈ t.block (t.merged s) id, r ∈ t.inputs x := by
  refine block_induction ht hs (motive := fun id => r ∈ t.blockReads (t.merged s) id ↔
    r ∉ t.merged s ∧ ∃ x ∈ t.block (t.merged s) id, r ∈ t.inputs x) ?_ hid
  intro id hid ih
  rw [blockReads_eq ht hs, List.mem_flatMap]
  constructor
  · rintro ⟨i, hi, hr⟩
    split at hr
    · rename_i hm
      obtain ⟨hnot, x, hx, hr⟩ := (ih i hi hm).1 hr
      exact ⟨hnot, x, (mem_block_iff ht hs hid).2 (.inr ⟨i, hi, hm, hx⟩), hr⟩
    · obtain rfl := List.mem_singleton.1 hr
      exact ⟨‹_›, id, self_mem_block ht hs hid, hi⟩
  · rintro ⟨hnot, x, hx, hr⟩
    rcases (mem_block_iff ht hs hid).1 hx with rfl | ⟨i, hi, hm, hx⟩
    · exact ⟨r, hr, by rw [if_neg hnot]; exact List.mem_cons_self⟩
    · exact ⟨i, hi, by rw [if_pos hm]; exact (ih i hi hm).2 ⟨hnot, x, hx, hr⟩⟩

/-- A fused plan reads what the schedule reads, apart from merged nodes. -/
theorem mem_stepReads_fuse :
    r ∈ t.stepReads (t.fuse s) ↔ r ∉ t.merged s ∧ ∃ x ∈ s.nodes, r ∈ t.inputs x := by
  rw [stepReads_fuse ht hs, List.mem_flatMap]
  constructor
  · rintro ⟨id, hid, hr⟩
    obtain ⟨hid, -⟩ := mem_roots.1 hid
    obtain ⟨hnot, x, hx, hr⟩ := (mem_blockReads ht hs hid).1 hr
    exact ⟨hnot, x, (mem_block ht hs hid hx).1, hr⟩
  · rintro ⟨hnot, x, hx, hr⟩
    have hx := (perm_evaluated ht hs).mem_iff.2 hx
    rw [evaluated_fuse ht hs] at hx
    obtain ⟨id, hid, hx⟩ := List.mem_flatMap.1 hx
    exact ⟨id, hid, (mem_blockReads ht hs (mem_roots.1 hid).1).2 ⟨hnot, x, hx, hr⟩⟩

/-- Both plans read the same placeholders. -/
theorem perm_firstReads : (t.firstReads (t.fuse s)).Perm (t.firstReads (.ofSchedule s)) := by
  refine (List.perm_ext_iff_of_nodup (nodup_distinct _) (nodup_distinct _)).2 fun n => ?_
  rw [mem_distinct (eq_of_placeholder? ht.wellFormed),
    mem_distinct (eq_of_placeholder? ht.wellFormed), List.mem_filterMap, List.mem_filterMap]
  refine exists_congr fun id => and_congr_left fun hn => ?_
  have hnot : id ∉ t.merged s := fun hm => by
    rw [placeholder?_of_merged hs hm] at hn
    cases hn
  rw [mem_stepReads_fuse ht hs, stepReads_ofSchedule, List.mem_flatMap]
  exact and_iff_right hnot

/-- The plans agree on the order of the parameters if they agree on what is read first. -/
theorem passed_fuse_iff : t.passed (t.fuse s) = t.passed (.ofSchedule s) ↔
    t.firstReads (t.fuse s) = t.firstReads (.ofSchedule s) := by
  have hroots : (t.fuse s).roots.filterMap t.placeholder? =
      (Plan.ofSchedule s).roots.filterMap t.placeholder? := by
    rw [← filter_isPlaceholder_nodesAt, ← filter_isPlaceholder_nodesAt, roots_fuse,
      roots_ofSchedule, filter_nodesAt_roots hs fun n h => Node.isStorage_of_isPlaceholder h]
  have houtputs : (t.fuse s).outputs = (Plan.ofSchedule s).outputs := rfl
  rw [passed_eq, passed_eq, List.filterMap_append, List.filterMap_append, hroots, houtputs]
  exact distinct_append_inj (perm_firstReads ht hs)

/-- When no merged node reads a placeholder, both plans read the placeholders in one order. -/
theorem firstReads_fuse_of_merged
    (h : ∀ id ∈ t.merged s, ∀ i ∈ t.inputs id, t.placeholder? i = none) :
    t.firstReads (t.fuse s) = t.firstReads (.ofSchedule s) := by
  have hmerged : ∀ id ∈ t.merged s, (t.inputs id).filterMap t.placeholder? = [] :=
    fun id hid => List.filterMap_eq_nil_iff.2 (h id hid)
  have hblock : ∀ id ∈ s.nodes, (t.blockReads (t.merged s) id).filterMap t.placeholder? =
      (t.inputs id).filterMap t.placeholder? := by
    intro id hid
    refine block_induction ht hs (motive := fun id =>
      (t.blockReads (t.merged s) id).filterMap t.placeholder? =
        (t.inputs id).filterMap t.placeholder?) ?_ hid
    intro id _ ih
    rw [blockReads_eq ht hs, List.filterMap_flatMap, ← List.flatMap_singleton' (t.inputs id),
      List.filterMap_flatMap, List.flatMap_singleton']
    refine List.flatMap_congr fun i hi => ?_
    by_cases hm : i ∈ t.merged s
    · rw [if_pos hm, ih i hi hm, hmerged i hm]
      simp [placeholder?_of_merged hs hm]
    · rw [if_neg hm]
  rw [firstReads, firstReads, stepReads_fuse ht hs, stepReads_ofSchedule, List.filterMap_flatMap,
    List.filterMap_flatMap, roots]
  congr 1
  rw [List.flatMap_congr fun id hid => hblock id (List.mem_of_mem_filter hid)]
  generalize s.nodes = ids
  induction ids with
  | nil => rfl
  | cons id ids ih =>
    by_cases hm : id ∈ t.merged s
    · simpa [hm, hmerged id hm] using ih
    · simpa [hm] using ih

end

theorem map_decl_inj (ht : t.WellFormed) (h : ∀ n ∈ nodes, n ∈ t.nodes)
    (h' : ∀ n ∈ nodes', n ∈ t.nodes) :
    nodes.map Node.decl = nodes'.map Node.decl ↔ nodes = nodes' := by
  refine ⟨fun he => ?_, congrArg _⟩
  induction nodes generalizing nodes' with
  | nil => exact (List.map_eq_nil_iff.1 he.symm).symm
  | cons n nodes ih =>
    obtain ⟨n', nodes', rfl, hdecl, hrest⟩ := List.map_eq_cons_iff.1 he.symm
    obtain ⟨hn, hnodes⟩ := List.forall_mem_cons.1 h
    obtain ⟨hn', hnodes'⟩ := List.forall_mem_cons.1 h'
    obtain rfl := List.inj_on_of_nodup_map ht.names_nodup hn hn'
      (congrArg ArrayDecl.name hdecl.symm)
    rw [ih hnodes hnodes' hrest.symm]

/-- Fusion keeps the name, the outputs and the variables of a unit, and its parameters up to
their order. It keeps the order exactly when the steps of both plans first read the
placeholders in the same order. -/
theorem Reachable.signature_fuse_eq_iff (ht : t.Reachable)
    (houtputs : ∀ o ∈ outputs, t.contains o = true) {unitName : String}
    (hname : isIdentifier unitName = true) :
    let s : Schedule := ⟨t.needed outputs, outputs⟩
    ∃ p q, t.compile outputs { fuse := true, unitName } = .ok p ∧
      t.compile outputs { fuse := false, unitName } = .ok q ∧
      p.signature.unitName = q.signature.unitName ∧
      p.signature.outputs = q.signature.outputs ∧
      p.signature.states = q.signature.states ∧
      p.signature.parameters.Perm q.signature.parameters ∧
      (p.signature = q.signature ↔ t.firstReads (t.fuse s) = t.firstReads (.ofSchedule s)) := by
  intro s
  have hs := ht.scheduled_needed houtputs
  obtain ⟨p, hp, hcompiled⟩ := ht.compile_eq_ok houtputs { fuse := true, unitName }
    rfl hname
  obtain ⟨q, hq, hcompiled'⟩ := ht.compile_eq_ok houtputs { fuse := false, unitName }
    rfl hname
  have hstates : p.signature.states = q.signature.states :=
    (hcompiled.states_eq hs).trans (hcompiled'.states_eq hs).symm
  have hparameters : p.signature.parameters = (t.passed (t.fuse s)).map Node.decl :=
    hcompiled.parameters_eq
  have hparameters' : q.signature.parameters = (t.passed (.ofSchedule s)).map Node.decl :=
    hcompiled'.parameters_eq
  have hunitName : p.signature.unitName = q.signature.unitName := by
    rw [hcompiled.signature_eq, hcompiled'.signature_eq]
    rfl
  have houts : p.signature.outputs = q.signature.outputs := by
    rw [hcompiled.signature_eq, hcompiled'.signature_eq]
    rfl
  refine ⟨p, q, hp, hq, hunitName, houts, hstates, ?_, ?_⟩
  · rw [hparameters, hparameters']
    refine .map _ ((List.perm_ext_iff_of_nodup (nodup_distinct _) (nodup_distinct _)).2 fun n => ?_)
    exact (mem_passed_planOf ht hs true).trans (mem_passed_planOf ht hs false).symm
  · rw [← passed_fuse_iff ht hs,
      ← map_decl_inj ht.wellFormed (fun n hn => (ht.wellFormed.mem_passed.1 hn).1)
        (fun n hn => (ht.wellFormed.mem_passed.1 hn).1),
      ← hparameters, ← hparameters']
    exact ⟨congrArg _, fun h => Signature.ext hunitName h houts hstates⟩

/-- Two inputs that are read in one order and used in the other. -/
def crossed : Trace :=
  [Call.placeholder "a" [] .i64, .placeholder "b" [] .i64, .apply (.unary .neg) [⟨0, 0⟩],
    .apply (.unary .neg) [⟨0, 1⟩], .apply (.binary .sub) [⟨0, 3⟩, ⟨0, 2⟩]].foldl
    Trace.after { id := 0 }

theorem reachable_crossed : crossed.Reachable := .calls (.start 0 {}) _

/-- An operand that is returned as well is not merged, and the orders agree. -/
theorem signature_fuse_crossed :
    ∃ p q, crossed.compile [⟨0, 4⟩, ⟨0, 2⟩] { fuse := true } = .ok p ∧
      crossed.compile [⟨0, 4⟩, ⟨0, 2⟩] { fuse := false } = .ok q ∧
      p.signature = q.signature := by
  have houtputs : ∀ o ∈ [(⟨0, 4⟩ : NodeId), ⟨0, 2⟩], crossed.contains o = true := by decide
  have hname : isIdentifier "jit_unit" = true := by decide
  obtain ⟨p, q, hp, hq, -, -, -, -, hiff⟩ :=
    Reachable.signature_fuse_eq_iff reachable_crossed houtputs hname
  exact ⟨p, q, hp, hq, hiff.2 (by rfl)⟩

/-- Fusion does not always keep the order of the parameters. -/
theorem not_signature_fuse_eq :
    ¬ ∀ (t : Trace) (outputs : List NodeId) (unitName : String) (p q : Program), t.Reachable →
      t.compile outputs { fuse := true, unitName } = .ok p →
      t.compile outputs { fuse := false, unitName } = .ok q → p.signature = q.signature := by
  intro h
  have houtputs : ∀ o ∈ [(⟨0, 4⟩ : NodeId)], crossed.contains o = true := by decide
  obtain ⟨p, hp, hcompiled⟩ := reachable_crossed.compile_eq_ok houtputs
    { fuse := true } rfl (by decide)
  obtain ⟨q, hq, hcompiled'⟩ := reachable_crossed.compile_eq_ok houtputs
    { fuse := false } rfl (by decide)
  have hparameters := congrArg Signature.parameters (h _ _ _ p q reachable_crossed hp hq)
  rw [hcompiled.parameters_eq, hcompiled'.parameters_eq] at hparameters
  have hnames := congrArg (List.map ArrayDecl.name) hparameters
  revert hnames
  decide

end Trace
end ArrayTrace
