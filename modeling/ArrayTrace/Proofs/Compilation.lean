import ArrayTrace.Proofs.Emission
import Mathlib.Data.List.Induction

/-!
# Compiled programs

Compiling known outputs under a valid unit name succeeds, with or without fusion. The
program holds the scheduled nodes, its plan, and a signature that lists the placeholders
in the order in which the plan mentions them, the outputs, and the variables.
-/

namespace ArrayTrace

/-- Whether a node is a placeholder. -/
def Node.isPlaceholder (n : Node) : Bool := n.kind matches .placeholder

/-- Whether a node is a variable. -/
def Node.isState (n : Node) : Bool := n.kind matches .state _

theorem Node.isStorage_of_isPlaceholder {n : Node} (h : n.isPlaceholder = true) :
    n.isStorage = true := by
  obtain ⟨_, _, _, kind⟩ := n
  cases kind <;> first | rfl | cases h

theorem Node.isStorage_of_isState {n : Node} (h : n.isState = true) : n.isStorage = true := by
  obtain ⟨_, _, _, kind⟩ := n
  cases kind <;> first | rfl | cases h

/-- The nodes that the steps of a plan produce. -/
def Plan.roots (plan : Plan) : List NodeId := plan.steps.map Step.root

namespace Trace
variable {t : Trace} {s : Schedule} {n x : Node} {id : NodeId} {ids outputs : List NodeId}
  {nodes : List Node} {plan : Plan}

/-- The nodes of known ids. -/
def nodesAt (t : Trace) (ids : List NodeId) : List Node := ids.filterMap t.node?

theorem nodesOf_eq (h : ∀ id ∈ ids, t.contains id = true) :
    t.nodesOf ids = .ok (t.nodesAt ids) := by
  induction ids with
  | nil => rfl
  | cons id ids ih =>
    obtain ⟨hid, hids⟩ := List.forall_mem_cons.1 h
    obtain ⟨n, hn⟩ := exists_node_of_contains hid
    have hrest := ih hids
    rw [nodesOf] at hrest
    rw [nodesOf, List.mapM_cons, hrest, node_eq_ok.2 hn, nodesAt, nodesAt,
      List.filterMap_cons_some hn]
    rfl

theorem WellFormed.mem_nodesAt (ht : t.WellFormed) :
    n ∈ t.nodesAt ids ↔ n ∈ t.nodes ∧ n.id ∈ ids := by
  rw [nodesAt, List.mem_filterMap]
  constructor
  · rintro ⟨id, hid, hn⟩
    obtain ⟨hmem, rfl⟩ := ht.node?_eq_some.1 hn
    exact ⟨hmem, hid⟩
  · rintro ⟨hmem, hid⟩
    exact ⟨n.id, hid, ht.node?_id hmem⟩

theorem WellFormed.map_id_nodesAt (ht : t.WellFormed) (h : ∀ id ∈ ids, t.contains id = true) :
    (t.nodesAt ids).map Node.id = ids := by
  induction ids with
  | nil => rfl
  | cons id ids ih =>
    obtain ⟨hid, hids⟩ := List.forall_mem_cons.1 h
    obtain ⟨n, hn⟩ := exists_node_of_contains hid
    have hrest := ih hids
    rw [nodesAt] at hrest
    rw [nodesAt, List.filterMap_cons_some hn, List.map_cons, hrest, ht.id_of_node? hn]

/-! ## Parameters -/

/-- The first of the nodes with each id. -/
def distinct (nodes : List Node) : List Node :=
  nodes.foldl (fun acc n => if acc.any fun m => m.id = n.id then acc else acc ++ [n]) []

/-- The placeholders that a plan mentions, in the order in which it does. -/
def passed (t : Trace) (plan : Plan) : List Node :=
  distinct ((t.nodesAt (t.mentioned plan)).filter Node.isPlaceholder)

theorem parameters_eq (h : ∀ id ∈ t.mentioned plan, t.contains id = true) :
    t.parameters plan = .ok (t.passed plan) := by
  rw [parameters, nodesOf_eq h]
  rfl

theorem distinct_append_singleton (nodes : List Node) (n : Node) :
    distinct (nodes ++ [n]) =
      if (distinct nodes).any fun m => m.id = n.id then distinct nodes
      else distinct nodes ++ [n] := by
  simp [distinct]

theorem mem_of_mem_distinct (h : n ∈ distinct nodes) : n ∈ nodes := by
  induction nodes using List.reverseRecOn with
  | nil => simp [distinct] at h
  | append_singleton nodes x ih =>
    rw [distinct_append_singleton] at h
    split at h
    · exact List.mem_append_left _ (ih h)
    · rcases List.mem_append.1 h with h | h
      · exact List.mem_append_left _ (ih h)
      · exact List.mem_append_right _ h

theorem exists_mem_distinct (h : n ∈ nodes) : ∃ m ∈ distinct nodes, m.id = n.id := by
  induction nodes using List.reverseRecOn with
  | nil => cases h
  | append_singleton nodes x ih =>
    rw [distinct_append_singleton]
    rcases List.mem_append.1 h with h | h
    · obtain ⟨m, hm, hid⟩ := ih h
      split
      · exact ⟨m, hm, hid⟩
      · exact ⟨m, List.mem_append_left _ hm, hid⟩
    · obtain rfl := List.mem_singleton.1 h
      split
      · rename_i hany
        obtain ⟨m, hm, hid⟩ := List.any_eq_true.1 hany
        exact ⟨m, hm, by simpa using hid⟩
      · exact ⟨n, List.mem_append_right _ List.mem_cons_self, rfl⟩

theorem nodup_map_id_distinct (nodes : List Node) : ((distinct nodes).map Node.id).Nodup := by
  induction nodes using List.reverseRecOn with
  | nil => exact .nil
  | append_singleton nodes x ih =>
    rw [distinct_append_singleton]
    split
    · exact ih
    · rename_i hany
      rw [List.map_append, List.nodup_append]
      refine ⟨ih, List.nodup_singleton _, fun a ha b hb he => hany ?_⟩
      obtain ⟨m, hm, rfl⟩ := List.mem_map.1 ha
      obtain rfl : b = x.id := by simpa using hb
      exact List.any_eq_true.2 ⟨m, hm, by simpa using he⟩

theorem mem_distinct (h : ∀ a ∈ nodes, ∀ b ∈ nodes, a.id = b.id → a = b) :
    n ∈ distinct nodes ↔ n ∈ nodes := by
  refine ⟨mem_of_mem_distinct, fun hn => ?_⟩
  obtain ⟨m, hm, hid⟩ := exists_mem_distinct hn
  exact h m (mem_of_mem_distinct hm) n hn hid ▸ hm

theorem WellFormed.mem_passed (ht : t.WellFormed) :
    n ∈ t.passed plan ↔ n ∈ t.nodes ∧ n.id ∈ t.mentioned plan ∧ n.isPlaceholder = true := by
  rw [passed, mem_distinct, List.mem_filter, ht.mem_nodesAt, and_assoc]
  intro a ha b hb hid
  exact ht.eq_of_id_eq (ht.mem_nodesAt.1 (List.mem_filter.1 ha).1).1
    (ht.mem_nodesAt.1 (List.mem_filter.1 hb).1).1 hid

/-! ## Storage -/

theorem isSome_lookup_of_mem {α β : Type} [BEq α] [LawfulBEq α] {a : α} {b : β}
    {l : List (α × β)} (h : (a, b) ∈ l) : (l.lookup a).isSome = true := by
  rw [Option.isSome_iff_ne_none]
  intro hnone
  have := List.lookup_eq_none_iff.1 hnone (a, b) h
  simp at this

/-- Every root of a plan has storage when the targets of its assignments are roots. -/
theorem storageOf_eq_ok (roots : List Node) (assigned : List NodeId)
    (h : ∀ n ∈ roots, ∀ target, n.target? = some target →
      ∃ m ∈ roots, m.id = target ∧ m.target? = none) :
    ∃ storage, storageOf roots assigned = .ok storage ∧
      ∀ n ∈ roots, (storage.lookup n.id).isSome = true := by
  have hown : ∀ n ∈ roots, n.target? = none → ∃ s, (n.id, s) ∈
      roots.filterMap fun n => (n.ownStorage? assigned).map fun s => (n.id, s) := by
    intro n hn htarget
    have hstorage : ∃ s, n.ownStorage? assigned = some s := by
      obtain ⟨_, _, _, kind⟩ := n
      cases kind with
      | assign => cases htarget
      | _ => exact ⟨_, rfl⟩
    obtain ⟨s, hs⟩ := hstorage
    exact ⟨s, List.mem_filterMap.2 ⟨n, hn, by simp [hs]⟩⟩
  have hok : Succeeds (storageOf roots assigned) := by
    refine Succeeds.bind (Succeeds.mapM fun n hn => ?_) fun _ _ => Succeeds.pure _
    cases htarget : n.target? with
    | none => exact Succeeds.pure _
    | some target =>
      obtain ⟨m, hm, rfl, hnone⟩ := h n hn target htarget
      obtain ⟨s, hs⟩ := hown m hm hnone
      obtain ⟨s', hs'⟩ := Option.isSome_iff_exists.1 (isSome_lookup_of_mem hs)
      simp only [hs']
      exact Succeeds.pure _
  obtain ⟨storage, hok⟩ := hok
  refine ⟨storage, hok, fun n hn => ?_⟩
  obtain ⟨shared, hshared, hstorage⟩ := Except.bind_eq_ok.1 hok
  cases hstorage
  cases htarget : n.target? with
  | none =>
    obtain ⟨s, hs⟩ := hown n hn htarget
    exact isSome_lookup_of_mem (List.mem_append_left _ hs)
  | some target =>
    obtain ⟨r, hr, hrn⟩ := exists_of_forall₂ (Except.mapM_eq_ok.1 hshared) hn
    simp only [htarget] at hrn
    split at hrn
    · cases hrn
      exact isSome_lookup_of_mem (List.mem_append_right _ (List.mem_filterMap.2 ⟨_, hr, rfl⟩))
    · cases hrn

/-! ## Plans that can be emitted -/

/-- The nodes whose values the steps of a plan read. -/
def stepReads (t : Trace) (plan : Plan) : List NodeId :=
  plan.steps.flatMap fun
    | .single id => t.inputs id
    | .fused _ kernel => kernel.leaves

/-- What emission needs of a plan: everything that a step reads or assigns into is the root
of a step, and so are the outputs. -/
structure Ready (t : Trace) (plan : Plan) : Prop where
  root_known : ∀ id ∈ plan.roots, t.contains id = true
  output_mem : ∀ id ∈ plan.outputs, id ∈ plan.roots
  read_mem : ∀ id ∈ t.stepReads plan, id ∈ plan.roots
  target_mem : ∀ n ∈ t.nodes, n.id ∈ plan.roots → ∀ target, n.target? = some target →
    target ∈ plan.roots
  writable : ∀ scope : EmitScope, scope.trace = t →
    (∀ id ∈ plan.roots, Succeeds (scope.array id)) →
    ∀ step ∈ plan.steps, Succeeds (emitStep scope step)

theorem Ready.mentioned_known (h : t.Ready plan) :
    ∀ id ∈ t.mentioned plan, t.contains id = true := by
  intro id hid
  refine h.root_known id ?_
  rcases List.mem_append.1 hid with hid | hid
  · rcases List.mem_append.1 hid with hid | hid
    · exact h.read_mem id hid
    · exact h.output_mem id hid
  · exact hid

theorem Ready.mem_mentioned (h : t.Ready plan) : id ∈ t.mentioned plan ↔ id ∈ plan.roots := by
  constructor
  · intro hid
    rcases List.mem_append.1 hid with hid | hid
    · rcases List.mem_append.1 hid with hid | hid
      · exact h.read_mem id hid
      · exact h.output_mem id hid
    · exact hid
  · exact fun hid => List.mem_append_right _ hid

/-- The signature of the unit of a plan. -/
def unitSignature (t : Trace) (plan : Plan) (unitName : String) : Signature where
  unitName := unitName
  parameters := (t.passed plan).map Node.decl
  outputs := (t.nodesAt plan.outputs).map Node.decl
  states := ((t.nodesAt plan.roots).filter Node.isState).map Node.decl

/-- Every root of a plan that can be emitted has storage. -/
theorem Ready.exists_storage (ht : t.WellFormed) (h : t.Ready plan) :
    ∃ storage, storageOf (t.nodesAt plan.roots)
        ((t.nodesAt plan.roots).filterMap Node.target?) = .ok storage ∧
      ∀ id ∈ plan.roots, ∃ place, storage.lookup id = some place := by
  obtain ⟨storage, hstorage, hlookup⟩ := storageOf_eq_ok (t.nodesAt plan.roots)
    ((t.nodesAt plan.roots).filterMap Node.target?) fun n hn target htarget => by
      obtain ⟨hn, hid⟩ := ht.mem_nodesAt.1 hn
      obtain ⟨m, hm, hs, -⟩ := isStorage_of_target ht hn htarget
      obtain rfl := ht.id_of_node? hm
      exact ⟨m, ht.mem_nodesAt.2 ⟨mem_of_node? hm, h.target_mem n hn hid _ htarget⟩, rfl,
        Node.target?_of_isStorage hs⟩
  refine ⟨storage, hstorage, fun id hid => ?_⟩
  obtain ⟨n, hn⟩ := exists_node_of_contains (h.root_known id hid)
  obtain rfl := ht.id_of_node? hn
  exact Option.isSome_iff_exists.1 (hlookup n (ht.mem_nodesAt.2 ⟨mem_of_node? hn, hid⟩))

theorem Ready.emit (ht : t.WellFormed) (h : t.Ready plan) {unitName : String}
    (hname : isIdentifier unitName = true) :
    ∃ u, t.emit plan unitName = .ok u ∧ u.signature = t.unitSignature plan unitName := by
  suffices hunit : ∃ r, t.unit plan unitName = .ok r ∧ r.2 = t.unitSignature plan unitName by
    obtain ⟨r, hr, hsignature⟩ := hunit
    rw [Trace.emit, hr]
    exact ⟨_, rfl, hsignature⟩
  have hroots := nodesOf_eq h.root_known
  have houtputs := nodesOf_eq fun id hid => h.root_known id (h.output_mem id hid)
  have hparameters := parameters_eq h.mentioned_known
  obtain ⟨storage, hstorage, hlookup⟩ := h.exists_storage ht
  have harray : ∀ id ∈ plan.roots, Succeeds (EmitScope.array ⟨t, storage⟩ id) := by
    intro id hid
    obtain ⟨place, hplace⟩ := hlookup id hid
    exact ⟨place.expr, by simp [EmitScope.array, hplace]⟩
  have hplaced : ∀ n ∈ t.nodesAt plan.outputs, n ∈ t.nodesAt plan.roots := fun n hn =>
    ht.mem_nodesAt.2 ⟨(ht.mem_nodesAt.1 hn).1, h.output_mem _ (ht.mem_nodesAt.1 hn).2⟩
  have hfind : (t.nodesAt plan.outputs).find? (fun n => (storage.lookup n.id).isNone) = none :=
    List.find?_eq_none.2 fun n hn => by
      rw [Bool.not_eq_true, Option.isNone_eq_false_iff, Option.isSome_iff_exists]
      exact hlookup n.id (ht.mem_nodesAt.1 (hplaced n hn)).2
  rw [unit]
  simp only [hname]
  rw [if_neg (by simp)]
  refine Succeeds.bind_and ⟨_, hroots⟩ fun _ he => ?_
  cases hroots.symm.trans he
  refine Succeeds.bind_and ⟨_, hparameters⟩ fun _ he => ?_
  cases hparameters.symm.trans he
  refine Succeeds.bind_and ⟨_, hstorage⟩ fun _ he => ?_
  cases hstorage.symm.trans he
  refine Succeeds.bind_and ⟨_, houtputs⟩ fun _ he => ?_
  cases houtputs.symm.trans he
  simp only [hfind]
  refine Succeeds.bind_and (.mapM (h.writable ⟨t, storage⟩ rfl harray)) fun _ _ => ?_
  refine Succeeds.bind_and (.mapM fun p hp => ?_) fun _ _ => ⟨_, rfl, rfl⟩
  have hmem := List.fst_mem_of_mem_zipIdx hp
  exact (harray _ (ht.mem_nodesAt.1 (hplaced _ hmem)).2).bind fun _ _ => .pure _

/-! ## The plans of a schedule -/

theorem input_of_target {target : NodeId} (htarget : n.target? = some target) :
    target ∈ n.inputs := by
  obtain ⟨_, _, _, kind⟩ := n
  cases kind <;> simp_all [Node.target?, Node.inputs]

theorem roots_ofSchedule : (Plan.ofSchedule s).roots = s.nodes := by
  simp [Plan.roots, Plan.ofSchedule, Function.comp_def, Step.root]

theorem roots_fuse : (t.fuse s).roots = t.roots s := by
  simp [Plan.roots, steps_fuse, Function.comp_def]

private theorem filter_nodesAt_not_merged (hs : t.Scheduled s) {f : Node → Bool}
    (hf : ∀ n, f n = true → n.isStorage = true) (ids : List NodeId) :
    (t.nodesAt (ids.filter (· ∉ t.merged s))).filter f = (t.nodesAt ids).filter f := by
  induction ids with
  | nil => rfl
  | cons id ids ih =>
    cases hn : t.node? id with
    | none =>
      by_cases hm : id ∈ t.merged s
      · simpa [nodesAt, hm, List.filterMap_cons_none hn] using ih
      · simpa [nodesAt, hm, List.filterMap_cons_none hn] using ih
    | some n =>
      by_cases hm : id ∈ t.merged s
      · have hfn : f n = false :=
          Bool.not_eq_true _ ▸ fun hfn => not_merged_of_isStorage hs hn (hf n hfn) hm
        simpa [nodesAt, hm, List.filterMap_cons_some hn, hfn] using ih
      · by_cases hfn : f n = true
        · simpa [nodesAt, hm, List.filterMap_cons_some hn, hfn] using ih
        · simpa [nodesAt, hm, List.filterMap_cons_some hn, hfn] using ih

/-- Fusion leaves every scheduled placeholder and variable a root. -/
theorem filter_nodesAt_roots (hs : t.Scheduled s) {f : Node → Bool}
    (hf : ∀ n, f n = true → n.isStorage = true) :
    (t.nodesAt (t.roots s)).filter f = (t.nodesAt s.nodes).filter f :=
  filter_nodesAt_not_merged hs hf s.nodes

section
variable (ht : t.Reachable) (hs : t.Scheduled s)
include ht hs

theorem ready_ofSchedule : t.Ready (Plan.ofSchedule s) where
  root_known id hid := hs.known (roots_ofSchedule ▸ hid)
  output_mem id hid := roots_ofSchedule ▸ hs.output_mem hid
  read_mem := by
    intro id hid
    rw [roots_ofSchedule]
    simp only [stepReads, Plan.ofSchedule, List.flatMap_map, List.mem_flatMap] at hid
    obtain ⟨x, hx, hid⟩ := hid
    exact hs.input_mem hx hid
  target_mem n hn hid target htarget := by
    rw [roots_ofSchedule] at hid ⊢
    exact hs.input_mem hid
      (inputs_of_node? (ht.wellFormed.node?_id hn) ▸ input_of_target htarget)
  writable := by
    rintro scope rfl harray step hstep
    obtain ⟨id, hid, rfl⟩ := List.mem_map.1 hstep
    obtain ⟨n, hn⟩ := exists_node_of_contains (hs.known hid)
    rw [roots_ofSchedule] at harray
    exact Emit.succeeds_emitStep_single ht.wellFormed hn (harray id hid) fun i hi =>
      harray i (hs.input_mem hid (inputs_of_node? hn ▸ hi))

theorem writable_tree {scope : EmitScope} (hscope : scope.trace = t)
    (harray : ∀ id ∈ t.roots s, Succeeds (scope.array id)) (hid : id ∈ s.nodes)
    (helementwise : t.isElementwise id = true) :
    Emit.Writable scope (t.tree (t.merged s) id) := by
  refine block_induction ht hs (motive := fun id => t.isElementwise id = true →
    Emit.Writable scope (t.tree (t.merged s) id)) ?_ hid helementwise
  intro id hid ih helementwise
  subst hscope
  obtain ⟨n, op, inputs, hn, hk, hop⟩ := exists_apply_of_isElementwise helementwise
  have hinputs : scope.trace.inputs id = inputs := by simp [inputs_of_node? hn, Node.inputs, hk]
  have hadmits := ht.wellFormed.admits (mem_of_node? hn)
  simp only [Admits, hk] at hadmits
  obtain ⟨operands, hops, hinfer⟩ := hadmits
  rw [tree_apply ht.wellFormed hn hk]
  refine Emit.writable_apply hn hop (fun k hcount => ?_) fun k hk => ?_
  · rw [List.length_map, hops.length_eq]
    simpa using Op.length_of_infer hinfer hcount
  · obtain ⟨i, hi, rfl⟩ := List.mem_map.1 hk
    rw [← hinputs] at hi
    split
    · exact ih i hi ‹_› ((merged_iff hs).1 ‹_›).elementwise
    · have hi' := hs.input_mem hid hi
      obtain ⟨x, hx⟩ := exists_node_of_contains (hs.known hi')
      exact Emit.writable_leaf hx (harray i (mem_roots.2 ⟨hi', ‹_›⟩))

theorem ready_fuse : t.Ready (t.fuse s) where
  root_known id hid := hs.known (mem_roots.1 (roots_fuse ▸ hid)).1
  output_mem id hid := by
    rw [roots_fuse]
    exact mem_roots.2 ⟨hs.output_mem hid, fun hm => ((merged_iff hs).1 hm).not_output hid⟩
  read_mem := by
    intro id hid
    rw [roots_fuse]
    rw [stepReads, steps_fuse, List.flatMap_map] at hid
    obtain ⟨x, hx, hid⟩ := List.mem_flatMap.1 hid
    obtain ⟨hx, -⟩ := mem_roots.1 hx
    by_cases hfused : (t.isElementwise x && (t.inputs x).any (· ∈ t.merged s)) = true
    · rw [stepOf, if_pos hfused] at hid
      rw [Bool.and_eq_true] at hfused
      exact leaf_mem_roots ht hs hx hfused.1 hid
    · rw [stepOf, if_neg hfused] at hid
      exact mem_roots.2 ⟨hs.input_mem hx hid, inputs_not_merged hs hx hfused id hid⟩
  target_mem n hn hid target htarget := by
    rw [roots_fuse] at hid ⊢
    have hnode := ht.wellFormed.node?_id hn
    obtain ⟨x, hx, hstorage, -⟩ := isStorage_of_target ht.wellFormed hn htarget
    refine mem_roots.2 ⟨hs.input_mem (mem_roots.1 hid).1
      (inputs_of_node? hnode ▸ input_of_target htarget),
      not_merged_of_isStorage hs hx hstorage⟩
  writable := by
    rintro scope rfl harray step hstep
    rw [roots_fuse] at harray
    rw [steps_fuse] at hstep
    obtain ⟨id, hid, rfl⟩ := List.mem_map.1 hstep
    obtain ⟨hmem, -⟩ := mem_roots.1 hid
    obtain ⟨n, hn⟩ := exists_node_of_contains (hs.known hmem)
    rw [stepOf]
    split
    · rename_i hfused
      rw [Bool.and_eq_true] at hfused
      rw [emitStep]
      exact Emit.succeeds_kernel hn (harray id hid)
        (writable_tree ht hs rfl harray hmem hfused.1)
    · refine Emit.succeeds_emitStep_single ht.wellFormed hn (harray id hid) fun i hi => ?_
      have hi' : i ∈ scope.trace.inputs id := inputs_of_node? hn ▸ hi
      exact harray i (mem_roots.2 ⟨hs.input_mem hmem hi', inputs_not_merged hs hmem ‹_› i hi'⟩)

end

/-! ## Compiling -/

/-- The plan that options ask for. -/
def planOf (t : Trace) (s : Schedule) (fuse : Bool) : Plan :=
  if fuse then t.fuse s else .ofSchedule s

theorem ascending_roots_planOf (hs : t.Scheduled s) (fuse : Bool) :
    NodeId.Ascending (t.planOf s fuse).roots := by
  cases fuse with
  | false => exact roots_ofSchedule ▸ hs.ascending
  | true => exact roots_fuse ▸ hs.ascending.filter _

/-- A scheduled node that is no elementwise operation has a step of its own. -/
theorem single_mem_planOf (hs : t.Scheduled s) (hid : id ∈ s.nodes)
    (h : t.isElementwise id = false) (fuse : Bool) : .single id ∈ (t.planOf s fuse).steps := by
  cases fuse with
  | false => exact List.mem_map_of_mem hid
  | true =>
    have hm : id ∉ t.merged s := fun hm => by
      simp [((merged_iff hs).1 hm).elementwise] at h
    refine List.mem_map.2 ⟨id, mem_roots.2 ⟨hid, hm⟩, ?_⟩
    simp [h]

theorem ready_planOf (ht : t.Reachable) (hs : t.Scheduled s) (fuse : Bool) :
    t.Ready (t.planOf s fuse) := by
  cases fuse
  · exact ready_ofSchedule ht hs
  · exact ready_fuse ht hs

/-- `p` is the program of a schedule. -/
structure Compiled (t : Trace) (s : Schedule) (options : CompileOptions) (p : Program) :
    Prop where
  nodes_eq : p.nodes = t.nodesAt s.nodes
  plan_eq : p.plan = t.planOf s options.fuse
  signature_eq : p.signature = t.unitSignature (t.planOf s options.fuse) options.unitName

/-- All plans of a schedule declare the same variables. -/
theorem Compiled.states_eq {options : CompileOptions} {p : Program}
    (hp : t.Compiled s options p) (hs : t.Scheduled s) :
    p.signature.states = ((t.nodesAt s.nodes).filter Node.isState).map Node.decl := by
  rw [hp.signature_eq, unitSignature]
  cases options.fuse with
  | false => rw [planOf, if_neg (by simp), roots_ofSchedule]
  | true =>
    rw [planOf, if_pos rfl, roots_fuse,
      filter_nodesAt_roots hs fun n => Node.isStorage_of_isState]

/-- Compiling known outputs under a valid unit name succeeds. -/
theorem Reachable.compile_eq_ok (ht : t.Reachable) (h : ∀ o ∈ outputs, t.contains o = true)
    (options : CompileOptions) (hraw : options.raw = false)
    (hname : isIdentifier options.unitName = true) :
    ∃ p, t.compile outputs options = .ok p ∧
      t.Compiled ⟨t.needed outputs, outputs⟩ options p := by
  have hs := ht.scheduled_needed h
  obtain ⟨u, hu, hsignature⟩ :=
    (ready_planOf ht hs options.fuse).emit ht.wellFormed hname
  refine ⟨⟨t.nodesAt (t.needed outputs), t.planOf ⟨t.needed outputs, outputs⟩ options.fuse, u⟩,
    ?_, ⟨rfl, rfl, hsignature⟩⟩
  have hnodes : t.nodesOf (NodeId.sorted (t.needed outputs)) =
      .ok (t.nodesAt (t.needed outputs)) := by
    rw [(ascending_needed outputs).sorted_eq]
    exact nodesOf_eq fun id hid => hs.known hid
  rw [planOf] at hu
  rw [compile, hraw, if_neg (by simp), ht.schedule_eq h]
  simp only [Except.mapError, bind, Except.bind, hu, hnodes, planOf]
  rfl

/-- What compiling known outputs gives. -/
theorem Reachable.compiled (ht : t.Reachable) (h : ∀ o ∈ outputs, t.contains o = true)
    {options : CompileOptions} (hraw : options.raw = false)
    (hname : isIdentifier options.unitName = true) {p : Program}
    (hp : t.compile outputs options = .ok p) :
    t.Compiled ⟨t.needed outputs, outputs⟩ options p := by
  obtain ⟨p', hp', hcompiled⟩ := ht.compile_eq_ok h options hraw hname
  rw [hp] at hp'
  cases hp'
  exact hcompiled

end Trace
end ArrayTrace
