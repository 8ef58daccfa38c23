import ArrayTrace.Proofs.Calls
import ArrayTrace.Proofs.Storage

/-!
# Units stay within their arrays

The unit of a compiled program declares an array for everything that its code names, each
under a name of its own and with room for all elements, also where there are none. All
accesses of creating its state and of running it are in bounds for a caller that passes
arrays of the declared types, and outputs are written whole.
-/

namespace ArrayTrace

open C (Names Extents Within)

namespace Node

/-- Whether the node applies an operation. -/
def isApplied (n : Node) : Bool := n.kind matches .apply ..

/-- The table of a constant. -/
def constantTable? (n : Node) : Option C.Table :=
  match n.kind with
  | .constant value => some ⟨"c_" ++ n.name, value⟩
  | _ => none

/-- The table of the initial value of a variable. -/
def initialTable? (n : Node) : Option C.Table :=
  match n.kind with
  | .state initial => some ⟨"i_" ++ n.name, initial⟩
  | _ => none

end Node

namespace Trace
variable {t : Trace} {s : Schedule} {plan : Plan} {unitName : String} {u : C.SourceFile}
  {signature : Signature} {steps results : List C.Stmt} {n : Node}

/-! ## What a unit consists of -/

/-- The arrays that the steps of a plan assign into. -/
def assigned (t : Trace) (plan : Plan) : List NodeId :=
  (t.nodesAt plan.roots).filterMap Node.target?

/-- Statements that make the arguments available. -/
def bindings (t : Trace) (plan : Plan) : List C.Stmt :=
  (t.passed plan).zipIdx.map fun p => bindParameter (t.assigned plan) p.1 p.2

/-- Statement that copies the value of a node to the output at a position. -/
def copyOut (scope : EmitScope) : Node × Nat → Except EmitError C.Stmt := fun (n, i) => do
  let source ← scope.array n.id
  return .copy (.index (.var "outs") (.num i)) source n.type.bytes

/-- The unit of a plan with the code of its steps and of its results. -/
def unitOf (t : Trace) (plan : Plan) (unitName : String) (steps results : List C.Stmt) :
    C.SourceFile where
  name := unitName
  constants := (t.nodesAt plan.roots).filterMap Node.constantTable?
  initials := (t.nodesAt plan.roots).filterMap Node.initialTable?
  members := ((t.nodesAt plan.roots).filter Node.isState).map (Node.member · .state) ++
    ((t.passed plan).filter fun n => n.id ∈ t.assigned plan).map (Node.member · .workingCopy) ++
    ((t.nodesAt plan.roots).filter Node.isApplied).map (Node.member · .temporary)
  states := ((t.nodesAt plan.roots).filter Node.isState).map Node.name
  parameterCount := (t.passed plan).length
  outputCount := (t.nodesAt plan.outputs).length
  body := .all (t.bindings plan ++ steps ++ results)

theorem Ready.unit_eq_ok (h : t.Ready plan) (hu : t.unit plan unitName = .ok (u, signature)) :
    ∃ storage steps results,
      storageOf (t.nodesAt plan.roots) (t.assigned plan) = .ok storage ∧
      plan.steps.mapM (emitStep ⟨t, storage⟩) = .ok steps ∧
      (t.nodesAt plan.outputs).zipIdx.mapM (copyOut ⟨t, storage⟩) = .ok results ∧
      u = t.unitOf plan unitName steps results ∧
      signature = t.unitSignature plan unitName := by
  have hroots := nodesOf_eq h.root_known
  have houtputs := nodesOf_eq fun id hid => h.root_known id (h.output_mem id hid)
  have hparameters := parameters_eq h.mentioned_known
  rw [unit] at hu
  obtain ⟨-, hu⟩ := Except.unless_eq_ok.1 hu
  replace hu := Except.of_bind_eq_ok hu hroots
  replace hu := Except.of_bind_eq_ok hu hparameters
  obtain ⟨storage, hstorage, hu⟩ := Except.bind_eq_ok.1 hu
  replace hu := Except.of_bind_eq_ok hu houtputs
  split at hu
  · cases hu
  · obtain ⟨steps, hsteps, hu⟩ := Except.bind_eq_ok.1 hu
    obtain ⟨results, hresults, hu⟩ := Except.bind_eq_ok.1 hu
    cases hu
    refine ⟨storage, steps, results, hstorage, hsteps, hresults, ?_, rfl⟩
    rw [unitOf]
    congr 1
    all_goals
      refine List.filterMap_congr fun n _ => ?_
      obtain ⟨_, _, _, kind⟩ := n
      cases kind <;> rfl

/-! ## Arrays have names of their own -/

theorem nodup_names (ht : t.WellFormed) {nodes : List Node} (hnodes : ∀ n ∈ nodes, n ∈ t.nodes)
    (h : nodes.Nodup) : (nodes.map Node.name).Nodup :=
  h.map_on fun _ ha _ hb => List.inj_on_of_nodup_map ht.names_nodup (hnodes _ ha) (hnodes _ hb)

theorem nodup_members {states copies temporaries : List Node}
    (hstates : (states.map Node.name).Nodup) (hcopies : (copies.map Node.name).Nodup)
    (htemporaries : (temporaries.map Node.name).Nodup) :
    ((states.map (Node.member · .state) ++ copies.map (Node.member · .workingCopy) ++
      temporaries.map (Node.member · .temporary)).map C.Member.name).Nodup := by
  have hlabels : ∀ (role : Role) (nodes : List Node), (nodes.map Node.name).Nodup →
      ((nodes.map (Node.member · role)).map C.Member.name).Nodup := by
    intro role nodes hnodes
    rw [List.map_map]
    refine List.Nodup.map_on (fun a ha b hb he => ?_) (hnodes.of_map _)
    have hname := congrArg Storage.name (Storage.label_injective he)
    exact List.inj_on_of_nodup_map hnodes ha hb hname
  have hapart : ∀ (role role' : Role) (nodes nodes' : List Node), role ≠ role' →
      ∀ x ∈ (nodes.map (Node.member · role)).map C.Member.name,
      ∀ y ∈ (nodes'.map (Node.member · role')).map C.Member.name, x ≠ y := by
    intro role role' nodes nodes' hne x hx y hy he
    rw [List.map_map] at hx hy
    obtain ⟨a, -, rfl⟩ := List.mem_map.1 hx
    obtain ⟨b, -, rfl⟩ := List.mem_map.1 hy
    exact hne (congrArg Storage.role (Storage.label_injective he))
  simp only [List.map_append, List.nodup_append]
  refine ⟨⟨hlabels _ _ hstates, hlabels _ _ hcopies, hapart _ _ _ _ (by decide)⟩,
    hlabels _ _ htemporaries, fun x hx y hy => ?_⟩
  rcases List.mem_append.1 hx with hx | hx
  · exact hapart _ _ _ _ (by decide) x hx y hy
  · exact hapart _ _ _ _ (by decide) x hx y hy

theorem name_of_constantTable? {c : C.Table} (h : n.constantTable? = some c) :
    c.name = "c_" ++ n.name ∧ n.kind = .constant c.value := by
  obtain ⟨_, _, _, kind⟩ := n
  cases kind <;> cases h
  exact ⟨rfl, rfl⟩

theorem name_of_initialTable? {c : C.Table} (h : n.initialTable? = some c) :
    c.name = "i_" ++ n.name ∧ n.kind = .state c.value := by
  obtain ⟨_, _, _, kind⟩ := n
  cases kind <;> cases h
  exact ⟨rfl, rfl⟩

theorem nodup_tables {nodes : List Node} (hnodes : (nodes.map Node.name).Nodup) :
    ((nodes.filterMap Node.constantTable? ++ nodes.filterMap Node.initialTable?).map
      C.Table.name).Nodup := by
  have hlabels : ∀ (label : String) (table? : Node → Option C.Table),
      (∀ n c, table? n = some c → c.name = label ++ n.name) →
      ((nodes.filterMap table?).map C.Table.name).Nodup := by
    intro label table? hname
    rw [List.Nodup, List.pairwise_map] at hnodes ⊢
    rw [List.pairwise_filterMap]
    refine hnodes.imp fun hne c hc c' hc' he => hne ?_
    rw [hname _ _ hc, hname _ _ hc'] at he
    exact (String.append_right_inj _).1 he
  rw [List.map_append, List.nodup_append]
  refine ⟨hlabels "c_" _ fun n c hc => (name_of_constantTable? hc).1,
    hlabels "i_" _ fun n c hc => (name_of_initialTable? hc).1, fun x hx y hy he => ?_⟩
  obtain ⟨c, hc, rfl⟩ := List.mem_map.1 hx
  obtain ⟨c', hc', rfl⟩ := List.mem_map.1 hy
  obtain ⟨n, -, hn⟩ := List.mem_filterMap.1 hc
  obtain ⟨m, -, hm⟩ := List.mem_filterMap.1 hc'
  rw [(name_of_constantTable? hn).1, (name_of_initialTable? hm).1] at he
  have hlist := congrArg String.toList he
  rw [String.toList_append, String.toList_append] at hlist
  cases (List.cons.inj (show 'c' :: _ = 'i' :: _ from hlist)).1

/-! ## Names in scope of the steps -/

section
variable {ps : List (Node × Nat)} {p : Node × Nat} {A : List NodeId} {σ : Names} {x : String}

/-- A binding adds the name of its parameter only. -/
theorem after_binding_of_ne {i : Nat} (hx : x ≠ Storage.label ⟨.parameter, n.name⟩) :
    (bindParameter A n i).after σ x = σ x := by
  rw [bindParameter]
  split
  · rfl
  · exact Function.update_of_ne hx _ _

theorem after_bindings_of_ne (hx : ∀ p ∈ ps, x ≠ Storage.label ⟨.parameter, p.1.name⟩) :
    (C.Stmt.all (ps.map fun p => bindParameter A p.1 p.2)).after σ x = σ x := by
  induction ps generalizing σ with
  | nil => rfl
  | cons p ps ih =>
    obtain ⟨hp, hps⟩ := List.forall_mem_cons.1 hx
    exact (ih hps).trans (after_binding_of_ne hp)

/-- A parameter that is not assigned into is bound to its argument. -/
theorem after_bindings_of_mem (hnames : (ps.map fun p => p.1.name).Nodup) (hp : p ∈ ps)
    (hA : p.1.id ∉ A) :
    (C.Stmt.all (ps.map fun p => bindParameter A p.1 p.2)).after σ
      (Storage.label ⟨.parameter, p.1.name⟩) = some (.argument p.2 p.1.type.dtype) := by
  induction ps generalizing σ with
  | nil => cases hp
  | cons q ps ih =>
    obtain ⟨hq, hnames⟩ := List.nodup_cons.1 hnames
    rcases List.mem_cons.1 hp with rfl | hp
    · have hrest : ∀ r ∈ ps, Storage.label ⟨.parameter, p.1.name⟩ ≠
          Storage.label ⟨.parameter, r.1.name⟩ := by
        intro r hr he
        have hname : p.1.name = r.1.name := congrArg Storage.name (Storage.label_injective he)
        exact hq (List.mem_map.2 ⟨r, hr, hname.symm⟩)
      have hself : (bindParameter A p.1 p.2).after σ (Storage.label ⟨.parameter, p.1.name⟩) =
          some (.argument p.2 p.1.type.dtype) := by
        rw [bindParameter, if_neg hA]
        exact Function.update_self _ _ _
      exact (after_bindings_of_ne hrest).trans hself
    · exact ih hnames hp

theorem Storage.ne_label (hx : x.toList[1]? ≠ some '_') (s : Storage) : x ≠ s.label := by
  rintro rfl
  simp [Storage.toList_label] at hx

/-- Every argument is there, and working copies have room for theirs. -/
theorem within_bindings {ext : Extents} (hstate : σ "state" = some .state)
    (hargs : σ "args" = some .arguments)
    (hps : ∀ p ∈ ps, (∃ e, ext .arguments = some e ∧ p.2 < e.length) ∧
      (p.1.id ∈ A → C.Access.InBounds ext
        (.copy (.member (Storage.label ⟨.workingCopy, p.1.name⟩)) (.passed p.2)
          p.1.type.bytes))) :
    Within ext ((C.Stmt.all (ps.map fun p => bindParameter A p.1 p.2)).accesses σ) := by
  induction ps generalizing σ with
  | nil => exact C.within_nil
  | cons p ps ih =>
    obtain ⟨⟨⟨e, he, hlt⟩, hcopy⟩, hps⟩ := List.forall_mem_cons.1 hps
    have hargument : Within ext ((C.Expr.index (.var "args") (.num p.2)).accesses σ) :=
      C.Expr.within_index (by rw [C.Expr.buffer?, hargs]) he rfl hlt
    have hkept : ∀ x : String, x.toList[1]? ≠ some '_' →
        (bindParameter A p.1 p.2).after σ x = σ x :=
      fun x hx => after_binding_of_ne (Storage.ne_label hx _)
    refine C.within_append.2 ⟨?_, ih ((hkept _ (by decide)).trans hstate)
      ((hkept _ (by decide)).trans hargs) hps⟩
    show Within ext ((bindParameter A p.1 p.2).accesses σ)
    rw [bindParameter]
    split
    · refine C.within_append.2 ⟨C.within_append.2 ⟨C.within_nil, hargument⟩, ?_⟩
      simpa [C.Expr.buffer?, C.Expr.value?, Storage.expr, hstate, hargs] using hcopy ‹_›
    · exact hargument

end

/-- Names in scope of the steps. -/
def bound (t : Trace) (plan : Plan) : Names :=
  (C.Stmt.all (t.bindings plan)).after C.SourceFile.callNames

theorem bound_of_ne {x : String} (hx : x.toList[1]? ≠ some '_') :
    t.bound plan x = C.SourceFile.callNames x :=
  after_bindings_of_ne fun _ _ => Storage.ne_label hx _

theorem bound_constant (name : String) :
    t.bound plan (Storage.label ⟨.constant, name⟩) = none := by
  have hcall : C.SourceFile.callNames (Storage.label ⟨.constant, name⟩) = none := by
    have hne : ∀ x : String, x.toList[1]? ≠ some '_' → Storage.label ⟨.constant, name⟩ ≠ x :=
      fun x hx => (Storage.ne_label hx _).symm
    rw [C.SourceFile.callNames, C.SourceFile.newNames, Function.update_of_ne (hne _ (by decide)),
      Function.update_of_ne (hne _ (by decide)), Function.update_of_ne (hne _ (by decide))]
  refine (after_bindings_of_ne fun p _ he => ?_).trans hcall
  cases congrArg Storage.role (Storage.label_injective he)

/-- A storage names an array that is there, with room for the elements of a node. -/
def HasRoom (ext : Extents) (σ : Names) (storage : Storage) (n : Node) : Prop :=
  ∃ b e, storage.expr.buffer? σ = some b ∧ ext b = some e ∧ n.type.size ≤ e.length ∧
    e.width = n.type.dtype.size

theorem parameter_of_mem {p : Node × Nat} (hp : p ∈ (t.passed plan).zipIdx) :
    (t.unitSignature plan unitName).parameters[p.2]? = some p.1.decl := by
  rw [unitSignature, List.getElem?_map, List.mem_zipIdx_iff_getElem?.1 hp, Option.map_some]

section
variable (ht : t.WellFormed) (h : t.Ready plan) (hnodup : plan.roots.Nodup)
include ht

theorem names_passed : ((t.passed plan).map Node.name).Nodup :=
  nodup_names ht (fun _ hn => (ht.mem_passed.1 hn).1) ((nodup_map_id_distinct _).of_map _)

include h hnodup

theorem names_roots : ((t.nodesAt plan.roots).map Node.name).Nodup := by
  refine nodup_names ht (fun _ hn => (ht.mem_nodesAt.1 hn).1) (List.Nodup.of_map Node.id ?_)
  rw [ht.map_id_nodesAt h.root_known]
  exact hnodup

theorem members_nodup :
    ((t.unitOf plan unitName steps results).members.map C.Member.name).Nodup := by
  have hroots := names_roots ht h hnodup
  exact nodup_members (hroots.sublist (List.filter_sublist.map _))
    ((names_passed ht).sublist (List.filter_sublist.map _))
    (hroots.sublist (List.filter_sublist.map _))

theorem tables_nodup :
    (((t.unitOf plan unitName steps results).constants ++
      (t.unitOf plan unitName steps results).initials).map C.Table.name).Nodup :=
  nodup_tables (names_roots ht h hnodup)

/-- The array of a member has an element for every element of its node, and at least one. -/
theorem extent?_member {role : Role}
    (hn : n.member role ∈ (t.unitOf plan unitName steps results).members) :
    (t.unitOf plan unitName steps results).extent? (t.unitSignature plan unitName)
      (.member (Storage.label ⟨role, n.name⟩)) =
        some ⟨max n.type.size 1, n.type.dtype.size⟩ :=
  C.SourceFile.extent?_member (members_nodup ht h hnodup) hn

theorem hasRoom_member {role : Role}
    (hexpr : Storage.expr ⟨role, n.name⟩ = .state (Storage.label ⟨role, n.name⟩))
    (hn : n.member role ∈ (t.unitOf plan unitName steps results).members) :
    HasRoom ((t.unitOf plan unitName steps results).extent? (t.unitSignature plan unitName))
      (t.bound plan) ⟨role, n.name⟩ n := by
  have hstate : t.bound plan "state" = some .state := bound_of_ne (by decide)
  refine ⟨_, _, ?_, extent?_member ht h hnodup hn, Nat.le_max_left _ _, rfl⟩
  rw [hexpr, C.Expr.buffer?, if_pos hstate]

omit h hnodup in
theorem bound_parameter {i : Nat} (hi : (t.passed plan)[i]? = some n)
    (hassigned : n.id ∉ t.assigned plan) :
    t.bound plan (Storage.label ⟨.parameter, n.name⟩) = some (.argument i n.type.dtype) := by
  have hentry : (n, i) ∈ (t.passed plan).zipIdx := List.mem_zipIdx_iff_getElem?.2 hi
  refine after_bindings_of_mem ?_ hentry hassigned
  have hnames : ((t.passed plan).map Node.name).Nodup := names_passed ht
  rwa [← List.zipIdx_map_fst 0 (t.passed plan), List.map_map] at hnames

omit h hnodup in
/-- A parameter that is not assigned into is read where the caller keeps it. -/
theorem hasRoom_argument (hpassed : n ∈ t.passed plan) (hassigned : n.id ∉ t.assigned plan) :
    HasRoom ((t.unitOf plan unitName steps results).extent? (t.unitSignature plan unitName))
      (t.bound plan) ⟨.parameter, n.name⟩ n := by
  obtain ⟨i, hi⟩ := List.mem_iff_getElem?.1 hpassed
  refine ⟨.argument i n.type.dtype, ⟨n.type.size, n.type.dtype.size⟩, ?_, ?_, Nat.le_refl _, rfl⟩
  · simp only [Storage.expr, C.Expr.buffer?, bound_parameter ht hi hassigned]
  · simp [C.SourceFile.extent?, unitSignature, hi, Node.decl]

theorem hasRoom_constant {value : Tensor} (hn : n ∈ t.nodesAt plan.roots)
    (hk : n.kind = .constant value) :
    HasRoom ((t.unitOf plan unitName steps results).extent? (t.unitSignature plan unitName))
      (t.bound plan) ⟨.constant, n.name⟩ n := by
  have htable : (⟨Storage.label ⟨.constant, n.name⟩, value⟩ : C.Table) ∈
      (t.unitOf plan unitName steps results).constants :=
    List.mem_filterMap.2 ⟨n, hn, by simp [Node.constantTable?, hk, Storage.label]⟩
  have htype : n.type = value.type := by
    have hadmits := ht.admits (ht.mem_nodesAt.1 hn).1
    simpa only [Admits, hk] using hadmits
  refine ⟨.table (Storage.label ⟨.constant, n.name⟩), _, ?_,
    C.SourceFile.extent?_table (tables_nodup ht h hnodup) (List.mem_append_left _ htable), ?_, ?_⟩
  · simp only [Storage.expr, C.Expr.buffer?, bound_constant]
  · rw [C.Table.length_texts, htype]
    exact Nat.le_max_left _ _
  · rw [htype]
    rfl

/-- Every storage that a node has of its own is an array of the unit with room for it. -/
theorem hasRoom_ownStorage? {storage : Storage} (hn : n ∈ t.nodesAt plan.roots)
    (hown : n.ownStorage? (t.assigned plan) = some storage) :
    HasRoom ((t.unitOf plan unitName steps results).extent? (t.unitSignature plan unitName))
      (t.bound plan) storage n := by
  obtain ⟨hmem, hroot⟩ := ht.mem_nodesAt.1 hn
  rw [Node.ownStorage?] at hown
  cases hk : n.kind with
  | placeholder =>
    have hpassed : n ∈ t.passed plan :=
      ht.mem_passed.2 ⟨hmem, h.mem_mentioned.2 hroot, by simp [Node.isPlaceholder, hk]⟩
    simp only [hk] at hown
    by_cases hassigned : n.id ∈ t.assigned plan
    · rw [if_pos hassigned] at hown
      cases hown
      exact hasRoom_member ht h hnodup rfl (List.mem_append_left _ (List.mem_append_right _
        (List.mem_map_of_mem (List.mem_filter.2 ⟨hpassed, decide_eq_true hassigned⟩))))
    · rw [if_neg hassigned] at hown
      cases hown
      exact hasRoom_argument ht hpassed hassigned
  | state initial =>
    simp only [hk] at hown
    cases hown
    exact hasRoom_member ht h hnodup rfl (List.mem_append_left _ (List.mem_append_left _
      (List.mem_map_of_mem (List.mem_filter.2 ⟨hn, by simp [Node.isState, hk]⟩))))
  | constant value =>
    simp only [hk] at hown
    cases hown
    exact hasRoom_constant ht h hnodup hn hk
  | apply op inputs =>
    simp only [hk] at hown
    cases hown
    exact hasRoom_member ht h hnodup rfl (List.mem_append_right _
      (List.mem_map_of_mem (List.mem_filter.2 ⟨hn, by simp [Node.isApplied, hk]⟩)))
  | assign target selection value =>
    simp only [hk] at hown
    cases hown

theorem backed_bound {storage : List (NodeId × Storage)}
    (hstorage : storageOf (t.nodesAt plan.roots) (t.assigned plan) = .ok storage) :
    Emit.Backed ⟨t, storage⟩
      ((t.unitOf plan unitName steps results).extent? (t.unitSignature plan unitName))
      (t.bound plan) where
  buffer := by
    intro id s n hs hn
    have hroots : ∀ m ∈ t.nodesAt plan.roots, m ∈ t.nodes := fun m hm => (ht.mem_nodesAt.1 hm).1
    obtain ⟨m, hm, hid, hown⟩ := lookup_storageOf ht hroots hstorage hs
    have hdest : m.dest = n.dest := by
      rw [← home_of_node? ht hn, ← hid, Node.dest, Node.target?_of_ownStorage? hown,
        Option.getD_none]
    rw [← type_eq_of_dest_eq ht (hroots m hm) (mem_of_node? hn) hdest]
    exact hasRoom_ownStorage? ht h hnodup hm hown

/-! ## The code of a unit -/

theorem within_initialCopies :
    Within ((t.unitOf plan unitName steps results).extent? (t.unitSignature plan unitName))
      ((t.unitOf plan unitName steps results).initialCopies.accesses C.SourceFile.newNames) := by
  refine (C.Stmt.confined_all fun st hst => ?_).within
  obtain ⟨name, hname, rfl⟩ := List.mem_map.1 hst
  obtain ⟨n, hn, rfl⟩ := List.mem_map.1 hname
  obtain ⟨hroot, hstate⟩ := List.mem_filter.1 hn
  have hadmits := ht.admits (ht.mem_nodesAt.1 hroot).1
  cases hk : n.kind with
  | state initial =>
    have htype : n.type = initial.type := by simpa only [Admits, hk] using hadmits
    have htable : (⟨"i_" ++ n.name, initial⟩ : C.Table) ∈
        (t.unitOf plan unitName steps results).initials :=
      List.mem_filterMap.2 ⟨n, hroot, by simp [Node.initialTable?, hk]⟩
    have hmember : n.member .state ∈ (t.unitOf plan unitName steps results).members :=
      List.mem_append_left _ (List.mem_append_left _ (List.mem_map_of_mem hn))
    have hsource : (C.Expr.var ("i_" ++ n.name)).buffer? C.SourceFile.newNames =
        some (.table ("i_" ++ n.name)) := by
      have hne : "i_" ++ n.name ≠ "state" := fun he => by
        have hlist := congrArg String.toList he
        rw [String.toList_append] at hlist
        cases (List.cons.inj (show 'i' :: _ = 's' :: _ from hlist)).1
      rw [C.Expr.buffer?, C.SourceFile.newNames, Function.update_of_ne hne]
    refine ⟨C.within_singleton.2 ?_, rfl⟩
    rw [hsource]
    refine ⟨_, _, extent?_member ht h hnodup hmember,
      C.SourceFile.extent?_table (tables_nodup ht h hnodup) (List.mem_append_right _ htable), ?_⟩
    simp only [C.Extent.bytes, C.Table.length_texts, htype]
    exact Nat.le_refl _
  | _ => simp [Node.isState, hk] at hstate

theorem within_passed {p : Node × Nat} (hp : p ∈ (t.passed plan).zipIdx)
    (hassigned : p.1.id ∈ t.assigned plan) :
    C.Access.InBounds
      ((t.unitOf plan unitName steps results).extent? (t.unitSignature plan unitName))
      (.copy (.member (Storage.label ⟨.workingCopy, p.1.name⟩)) (.passed p.2) p.1.type.bytes) := by
  have hmem : p.1 ∈ t.passed plan := List.fst_mem_of_mem_zipIdx hp
  have hmember : p.1.member .workingCopy ∈ (t.unitOf plan unitName steps results).members :=
    List.mem_append_left _ (List.mem_append_right _
      (List.mem_map_of_mem (List.mem_filter.2 ⟨hmem, decide_eq_true hassigned⟩)))
  refine ⟨_, ⟨p.1.type.size, p.1.type.dtype.size⟩, extent?_member ht h hnodup hmember, ?_,
    Nat.mul_le_mul_right _ (Nat.le_max_left _ _), Nat.le_refl _, nofun⟩
  rw [C.SourceFile.extent?, parameter_of_mem hp]
  rfl

/-- Copying a value to an output. -/
theorem confined_copyOut {storage : List (NodeId × Storage)}
    (hstorage : storageOf (t.nodesAt plan.roots) (t.assigned plan) = .ok storage) {p : Node × Nat}
    (hp : p ∈ (t.nodesAt plan.outputs).zipIdx) {st : C.Stmt}
    (hst : copyOut ⟨t, storage⟩ p = .ok st) :
    C.Stmt.Confined
      ((t.unitOf plan unitName steps results).extent? (t.unitSignature plan unitName))
      (t.bound plan) st := by
  obtain ⟨source, hsource, hst⟩ := Except.bind_eq_ok.1 hst
  cases hst
  obtain ⟨s, hs, rfl⟩ := Emit.array_eq_ok hsource
  have hentry := List.mem_zipIdx_iff_getElem?.1 hp
  have hn := (ht.mem_nodesAt.1 (List.mem_of_getElem? hentry)).1
  obtain ⟨b, e, hbuffer, he, hlength, hwidth⟩ :=
    (backed_bound ht h hnodup hstorage).buffer hs (ht.node?_id hn)
  have houts : t.bound plan "outs" = some .outputs := bound_of_ne (by decide)
  have hlt : p.2 < (t.nodesAt plan.outputs).length := (List.getElem?_eq_some_iff.1 hentry).1
  have houtput : (t.unitOf plan unitName steps results).extent? (t.unitSignature plan unitName)
      (.output p.2) = some ⟨p.1.type.size, p.1.type.dtype.size⟩ := by
    rw [C.SourceFile.extent?, unitSignature, List.getElem?_map, hentry]
    rfl
  refine ⟨C.within_append.2 ⟨C.within_append.2 ⟨?_, ?_⟩, C.within_singleton.2 ?_⟩, rfl⟩
  · exact C.Expr.within_index (by rw [C.Expr.buffer?, houts]) rfl rfl hlt
  · rw [Storage.accesses_expr]
    exact C.within_nil
  · rw [C.Expr.buffer?, C.Expr.buffer?, houts, C.Expr.value?, hbuffer]
    refine ⟨_, e, houtput, he, Nat.le_refl _, ?_, fun _ _ => rfl⟩
    rw [C.Extent.bytes, hwidth]
    exact Nat.mul_le_mul_right _ hlength

theorem within_body {storage : List (NodeId × Storage)}
    (hstorage : storageOf (t.nodesAt plan.roots) (t.assigned plan) = .ok storage)
    (hsteps : ∀ st ∈ steps, C.Stmt.Confined
      ((t.unitOf plan unitName steps results).extent? (t.unitSignature plan unitName))
      (t.bound plan) st)
    (hresults : (t.nodesAt plan.outputs).zipIdx.mapM (copyOut ⟨t, storage⟩) = .ok results) :
    Within ((t.unitOf plan unitName steps results).extent? (t.unitSignature plan unitName))
      ((t.unitOf plan unitName steps results).body.accesses C.SourceFile.callNames) := by
  have hbody : (t.unitOf plan unitName steps results).body =
      .all (t.bindings plan ++ (steps ++ results)) := congrArg C.Stmt.all (List.append_assoc _ _ _)
  rw [hbody]
  refine C.Stmt.within_all_append (within_bindings rfl rfl fun p hp => ⟨?_, ?_⟩)
    (C.Stmt.confined_all (List.forall_mem_append.2 ⟨hsteps, fun st hst => ?_⟩)).within
  · exact ⟨_, rfl, (List.getElem?_eq_some_iff.1 (List.mem_zipIdx_iff_getElem?.1 hp)).1⟩
  · exact within_passed ht h hnodup hp
  · obtain ⟨p, hp, hcopy⟩ := exists_of_forall₂ (Except.mapM_eq_ok.1 hresults).flip hst
    exact confined_copyOut ht h hnodup hstorage hp hcopy

/-- A unit stays within its arrays if its steps stay within theirs. -/
theorem contained_unitOf {storage : List (NodeId × Storage)}
    (hstorage : storageOf (t.nodesAt plan.roots) (t.assigned plan) = .ok storage)
    (hstep : ∀ {ext σ}, Emit.Backed ⟨t, storage⟩ ext σ → ∀ step ∈ plan.steps, ∀ st,
      emitStep ⟨t, storage⟩ step = .ok st → C.Stmt.Confined ext σ st)
    (hsteps : plan.steps.mapM (emitStep ⟨t, storage⟩) = .ok steps)
    (hresults : (t.nodesAt plan.outputs).zipIdx.mapM (copyOut ⟨t, storage⟩) = .ok results) :
    (t.unitOf plan unitName steps results).Contained (t.unitSignature plan unitName) where
  inBounds := by
    refine List.forall_mem_append.2 ⟨within_initialCopies ht h hnodup,
      within_body ht h hnodup hstorage (fun st hst => ?_) hresults⟩
    obtain ⟨step, hmem, hemit⟩ := exists_of_forall₂ (Except.mapM_eq_ok.1 hsteps).flip hst
    exact hstep (backed_bound ht h hnodup hstorage) step hmem st hemit
  members_nodup := members_nodup ht h hnodup
  tables_nodup := tables_nodup ht h hnodup

end

/-! ## Compiled programs -/

/-- Storage of the values that the steps of a plan compute. -/
def placement (t : Trace) (plan : Plan) : Except EmitError (List (NodeId × Storage)) := do
  let roots ← t.nodesOf plan.roots
  storageOf roots (roots.filterMap Node.target?)

/-- The unit of a program stays within its arrays, and two values that its steps compute are
kept in one array exactly when one of them, or both, are assigned into it. -/
structure MemorySafe (t : Trace) (p : Program) (u : C.SourceFile)
    (storage : List (NodeId × Storage)) : Prop where
  unit_eq : t.unit p.plan u.name = .ok (u, p.signature)
  source_eq : p.unit.source = u.render
  contained : u.Contained p.signature
  placement_eq : t.placement p.plan = .ok storage
  render_eq_iff : ∀ a ∈ p.plan.roots, ∀ b ∈ p.plan.roots, ∃ x y,
    EmitScope.array ⟨t, storage⟩ a = .ok x ∧ EmitScope.array ⟨t, storage⟩ b = .ok y ∧
      (x.render = y.render ↔ t.home a = t.home b)

theorem exists_schedule_of_compile {outputs : List NodeId} {options : CompileOptions} {p : Program}
    (hp : t.compile outputs options = .ok p) :
    ∃ s, t.schedule outputs false = .ok s ∧ p.plan = t.planOf s options.fuse ∧
      t.emit p.plan options.unitName = .ok p.unit := by
  rw [compile] at hp
  obtain ⟨-, hp⟩ := Except.unless_eq_ok.1 hp
  obtain ⟨s, hs, hp⟩ := Except.bind_eq_ok.1 hp
  obtain ⟨unit, hunit, hp⟩ := Except.bind_eq_ok.1 hp
  obtain ⟨nodes, -, hp⟩ := Except.bind_eq_ok.1 hp
  cases hp
  exact ⟨s, Except.mapError_eq_ok.1 hs, rfl, Except.mapError_eq_ok.1 hunit⟩

theorem nodup_roots_planOf (hs : t.Scheduled s) (fuse : Bool) : (t.planOf s fuse).roots.Nodup :=
  (ascending_roots_planOf hs fuse).nodup

/-- Where a compiled program keeps its values, and what its unit consists of. -/
theorem Reachable.exists_storage_of_compile (ht : t.Reachable) {outputs : List NodeId}
    {options : CompileOptions} {p : Program} (hp : t.compile outputs options = .ok p) :
    t.Ready p.plan ∧ p.plan.roots.Nodup ∧ ∃ storage steps results,
      storageOf (t.nodesAt p.plan.roots) (t.assigned p.plan) = .ok storage ∧
      p.plan.steps.mapM (emitStep ⟨t, storage⟩) = .ok steps ∧
      (t.nodesAt p.plan.outputs).zipIdx.mapM (copyOut ⟨t, storage⟩) = .ok results ∧
      t.unit p.plan options.unitName =
        .ok (t.unitOf p.plan options.unitName steps results, p.signature) ∧
      p.unit.source = (t.unitOf p.plan options.unitName steps results).render := by
  obtain ⟨s, hschedule, hplan, hemit⟩ := exists_schedule_of_compile hp
  have hs := ht.scheduled hschedule
  have hready : t.Ready p.plan := hplan ▸ ready_planOf ht hs options.fuse
  have hnodup : p.plan.roots.Nodup := hplan ▸ nodup_roots_planOf hs options.fuse
  obtain ⟨⟨u, signature⟩, hunit, hemit⟩ := Except.bind_eq_ok.1 hemit
  have hemitted : p.unit = ⟨u.render, signature⟩ := (Except.ok.inj hemit).symm
  obtain ⟨storage, steps, results, hstorage, hsteps, hresults, rfl, -⟩ := hready.unit_eq_ok hunit
  refine ⟨hready, hnodup, storage, steps, results, hstorage, hsteps, hresults, ?_, by rw [hemitted]⟩
  rw [hunit, Program.signature, hemitted]

/-- The steps of a ready plan have storage, apart from each other's. -/
theorem Ready.render_eq_iff (ht : t.WellFormed) (h : t.Ready plan)
    {storage : List (NodeId × Storage)}
    (hstorage : storageOf (t.nodesAt plan.roots) (t.assigned plan) = .ok storage) :
    ∀ a ∈ plan.roots, ∀ b ∈ plan.roots, ∃ x y,
      EmitScope.array ⟨t, storage⟩ a = .ok x ∧ EmitScope.array ⟨t, storage⟩ b = .ok y ∧
        (x.render = y.render ↔ t.home a = t.home b) := by
  intro a ha b hb
  obtain ⟨storage', hstorage', hlookup⟩ := h.exists_storage ht
  obtain rfl : storage' = storage := Except.ok.inj (hstorage'.symm.trans hstorage)
  obtain ⟨x, hx⟩ := hlookup a ha
  obtain ⟨y, hy⟩ := hlookup b hb
  exact ⟨x.expr, y.expr, by simp only [EmitScope.array, hx], by simp only [EmitScope.array, hy],
    render_eq_iff_home_eq ht (fun n hn => (ht.mem_nodesAt.1 hn).1) hstorage hx hy⟩

/-- The emitted code of a compiled program never accesses an array out of bounds, and keeps
no two arrays in one place. -/
theorem Reachable.compile_memorySafe (ht : t.Reachable) {outputs : List NodeId}
    {options : CompileOptions} {p : Program} (hp : t.compile outputs options = .ok p) :
    ∃ u storage, u.name = options.unitName ∧ t.MemorySafe p u storage := by
  have hwf := ht.wellFormed
  obtain ⟨s, hschedule, hplan, hemit⟩ := exists_schedule_of_compile hp
  have hs := ht.scheduled hschedule
  have hready : t.Ready p.plan := hplan ▸ ready_planOf ht hs options.fuse
  have hnodup : p.plan.roots.Nodup := hplan ▸ nodup_roots_planOf hs options.fuse
  obtain ⟨⟨u, signature⟩, hunit, hemit⟩ := Except.bind_eq_ok.1 hemit
  have hemitted : p.unit = ⟨u.render, signature⟩ := (Except.ok.inj hemit).symm
  have hsource : p.unit.source = u.render := by rw [hemitted]
  have hsignature : p.signature = signature := by rw [Program.signature, hemitted]
  obtain ⟨storage, steps, results, hstorage, hsteps, hresults, rfl, rfl⟩ :=
    hready.unit_eq_ok hunit
  have hcontained : (t.unitOf p.plan options.unitName steps results).Contained
      (t.unitSignature p.plan options.unitName) :=
    contained_unitOf hwf hready hnodup hstorage
      (fun hb step hstep st => confined_emitStep ht hs (hplan ▸ hstep) hb) hsteps hresults
  refine ⟨t.unitOf p.plan options.unitName steps results, storage, rfl, ?_⟩
  exact {
    unit_eq := by
      rw [hsignature]
      exact hunit
    source_eq := hsource
    contained := by
      rw [hsignature]
      exact hcontained
    placement_eq := Except.bind_eq_ok.2 ⟨_, nodesOf_eq hready.root_known, hstorage⟩
    render_eq_iff := hready.render_eq_iff hwf hstorage }

/-- A matrix, joined with an array without elements, whose second row overwrites the first. -/
def stitched : Trace :=
  [Call.placeholder "x" [2, 3] .i64, .placeholder "e" [0, 3] .i64,
    .apply (.concat 0) [⟨0, 0⟩, ⟨0, 1⟩], .apply (.slice [.point 1]) [⟨0, 2⟩],
    .assign ⟨0, 0⟩ [.range 0 1 1] ⟨0, 3⟩].foldl Trace.after { id := 0 }

/-- The matrix is kept where it is overwritten, and the row elsewhere. -/
theorem compile_memorySafe_stitched :
    ∃ p u storage, stitched.compile [⟨0, 4⟩, ⟨0, 3⟩] {} = .ok p ∧
      stitched.MemorySafe p u storage ∧ ∃ x y z,
        EmitScope.array ⟨stitched, storage⟩ ⟨0, 0⟩ = .ok x ∧
        EmitScope.array ⟨stitched, storage⟩ ⟨0, 4⟩ = .ok y ∧
        EmitScope.array ⟨stitched, storage⟩ ⟨0, 3⟩ = .ok z ∧
        x.render = y.render ∧ y.render ≠ z.render := by
  have ht : stitched.Reachable := .calls (.start 0 {}) _
  have houtputs : ∀ o ∈ [(⟨0, 4⟩ : NodeId), ⟨0, 3⟩], stitched.contains o = true := by decide
  obtain ⟨p, hp, hcompiled⟩ := ht.compile_eq_ok houtputs {} rfl (by decide)
  obtain ⟨u, storage, -, hsafe⟩ := ht.compile_memorySafe hp
  have hroots : ∀ id ∈ [(⟨0, 0⟩ : NodeId), ⟨0, 3⟩, ⟨0, 4⟩], id ∈ p.plan.roots := by
    rw [hcompiled.plan_eq]
    decide
  obtain ⟨x, y, hx, hy, hxy⟩ := hsafe.render_eq_iff ⟨0, 0⟩ (hroots _ (by decide)) ⟨0, 4⟩
    (hroots _ (by decide))
  obtain ⟨y', z, hy', hz, hyz⟩ := hsafe.render_eq_iff ⟨0, 4⟩ (hroots _ (by decide)) ⟨0, 3⟩
    (hroots _ (by decide))
  obtain rfl : y' = y := Except.ok.inj (hy'.symm.trans hy)
  exact ⟨p, u, storage, hp, hsafe, x, y', z, hx, hy, hz, hxy.2 (by decide),
    fun h => absurd (hyz.1 h) (by decide)⟩

end Trace
end ArrayTrace
