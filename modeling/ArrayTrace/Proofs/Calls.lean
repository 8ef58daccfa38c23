import ArrayTrace.Proofs.Runs

/-!
# Calls of compiled programs

A call that accepts its arguments executes the scheduled nodes on a memory that holds them
under their placeholders. The results are read from the arrays of the outputs, and the
variables are what is left in their arrays. Whether the program is fused does not matter.
-/

namespace ArrayTrace.Trace
variable {t : Trace} {s : Schedule} {p : Program} {options : CompileOptions} {m : Machine}
  {n x : Node} {id : NodeId} {states μ α : Memory} {args : List Tensor} {params : List Node}

/-! ## Arguments -/

/-- The memory that holds arguments under the ids of parameters. -/
def argMemory (params : List Node) (args : List Tensor) : Memory :=
  fun id => ((params.map Node.id).zip args).lookup id

/-- Arguments of the right number and types. -/
def Accepts (params : List Node) (args : List Tensor) : Prop :=
  List.Forall₂ (fun n a => a.type = n.type) params args

theorem argMemory_of_not_mem (h : id ∉ params.map Node.id) : argMemory params args id = none := by
  refine List.lookup_eq_none_iff.2 fun e he => ?_
  have hmem := (List.of_mem_zip he).1
  simpa using fun hid : id = e.1 => h (hid ▸ hmem)

theorem argMemory_cons {a : Tensor} :
    argMemory (n :: params) (a :: args) =
      Function.update (argMemory params args) n.id (some a) := by
  funext id
  by_cases hid : id = n.id
  · subst hid
    simp [argMemory]
  · have hne : (id == n.id) = false := by simpa using hid
    simp [argMemory, List.lookup_cons, hne, Function.update_of_ne hid]

/-- Every parameter is bound to the argument passed for it. -/
theorem exists_argMemory_eq (hlen : params.length = args.length)
    (hnodup : (params.map Node.id).Nodup) (hn : n ∈ params) :
    ∃ v, (n, v) ∈ params.zip args ∧ argMemory params args n.id = some v := by
  induction params generalizing args with
  | nil => cases hn
  | cons x params ih =>
    cases args with
    | nil => cases hlen
    | cons a args =>
      obtain ⟨hfresh, hnodup⟩ := List.nodup_cons.1 hnodup
      rw [argMemory_cons]
      rcases List.mem_cons.1 hn with rfl | hn
      · exact ⟨a, List.mem_cons_self, Function.update_self _ _ _⟩
      · obtain ⟨v, hv, hbound⟩ := ih (Nat.succ.inj hlen) hnodup hn
        have hne : n.id ≠ x.id := fun he => hfresh (he ▸ List.mem_map_of_mem hn)
        exact ⟨v, List.mem_cons_of_mem _ hv, (Function.update_of_ne hne _ _).trans hbound⟩

theorem typed_argMemory (ht : t.WellFormed) (hparams : ∀ n ∈ params, n ∈ t.nodes)
    (h : Accepts params args) : t.Typed (argMemory params args) := by
  induction h with
  | nil => exact fun n _ _ v hv => by cases hv
  | @cons n a params args htype _ ih =>
    obtain ⟨hn, hrest⟩ := List.forall_mem_cons.1 hparams
    intro x hx hs v hv
    by_cases hid : x.id = n.id
    · obtain rfl := ht.eq_of_id_eq hx hn hid
      simp only [argMemory, List.map_cons, List.zip_cons_cons, List.lookup_cons_self,
        Option.some.injEq] at hv
      exact hv ▸ htype
    · have hne : (x.id == n.id) = false := by simpa using hid
      simp only [argMemory, List.map_cons, List.zip_cons_cons, List.lookup_cons, hne] at hv
      exact ih hrest x hx hs v hv

/-- Arguments are accepted when their number and types are right. -/
theorem checkArguments_eq_ok {signature : Signature}
    (hparams : signature.parameters = params.map Node.decl) :
    signature.checkArguments args = .ok () ↔ Accepts params args := by
  rw [Signature.checkArguments, Except.unless_eq_ok, hparams, List.length_map, not_not,
    Except.forM_eq_ok]
  have hcheck : ∀ (n : Node) (a : Tensor), n.decl.check a = .ok () ↔ a.type = n.type := by
    intro n a
    by_cases h : a.type = n.type <;> simp [ArrayDecl.check, Node.decl, h]
  constructor
  · rintro ⟨hlen, hall⟩
    refine List.forall₂_iff_zip.2 ⟨hlen.symm, fun {n a} hmem => (hcheck n a).1 ?_⟩
    refine hall (n.decl, a) ?_
    rw [List.zip_map_left]
    exact List.mem_map.2 ⟨(n, a), hmem, rfl⟩
  · intro h
    obtain ⟨hlen, hall⟩ := List.forall₂_iff_zip.1 h
    refine ⟨hlen.symm, fun e he => ?_⟩
    rw [List.zip_map_left] at he
    obtain ⟨⟨n, a⟩, hmem, rfl⟩ := List.mem_map.1 he
    exact (hcheck n a).2 (hall hmem)

theorem find?_name (ht : t.WellFormed) {nodes : List Node} (hnodes : ∀ x ∈ nodes, x ∈ t.nodes)
    (hn : n ∈ nodes) : (nodes.find? fun x => x.name = n.name) = some n := by
  obtain ⟨x, hx⟩ : ∃ x, (nodes.find? fun x => x.name = n.name) = some x :=
    Option.isSome_iff_exists.1 (List.find?_isSome.2 ⟨n, hn, by simp⟩)
  have hname : x.name = n.name := by simpa using List.find?_some hx
  have hmem := hnodes x (List.mem_of_find?_eq_some hx)
  rw [hx, List.inj_on_of_nodup_map ht.names_nodup hmem (hnodes n hn) hname]

/-- Binding accepted arguments one after the other. -/
private theorem foldlM_insert {bind : Store → ArrayDecl × Tensor → Except MachineError Store}
    (hbind : ∀ values, ∀ n ∈ params, ∀ a, bind values (n.decl, a) = .ok (values.insert n.id a))
    (hnodup : (params.map Node.id).Nodup) (h : Accepts params args) (values : Store) :
    ∃ values', ((params.map Node.decl).zip args).foldlM bind values = .ok values' ∧
      ∀ id, values'.get? id = (argMemory params args id).or (values.get? id) := by
  induction h generalizing values with
  | nil => exact ⟨values, rfl, fun _ => rfl⟩
  | @cons n a params args _ hrest ih =>
    obtain ⟨hfresh, hnodup⟩ := List.nodup_cons.1 hnodup
    obtain ⟨values', hvalues', hget⟩ := ih
      (fun values x hx => hbind values x (List.mem_cons_of_mem _ hx)) hnodup (values.insert n.id a)
    refine ⟨values', ?_, fun id => ?_⟩
    · rw [List.map_cons, List.zip_cons_cons, List.foldlM_cons, hbind values n List.mem_cons_self]
      exact hvalues'
    · rw [hget, argMemory_cons, Store.get?_insert]
      by_cases hid : id = n.id
      · subst hid
        simp [argMemory_of_not_mem hfresh]
      · rw [Function.update_of_ne hid, Function.update_of_ne hid]

theorem Compiled.parameters_eq (hp : t.Compiled s options p) :
    p.signature.parameters = (t.passed (t.planOf s options.fuse)).map Node.decl := by
  rw [hp.signature_eq]
  rfl

theorem Compiled.outputs_eq (hp : t.Compiled s options p) : p.plan.outputs = s.outputs := by
  rw [hp.plan_eq, planOf]
  split <;> rfl

section
variable (ht : t.Reachable) (hs : t.Scheduled s) (hp : t.Compiled s options p)
include ht hs

/-- The placeholders that a plan passes are the scheduled ones. -/
theorem mem_passed_planOf (fuse : Bool) :
    n ∈ t.passed (t.planOf s fuse) ↔ n ∈ t.nodes ∧ n.id ∈ s.nodes ∧ n.isPlaceholder = true := by
  rw [ht.wellFormed.mem_passed, (ready_planOf ht hs fuse).mem_mentioned]
  refine and_congr_right fun hn => and_congr_left fun hplaceholder => ?_
  cases fuse with
  | false => rw [planOf, if_neg (by simp), roots_ofSchedule]
  | true =>
    rw [planOf, if_pos rfl, roots_fuse, mem_roots, and_iff_left_iff_imp]
    exact fun _ => not_merged_of_isStorage hs (ht.wellFormed.node?_id hn)
      (Node.isStorage_of_isPlaceholder hplaceholder)

include hp

/-- Accepted arguments are bound to the placeholders they are passed for. -/
theorem bindArguments_eq_ok (h : Accepts (t.passed (t.planOf s options.fuse)) args) :
    ∃ values, p.bindArguments args = .ok values ∧
      values.get? = argMemory (t.passed (t.planOf s options.fuse)) args := by
  have hnodes : ∀ x ∈ p.nodes, x ∈ t.nodes := fun x hx =>
    (ht.wellFormed.mem_nodesAt.1 (hp.nodes_eq ▸ hx)).1
  have hparams : ∀ n ∈ t.passed (t.planOf s options.fuse), n ∈ p.nodes := by
    intro n hn
    obtain ⟨hmem, hid, -⟩ := (mem_passed_planOf ht hs options.fuse).1 hn
    exact hp.nodes_eq ▸ ht.wellFormed.mem_nodesAt.2 ⟨hmem, hid⟩
  rw [Program.bindArguments, hp.parameters_eq]
  refine (foldlM_insert (fun values n hn a => ?_) (nodup_map_id_distinct _) h {}).imp
    fun values hvalues => ⟨hvalues.1, funext fun id => ?_⟩
  · have hfind : (p.nodes.find? fun x => x.name = n.decl.name) = some n :=
      find?_name ht.wellFormed hnodes (hparams n hn)
    simp only [hfind]
    rfl
  · rw [hvalues.2]
    exact Option.or_none

/-- Running a program on accepted arguments leaves what executing the scheduled nodes leaves. -/
theorem rel_run [FloatProduct] {states : Store} (hstates : t.Typed states.get?)
    (h : Accepts (t.passed (t.planOf s options.fuse)) args) :
    Option.Rel (fun values μ => AgreeOff (t.hidden s options.fuse) values.get? μ)
      (p.run states args).toOption
      (t.effects states.get? (argMemory (t.passed (t.planOf s options.fuse)) args) s.nodes) := by
  obtain ⟨values, hvalues, hget⟩ := bindArguments_eq_ok ht hs hp h
  have htyped : t.Typed values.get? := by
    rw [hget]
    exact typed_argMemory ht.wellFormed
      (fun n hn => ((mem_passed_planOf ht hs options.fuse).1 hn).1) h
  rw [Program.run, hvalues, ← hget]
  exact rel_steps ht hs hp hstates htyped

/-- The outputs are read from what the scheduled nodes leave. -/
theorem toOption_readOutputs {values : Store} {μ : Memory}
    (hagree : AgreeOff (t.hidden s options.fuse) values.get? μ) :
    (p.plan.outputs.mapM (p.read values)).toOption =
      s.outputs.mapM fun id => μ (t.home id) := by
  rw [hp.outputs_eq, toOption_mapM]
  refine mapM_congr fun id hid => ?_
  have hmem := hs.output_mem hid
  have hnot : id ∉ t.merged s := fun hm => ((merged_iff hs).1 hm).not_output hid
  rw [Program.toOption_read _ (hp.node?_eq ht.wellFormed hs hmem)]
  exact hagree _ (not_mem_hidden (home_not_merged ht.wellFormed hs (hs.known hmem) hnot))

end

/-! ## Calls -/

/-- What a call answers: the results, and the variables after the call. -/
def answer [FloatProduct] (t : Trace) (s : Schedule) (states α : Memory) :
    Option (List Tensor × Memory) := do
  let μ ← t.effects states α s.nodes
  let results ← s.outputs.mapM fun id => μ (t.home id)
  return (results, fun id => (states id).map fun old => (μ id).getD old)

theorem get?_map_entries (states values : Store) (id : NodeId) :
    (Store.mk (states.entries.map fun (id, old) => (id, (values.get? id).getD old))).get? id =
      (states.get? id).map fun old => (values.get? id).getD old := by
  obtain ⟨entries⟩ := states
  induction entries with
  | nil => rfl
  | cons e entries ih =>
    obtain ⟨k, v⟩ := e
    simp only [Store.get?, List.map_cons, List.lookup_cons] at ih ⊢
    by_cases hk : id = k
    · subst hk
      simp
    · have hne : (id == k) = false := by simpa using hk
      simp only [hne]
      exact ih

theorem program_of_set {name : String} {value : Tensor} {m' : Machine}
    (h : m.set name value = .ok m') : m'.program = m.program := by
  obtain ⟨id, -, h⟩ := Except.bind_eq_ok.1 h
  split at h
  · cases h
  · obtain ⟨-, -, h⟩ := Except.bind_eq_ok.1 h
    cases h
    rfl

theorem program_of_call [FloatProduct] {r : List Tensor × Machine} (h : m.call args = .ok r) :
    r.2.program = m.program := by
  obtain ⟨_, -, h⟩ := Except.bind_eq_ok.1 h
  obtain ⟨_, -, h⟩ := Except.bind_eq_ok.1 h
  obtain ⟨_, -, h⟩ := Except.bind_eq_ok.1 h
  cases h
  rfl

theorem toOption_call_eq_none [FloatProduct] {params : List Node}
    (hparameters : m.signature.parameters = params.map Node.decl) (h : ¬ Accepts params args) :
    (m.call args).toOption = none := by
  rw [Machine.call, toOption_bind]
  cases hcheck : m.signature.checkArguments args with
  | error e => rfl
  | ok _ => exact absurd ((checkArguments_eq_ok hparameters).1 hcheck) h

/-- A call of a compiled program with accepted arguments. -/
theorem toOption_call [FloatProduct] (ht : t.Reachable) (hs : t.Scheduled s)
    (hp : t.Compiled s options m.program) (hstates : t.Typed m.states.get?)
    (hkeys : ∀ id ∈ t.hidden s options.fuse, m.states.get? id = none)
    (h : Accepts (t.passed (t.planOf s options.fuse)) args) :
    (m.call args).toOption.map (fun r => (r.1, r.2.states.get?)) =
      t.answer s m.states.get? (argMemory (t.passed (t.planOf s options.fuse)) args) := by
  have hcheck : (m.signature.checkArguments args).toOption = some () :=
    toOption_eq_some.2 ((checkArguments_eq_ok hp.parameters_eq).2 h)
  have hrel := rel_run ht hs hp hstates h
  simp only [Machine.call, answer, toOption_bind, hcheck, Option.bind_some]
  generalize (m.program.run m.states args).toOption = ran,
    t.effects m.states.get? (argMemory (t.passed (t.planOf s options.fuse)) args) s.nodes =
      effects at hrel ⊢
  cases hrel with
  | none => rfl
  | @some values μ hagree =>
    have hafter : ∀ id, ((m.states.get? id).map fun old => (values.get? id).getD old) =
        (m.states.get? id).map fun old => (μ id).getD old := by
      intro id
      by_cases hid : id ∈ t.hidden s options.fuse
      · rw [hkeys id hid]
        rfl
      · rw [hagree id hid]
    simp only [Option.bind_some, toOption_readOutputs ht hs hp hagree, toOption_pure,
      Option.bind_eq_bind]
    cases s.outputs.mapM fun id => μ (t.home id) with
    | none => rfl
    | some results =>
      refine congrArg some (Prod.ext rfl (funext fun id => ?_))
      exact (get?_map_entries m.states values id).trans (hafter id)

end ArrayTrace.Trace
