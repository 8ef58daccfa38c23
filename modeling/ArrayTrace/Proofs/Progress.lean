import ArrayTrace.Proofs.Compilation

/-!
# Executions succeed

Values of the declared types for the variables and placeholders that an execution meets
are all it takes to succeed: every node then leaves a value of its own type. What it leaves
depends on nothing but those variables and placeholders.
-/

namespace ArrayTrace

theorem Node.dest_of_isStorage {n : Node} (h : n.isStorage = true) : n.dest = n.id := by
  rw [Node.dest, Node.target?_of_isStorage h, Option.getD_none]

namespace Trace
variable {t : Trace} {states states' μ μ' ν : Memory} {n x y : Node} {id : NodeId}
  {ids : List NodeId} {K done : Set NodeId}

theorem home_of_node? (ht : t.WellFormed) (hn : t.node? id = some n) : t.home id = n.dest := by
  rw [home, hn, Option.bind_some, Node.dest, ht.id_of_node? hn]

theorem home_id (ht : t.WellFormed) (hn : n ∈ t.nodes) : t.home n.id = n.dest :=
  home_of_node? ht (ht.node?_id hn)

/-- Nodes whose values go to one array have one type. -/
theorem type_eq_of_dest_eq (ht : t.WellFormed) (hx : x ∈ t.nodes) (hy : y ∈ t.nodes)
    (h : x.dest = y.dest) : x.type = y.type := by
  have hdest : ∀ z ∈ t.nodes, ∃ r, t.node? z.dest = some r ∧ r.type = z.type := by
    intro z hz
    cases htarget : z.target? with
    | none => exact ⟨z, by rw [Node.dest, htarget]; exact ht.node?_id hz, rfl⟩
    | some root =>
      obtain ⟨r, hr, -, htype⟩ := isStorage_of_target ht hz htarget
      exact ⟨r, by rw [Node.dest, htarget]; exact hr, htype⟩
  obtain ⟨r, hr, hrx⟩ := hdest x hx
  obtain ⟨r', hr', hry⟩ := hdest y hy
  rw [h, hr'] at hr
  cases hr
  exact hrx.symm.trans hry

theorem home_of_target (ht : t.WellFormed) (hn : n ∈ t.nodes) (h : n.target? = some id) :
    t.home id = id := by
  obtain ⟨x, hx, hs, -⟩ := isStorage_of_target ht hn h
  rw [home_of_node? ht hx, Node.dest_of_isStorage hs, ht.id_of_node? hx]

/-- The array of a node is its own, or that of an input. -/
theorem dest_eq_or_mem_predecessors (ht : t.WellFormed) (hn : n ∈ t.nodes) :
    n.dest = n.id ∨ n.dest ∈ t.predecessors n.id := by
  have hid := ht.node?_id hn
  rw [← home_id ht hn]
  refine (home_eq_or_mem_inputs hid).imp_right fun h => List.mem_append_left _ ?_
  rwa [inputs_of_node? hid]

/-- Executing a ready node leaves alone what the nodes after it start from. -/
theorem Legal.dest_ne (ht : t.WellFormed) (hn : n ∈ t.nodes)
    (hready : ∀ p ∈ t.predecessors n.id, p ∈ done) (hrest : t.Legal (insert n.id done) ids)
    (hid : id ∈ ids) : id ≠ n.dest := by
  rintro rfl
  refine hrest.not_mem hid ?_
  rcases dest_eq_or_mem_predecessors ht hn with h | h
  · exact .inl h
  · exact .inr (hready _ h)

/-! ## Values of the declared types -/

/-- The values of the nodes of `K` are there and have their declared types. -/
def Filled (t : Trace) (K : Set NodeId) (μ : Memory) : Prop :=
  ∀ n ∈ t.nodes, n.id ∈ K → ∃ v, μ n.dest = some v ∧ v.type = n.type

/-- The variables and placeholders among the listed nodes have values of their declared
types. -/
structure Supplied (t : Trace) (ids : List NodeId) (states μ : Memory) : Prop where
  state : ∀ n ∈ t.nodes, n.id ∈ ids → n.isState = true →
    ∃ v, states n.id = some v ∧ v.type = n.type
  placeholder : ∀ n ∈ t.nodes, n.id ∈ ids → n.isPlaceholder = true →
    ∃ v, μ n.id = some v ∧ v.type = n.type

theorem Supplied.mono {ids' : List NodeId} (h : t.Supplied ids states μ)
    (hsub : ∀ id ∈ ids', id ∈ ids) : t.Supplied ids' states μ where
  state n hn hid := h.state n hn (hsub _ hid)
  placeholder n hn hid := h.placeholder n hn (hsub _ hid)

/-- What every trace needs to be executed without failure: a float that integers turn into,
and arrays that can be addressed. -/
structure Executable (t : Trace) : Prop where
  isFloat : t.config.floatDType.isFloat = true
  addressable : ∀ n ∈ t.nodes, n.type.shape.addressable = true

theorem exists_args {inputs : List NodeId} {operands : List Node}
    (hops : List.Forall₂ (fun id x => t.node? id = some x) inputs operands)
    (h : ∀ i ∈ inputs, ∀ x, t.node? i = some x → ∃ v, μ (t.home i) = some v ∧ v.type = x.type) :
    ∃ args, (inputs.mapM fun i => μ (t.home i)) = some args ∧
      args.map Tensor.type = operands.map Node.type := by
  induction hops with
  | nil => exact ⟨[], rfl, rfl⟩
  | @cons i x inputs operands hx _ ih =>
    obtain ⟨v, hv, htype⟩ := h i List.mem_cons_self x hx
    obtain ⟨args, hargs, htypes⟩ := ih fun j hj => h j (List.mem_cons_of_mem _ hj)
    refine ⟨v :: args, ?_, by rw [List.map_cons, List.map_cons, htype, htypes]⟩
    rw [mapM_eq_some] at hargs ⊢
    exact .cons hv hargs

/-- A node whose inputs have been evaluated leaves a value of its type. -/
theorem exists_outcome [FloatProduct] (ht : t.WellFormed) (he : t.Executable) (hn : n ∈ t.nodes)
    (hstate : n.isState = true → ∃ v, states n.id = some v ∧ v.type = n.type)
    (hplaceholder : n.isPlaceholder = true → ∃ v, μ n.id = some v ∧ v.type = n.type)
    (hinputs : ∀ i ∈ n.inputs, ∀ x, t.node? i = some x →
      ∃ v, μ (t.home i) = some v ∧ v.type = x.type) :
    ∃ v, t.outcome states μ n = some (some v) ∧ v.type = n.type := by
  have hadmits := ht.admits hn
  have haddressable := he.addressable n hn
  obtain ⟨id, name, type, kind⟩ := n
  cases kind with
  | placeholder =>
    obtain ⟨v, hv, htype⟩ := hplaceholder rfl
    exact ⟨v, congrArg some hv, htype⟩
  | state initial =>
    obtain ⟨v, hv, htype⟩ := hstate rfl
    have hv : states id = some v := hv
    exact ⟨v, by simp [outcome, hv], htype⟩
  | constant value => exact ⟨value, rfl, hadmits.symm⟩
  | apply op inputs =>
    obtain ⟨operands, hops, hinfer⟩ := hadmits
    obtain ⟨args, hargs, htypes⟩ := exists_args hops hinputs
    rw [← htypes] at hinfer
    obtain ⟨v, hv, htype⟩ := Op.exists_eval he.isFloat haddressable hinfer
    exact ⟨v, by simp [outcome, hargs, hv, Except.toOption], htype⟩
  | assign target selection value =>
    obtain ⟨x, y, w, hx, -, htype, hy, hw, hbroadcast⟩ := hadmits
    have htarget : t.home target = target := home_of_target ht hn rfl
    obtain ⟨current, hcurrent, hcur⟩ := hinputs target List.mem_cons_self x hx
    obtain ⟨source, hsource, hsrc⟩ :=
      hinputs value (List.mem_cons_of_mem _ List.mem_cons_self) y hy
    rw [htarget] at hcurrent
    have hshape : current.shape = type.shape := congrArg TensorType.shape (hcur.trans htype)
    have hvshape : source.shape = y.type.shape := congrArg TensorType.shape hsrc
    have hw' : selection.resolve current.shape = .ok w := hshape ▸ hw
    have hspreads : source.shape.spreadsTo w.shape = true :=
      hvshape ▸ Shape.spreadsTo_of_broadcast? hbroadcast List.mem_cons_self
    obtain ⟨z, hz, hztype⟩ := Tensor.exists_assign (Selection.fits_of_resolve hw')
      (hshape ▸ haddressable) hspreads
    refine ⟨z, ?_, hztype.trans (hcur.trans htype)⟩
    simp [outcome, hcurrent, hsource, hw', hz, Except.toOption]

theorem Filled.insert (ht : t.WellFormed) (hfilled : t.Filled done μ) (hn : n ∈ t.nodes)
    {v : Tensor} (htype : v.type = n.type) :
    t.Filled (insert n.id done) (Function.update μ n.dest (some v)) := by
  intro x hx hmem
  by_cases hdest : x.dest = n.dest
  · rw [hdest, Function.update_self]
    exact ⟨v, rfl, htype.trans (type_eq_of_dest_eq ht hn hx hdest.symm)⟩
  · rw [Function.update_of_ne hdest]
    refine hfilled x hx (hmem.resolve_left fun hid => hdest ?_)
    rw [ht.eq_of_id_eq hx hn hid]

/-- Nodes that are supplied can be executed, and all leave values of their types. -/
theorem Legal.exists_effects [FloatProduct] (ht : t.WellFormed) (he : t.Executable)
    (h : t.Legal done ids) (hfilled : t.Filled done μ) (hsupplied : t.Supplied ids states μ) :
    ∃ ν, t.effects states μ ids = some ν ∧ t.Filled (done ∪ {id | id ∈ ids}) ν := by
  induction h generalizing μ with
  | nil => exact ⟨μ, rfl, by simpa using hfilled⟩
  | @cons done id ids known fresh ready rest ih =>
    obtain ⟨n, hnode⟩ := exists_node_of_contains known
    have hn := mem_of_node? hnode
    obtain rfl := ht.id_of_node? hnode
    obtain ⟨v, hv, htype⟩ := exists_outcome ht he hn (hsupplied.state n hn List.mem_cons_self)
      (hsupplied.placeholder n hn List.mem_cons_self) fun i hi x hx => by
        have hmem := ready i (List.mem_append_left _ (by rwa [inputs_of_node? hnode]))
        obtain rfl := ht.id_of_node? hx
        rw [home_of_node? ht hx]
        exact hfilled x (mem_of_node? hx) hmem
    obtain ⟨ν, hν, hνfilled⟩ := ih (hfilled.insert ht hn htype) {
      state := fun x hx hmem => hsupplied.state x hx (List.mem_cons_of_mem _ hmem)
      placeholder := fun x hx hmem hplaceholder => by
        rw [Function.update_of_ne (rest.dest_ne ht hn ready hmem)]
        exact hsupplied.placeholder x hx (List.mem_cons_of_mem _ hmem) hplaceholder }
    have hset : insert n.id done ∪ {id | id ∈ ids} = done ∪ {id | id ∈ n.id :: ids} := by
      ext x
      simp only [Set.mem_union, Set.mem_insert_iff, Set.mem_ofPred_eq, List.mem_cons]
      tauto
    refine ⟨ν, ?_, hset ▸ hνfilled⟩
    rw [effects_cons, hnode, Option.bind_some, effect, hv]
    exact hν

/-! ## What an execution depends on -/

theorem outcome_agree [FloatProduct] (ht : t.WellFormed) (hn : n ∈ t.nodes)
    (hstate : n.isState = true → states n.id = states' n.id)
    (hplaceholder : n.isPlaceholder = true → μ n.id = μ' n.id)
    (hinputs : ∀ i ∈ n.inputs, μ (t.home i) = μ' (t.home i)) :
    t.outcome states μ n = t.outcome states' μ' n := by
  obtain ⟨id, name, type, kind⟩ := n
  cases kind with
  | placeholder => exact congrArg some (hplaceholder rfl)
  | state initial => exact congrArg (Option.map some) (hstate rfl)
  | constant value => rfl
  | apply op inputs =>
    have hargs : (inputs.mapM fun i => μ (t.home i)) = inputs.mapM fun i => μ' (t.home i) :=
      mapM_congr hinputs
    simp only [outcome, hargs]
  | assign target selection value =>
    have htarget := hinputs target List.mem_cons_self
    have hvalue := hinputs value (List.mem_cons_of_mem _ List.mem_cons_self)
    rw [home_of_target ht hn rfl] at htarget
    simp only [outcome, htarget, hvalue]

/-- Executions that start from the same variables and placeholders leave the same values. -/
theorem Legal.effects_agree [FloatProduct] (ht : t.WellFormed) (h : t.Legal done ids)
    (hstates : ∀ n ∈ t.nodes, n.id ∈ ids → n.isState = true → states n.id = states' n.id)
    (hinputs : ∀ n ∈ t.nodes, n.id ∈ ids → n.isPlaceholder = true → μ n.id = μ' n.id)
    (hdone : ∀ id ∈ done, μ (t.home id) = μ' (t.home id))
    (heffects : t.effects states μ ids = some ν) :
    ∃ ν', t.effects states' μ' ids = some ν' ∧
      ∀ id, id ∈ done ∨ id ∈ ids → ν (t.home id) = ν' (t.home id) := by
  induction h generalizing μ μ' with
  | nil =>
    cases heffects
    exact ⟨μ', rfl, fun id hid => hdone id (hid.resolve_right List.not_mem_nil)⟩
  | @cons done id ids known fresh ready rest ih =>
    obtain ⟨n, hnode⟩ := exists_node_of_contains known
    have hn := mem_of_node? hnode
    obtain rfl := ht.id_of_node? hnode
    rw [effects_cons, hnode, Option.bind_some] at heffects
    obtain ⟨_, heffect, heffects⟩ := Option.bind_eq_some_iff.1 heffects
    obtain ⟨v, hv, rfl⟩ := Option.map_eq_some_iff.1 heffect
    have hv' : t.outcome states' μ' n = some v := by
      rw [← hv]
      refine (outcome_agree ht hn (hstates n hn List.mem_cons_self)
        (hinputs n hn List.mem_cons_self) fun i hi => hdone i (ready i ?_)).symm
      exact List.mem_append_left _ (by rwa [inputs_of_node? hnode])
    have hinputs' : ∀ x ∈ t.nodes, x.id ∈ ids → x.isPlaceholder = true →
        Function.update μ n.dest v x.id = Function.update μ' n.dest v x.id := by
      intro x hx hmem hplaceholder
      have hne := rest.dest_ne ht hn ready hmem
      rw [Function.update_of_ne hne, Function.update_of_ne hne]
      exact hinputs x hx (List.mem_cons_of_mem _ hmem) hplaceholder
    have hdone' : ∀ x ∈ insert n.id done,
        Function.update μ n.dest v (t.home x) = Function.update μ' n.dest v (t.home x) := by
      intro x hx
      by_cases hdest : t.home x = n.dest
      · rw [hdest, Function.update_self, Function.update_self]
      · rw [Function.update_of_ne hdest, Function.update_of_ne hdest]
        refine hdone x (hx.resolve_left fun hid => hdest ?_)
        rw [hid, home_id ht hn]
    obtain ⟨ν', hν', hagree⟩ := ih
      (fun x hx hmem => hstates x hx (List.mem_cons_of_mem _ hmem)) hinputs' hdone' heffects
    refine ⟨ν', ?_, fun x hx => hagree x ?_⟩
    · rw [effects_cons, hnode, Option.bind_some, effect, hv']
      exact hν'
    · rcases hx with hx | hx
      · exact .inl (.inr hx)
      · exact (List.mem_cons.1 hx).imp (fun he => .inl he) fun h => h

end Trace
end ArrayTrace
