import ArrayTrace.Proofs.Execution
import ArrayTrace.Proofs.Inference

/-!
# Independent nodes

Two nodes that no chain of edges orders do not influence each other: each leaves the same
value whether the other one is executed before it or not. Only nodes that access one array
could disturb each other, and of two such accesses that no chain orders either both are
reads, or the read and the assignment concern regions that do not overlap.
-/

namespace ArrayTrace.Trace
variable {t : Trace} {states μ ν : Memory} {n a b x y : Node} {id root s : NodeId}
  {r w : Region} {v : Option Tensor}

/-- Whether the contents of placeholders and variables have their declared types. -/
def Typed (t : Trace) (μ : Memory) : Prop :=
  ∀ n ∈ t.nodes, n.isStorage = true → ∀ v, μ n.id = some v → v.type = n.type

/-- The arrays whose contents executing a node depends on. -/
def sources (t : Trace) (n : Node) : List NodeId :=
  match n.kind with
  | .placeholder => [n.id]
  | .apply _ inputs => inputs.map t.home
  | .assign target _ value => [target, t.home value]
  | _ => []

theorem outcome_congr [FloatProduct] (h : ∀ s ∈ t.sources n, μ s = ν s) :
    t.outcome states μ n = t.outcome states ν n := by
  obtain ⟨id, name, type, kind⟩ := n
  cases kind with
  | placeholder => exact congrArg some (h id List.mem_cons_self)
  | state initial => rfl
  | constant value => rfl
  | apply op inputs =>
    have hargs : (inputs.mapM fun i => μ (t.home i)) = inputs.mapM fun i => ν (t.home i) :=
      mapM_congr fun i hi => h _ (List.mem_map_of_mem hi)
    simp only [outcome, hargs]
  | assign target selection value =>
    have htarget := h target List.mem_cons_self
    have hvalue := h (t.home value) (List.mem_cons_of_mem _ List.mem_cons_self)
    simp only [outcome, htarget, hvalue]

/-! ## Where values are kept -/

theorem home_eq_or_mem_inputs (h : t.node? id = some x) :
    t.home id = id ∨ t.home id ∈ x.inputs := by
  obtain ⟨_, _, _, kind⟩ := x
  cases kind <;> simp [home, h, Node.target?, Node.inputs]

theorem isStorage_of_storage? (ht : t.WellFormed) (h : t.storage? id = some root)
    (hx : t.node? id = some x) :
    ∃ y, t.node? root = some y ∧ y.isStorage = true ∧ y.type = x.type := by
  obtain ⟨x', hx', ⟨hs, rfl⟩ | htarget⟩ := storage?_eq_some.1 h
  · rw [hx] at hx'
    cases hx'
    exact ⟨x, hx, hs, rfl⟩
  · rw [hx] at hx'
    cases hx'
    have hadmits := ht.admits (mem_of_node? hx)
    obtain ⟨_, _, _, kind⟩ := x
    cases kind with
    | assign target selection value =>
      cases htarget
      obtain ⟨y, _, _, hy, hs, htype, -⟩ := hadmits
      exact ⟨y, hy, hs, htype⟩
    | _ => cases htarget

theorem isStorage_of_target (ht : t.WellFormed) (hn : n ∈ t.nodes) (h : n.target? = some root) :
    ∃ y, t.node? root = some y ∧ y.isStorage = true ∧ y.type = n.type :=
  isStorage_of_storage? ht (storage?_eq_some.2 ⟨n, ht.node?_id hn, .inr h⟩) (ht.node?_id hn)

theorem storage?_of_home (hx : t.node? id = some x) (hroot : t.home id = root)
    (hy : t.node? root = some y) (hs : y.isStorage = true) : t.storage? id = some root := by
  rw [home, hx, Option.bind_some] at hroot
  refine storage?_eq_some.2 ⟨x, hx, ?_⟩
  cases htarget : x.target? with
  | none =>
    rw [htarget] at hroot
    obtain rfl : id = root := hroot
    rw [hx] at hy
    cases hy
    exact .inl ⟨hs, rfl⟩
  | some target =>
    rw [htarget] at hroot
    exact .inr (congrArg some hroot)

/-- A node depends on its own array and on arrays that come before it. -/
theorem WellFormed.before_of_mem_sources (ht : t.WellFormed) (ha : a ∈ t.nodes)
    (hs : s ∈ t.sources a) : s = a.id ∨ t.Before s a.id := by
  have hid := ht.node?_id ha
  have hhome : ∀ i ∈ a.inputs, t.Before (t.home i) a.id := by
    intro i hi
    have hbefore : t.Before i a.id := .of_input hid hi
    obtain ⟨x, hx⟩ := exists_node_of_contains (ht.input_known ha i hi).1
    obtain rfl := ht.id_of_node? hx
    rcases home_eq_or_mem_inputs hx with h | h
    · rwa [h]
    · exact (Before.of_input hx h).trans hbefore
  obtain ⟨_, _, _, kind⟩ := a
  cases kind with
  | placeholder => exact .inl (List.mem_singleton.1 hs)
  | apply op inputs =>
    obtain ⟨i, hi, rfl⟩ := List.mem_map.1 hs
    exact .inr (hhome i hi)
  | assign target selection value =>
    rcases List.mem_cons.1 hs with rfl | hs
    · exact .inr (.of_input hid List.mem_cons_self)
    · obtain rfl := List.mem_singleton.1 hs
      exact .inr (hhome value (List.mem_cons_of_mem _ List.mem_cons_self))
  | _ => cases hs

/-! ## What nodes read -/

theorem mem_reads_of_assign {target value : NodeId} {selection : Selection}
    (hk : n.kind = .assign target selection value) (hx : t.node? value = some x)
    (hroot : t.storage? value = some root) : (root, Region.full x.type.shape) ∈ t.reads n := by
  simp only [reads, hk]
  exact mem_readsOf.2 ⟨0, value, x, rfl, hroot, hx, rfl⟩

theorem mem_reads_of_apply {op : Op} {inputs : List NodeId} (hk : n.kind = .apply op inputs)
    (hop : ∀ s, op ≠ .slice s) (hi : id ∈ inputs) (hx : t.node? id = some x)
    (hroot : t.storage? id = some root) : (root, Region.full x.type.shape) ∈ t.reads n := by
  obtain ⟨i, hi⟩ := List.mem_iff_getElem?.1 hi
  simp only [reads, hk]
  refine mem_readsOf.2 ⟨i, id, x, hi, hroot, hx, ?_⟩
  cases op with
  | slice s => exact absurd rfl (hop s)
  | _ => rfl

theorem mem_reads_of_slice {selection : Selection} {window : Window}
    (hk : n.kind = .apply (.slice selection) [id]) (hx : t.node? id = some x)
    (hroot : t.storage? id = some root) (hw : selection.resolve x.type.shape = .ok window) :
    (root, window.region) ∈ t.reads n := by
  simp only [reads, hk]
  refine mem_readsOf.2 ⟨0, id, x, rfl, hroot, hx, ?_⟩
  simp [operandRegion, hw, Except.toOption]

/-- A slice has one operand, which its selection fits. -/
theorem Admits.slice (h : t.Admits n) {selection : Selection} {inputs : List NodeId}
    (hk : n.kind = .apply (.slice selection) inputs) :
    ∃ i x window, inputs = [i] ∧ t.node? i = some x ∧
      selection.resolve x.type.shape = .ok window := by
  obtain ⟨_, _, _, kind⟩ := n
  cases hk
  obtain ⟨operands, hops, hinfer⟩ := h
  rcases hops with _ | ⟨hi, _ | _⟩
  · cases hinfer
  · obtain ⟨window, hw, -⟩ := Op.infer_slice_eq_ok hinfer
    exact ⟨_, _, window, rfl, hi, hw⟩
  · cases hinfer

/-! ## Assignments -/

/-- What an assignment that succeeds has done. -/
theorem outcome_assign [FloatProduct] (ht : t.WellFormed) (hμ : t.Typed μ) (hb : b ∈ t.nodes)
    (htarget : b.target? = some root) (h : t.outcome states μ b = some v) :
    ∃ current window source stored, μ root = some current ∧ current.type = b.type ∧
      window.Fits current.shape ∧ b.write? = some (root, window.region) ∧
      current.assign window source = .ok stored ∧ v = some stored := by
  obtain ⟨x, hx, hs, htype⟩ := isStorage_of_target ht hb htarget
  obtain ⟨id, name, type, kind⟩ := b
  cases kind with
  | assign target selection value =>
    cases htarget
    obtain ⟨current, hcurrent, h⟩ := Option.bind_eq_some_iff.1 h
    obtain ⟨window, hwindow, h⟩ := Option.bind_eq_some_iff.1 h
    obtain ⟨source, -, h⟩ := Option.bind_eq_some_iff.1 h
    obtain ⟨stored, hstored, h⟩ := Option.bind_eq_some_iff.1 h
    cases h
    obtain rfl := ht.id_of_node? hx
    have hcur : current.type = type := (hμ x (mem_of_node? hx) hs current hcurrent).trans htype
    have hfits := Selection.fits_of_resolve (toOption_eq_some.1 hwindow)
    refine ⟨current, window, source, stored, hcurrent, hcur, hfits, ?_,
      toOption_eq_some.1 hstored, rfl⟩
    have hshape : current.shape = type.shape := congrArg TensorType.shape hcur
    rw [hshape] at hwindow
    simp [Node.write?, hwindow]
  | _ => cases htarget

/-- Executing a node keeps the types of placeholders and variables. -/
theorem Typed.effect [FloatProduct] (ht : t.WellFormed) (hs : t.Typed states) (hμ : t.Typed μ)
    (hn : n ∈ t.nodes) (h : t.effect states μ n = some ν) : t.Typed ν := by
  obtain ⟨v, hv, rfl⟩ := Option.map_eq_some_iff.1 h
  intro x hx hstorage u hu
  by_cases hdest : x.id = n.dest
  · rw [hdest, Function.update_self] at hu
    subst hu
    cases htarget : n.target? with
    | some root =>
      obtain ⟨current, window, source, stored, hcur, htype, -, -, hassign, hstored⟩ :=
        outcome_assign ht hμ hn htarget hv
      obtain ⟨y, hy, -, hytype⟩ := isStorage_of_target ht hn htarget
      cases hstored
      rw [Node.dest, htarget, Option.getD_some] at hdest
      obtain rfl : y = x := by
        rw [← hdest, ht.node?_id hx] at hy
        exact (Option.some.inj hy).symm
      rw [Tensor.type_of_assign hassign, htype, hytype]
    | none =>
      rw [Node.dest, htarget, Option.getD_none] at hdest
      obtain rfl := ht.eq_of_id_eq hx hn hdest
      obtain ⟨id, name, type, kind⟩ := x
      cases kind with
      | placeholder => exact hμ _ hn hstorage u (Option.some.inj hv)
      | state initial =>
        obtain ⟨u', hu', hv⟩ := Option.map_eq_some_iff.1 hv
        cases hv
        exact hs _ hn hstorage u hu'
      | _ => cases hstorage
  · rw [Function.update_of_ne hdest] at hu
    exact hμ x hx hstorage u hu

/-! ## Nodes that no chain orders -/

/-- No chain of edges leads from one of two different nodes to the other. -/
structure Unordered (t : Trace) (a b : Node) : Prop where
  left_mem : a ∈ t.nodes
  right_mem : b ∈ t.nodes
  ne : a ≠ b
  not_before : ¬ t.Before a.id b.id
  not_after : ¬ t.Before b.id a.id

namespace Unordered

theorem symm (h : t.Unordered a b) : t.Unordered b a :=
  ⟨h.right_mem, h.left_mem, h.ne.symm, h.not_after, h.not_before⟩

/-- A read that no chain orders with an assignment is from a region apart. -/
theorem not_overlaps (h : t.Unordered a b) (ht : t.Reachable) (hread : (root, r) ∈ t.reads a)
    (hwrite : b.write? = some (root, w)) : r.overlaps w = false := by
  by_contra hover
  rw [Bool.not_eq_false] at hover
  rcases Nat.lt_trichotomy a.id.index b.id.index with hlt | he | hgt
  · exact h.not_before
      (ht.read_before_assignment h.left_mem h.right_mem hread hwrite hover hlt)
  · exact h.ne (ht.wellFormed.eq_of_index h.left_mem h.right_mem he)
  · exact h.not_after (ht.assignment_before_read h.right_mem h.left_mem
      (Node.write?_eq_some hwrite) hread hgt)

theorem target_ne (h : t.Unordered a b) (ht : t.Reachable) (ha : a.target? = some root) :
    b.target? ≠ some root := by
  intro hb
  rcases Nat.lt_trichotomy a.id.index b.id.index with hlt | he | hgt
  · exact h.not_before (ht.assignments_ordered h.left_mem h.right_mem ha hb hlt)
  · exact h.ne (ht.wellFormed.eq_of_index h.left_mem h.right_mem he)
  · exact h.not_after (ht.assignments_ordered h.right_mem h.left_mem hb ha hgt)

theorem id_ne_target (h : t.Unordered a b) (ht : t.WellFormed) (hb : b.target? = some root) :
    a.id ≠ root := by
  rintro rfl
  refine h.not_before (.of_input (ht.node?_id h.right_mem) ?_)
  obtain ⟨_, _, _, kind⟩ := b
  cases kind <;> simp_all [Node.target?, Node.inputs]

/-- The values of the two nodes go to different arrays. -/
theorem dest_ne (h : t.Unordered a b) (ht : t.Reachable) : a.dest ≠ b.dest := by
  rw [Node.dest, Node.dest]
  cases ha : a.target? with
  | none =>
    cases hb : b.target? with
    | none => exact fun he => h.ne (ht.wellFormed.eq_of_id_eq h.left_mem h.right_mem he)
    | some root => exact h.id_ne_target ht.wellFormed hb
  | some root =>
    cases hb : b.target? with
    | none => exact (h.symm.id_ne_target ht.wellFormed ha).symm
    | some root' =>
      rintro rfl
      exact h.target_ne ht ha hb

/-- An assignment that no chain orders with a read of the whole array changes nothing. -/
theorem assign_trivial [FloatProduct] (h : t.Unordered a b) (ht : t.Reachable) (hμ : t.Typed μ)
    (hb : b.target? = some root) (hv : t.outcome states μ b = some v)
    (hx : t.node? id = some x) (hroot : t.storage? id = some root)
    (hread : (root, Region.full x.type.shape) ∈ t.reads a) : v = μ root := by
  obtain ⟨current, window, source, stored, hcur, htype, hfits, hwrite, hassign, rfl⟩ :=
    outcome_assign ht.wellFormed hμ h.right_mem hb hv
  obtain ⟨y, hy, -, hytype⟩ := isStorage_of_storage? ht.wellFormed hroot hx
  obtain ⟨y', hy', -, hytype'⟩ := isStorage_of_target ht.wellFormed h.right_mem hb
  have hyy : y = y' := Option.some.inj (hy.symm.trans hy')
  have hshape : current.shape = x.type.shape := by
    have : current.type = x.type := by rw [htype, ← hytype', ← hyy, hytype]
    exact congrArg TensorType.shape this
  have hdisjoint := h.not_overlaps ht hread hwrite
  rw [← hshape] at hdisjoint
  rw [Tensor.assign_of_disjoint_full hfits hdisjoint hassign, hcur]

/-- A slice reads the same before and after an assignment that no chain orders with it. -/
theorem outcome_slice [FloatProduct] (h : t.Unordered a b) (ht : t.Reachable) (hμ : t.Typed μ)
    (hb : b.target? = some root) (hv : t.outcome states μ b = some v)
    {selection : Selection} (hk : a.kind = .apply (.slice selection) [id])
    (hhome : t.home id = root) (hx : t.node? id = some x) (hroot : t.storage? id = some root)
    {window : Window} (hw : selection.resolve x.type.shape = .ok window) :
    t.outcome states (Function.update μ root v) a = t.outcome states μ a := by
  obtain ⟨current, window', source, stored, hcur, htype, hfits, hwrite, hassign, rfl⟩ :=
    outcome_assign ht.wellFormed hμ h.right_mem hb hv
  obtain ⟨y, hy, -, hytype⟩ := isStorage_of_storage? ht.wellFormed hroot hx
  obtain ⟨y', hy', -, hytype'⟩ := isStorage_of_target ht.wellFormed h.right_mem hb
  have hyy : y = y' := Option.some.inj (hy.symm.trans hy')
  have hshape : current.shape = x.type.shape := by
    have : current.type = x.type := by rw [htype, ← hytype', ← hyy, hytype]
    exact congrArg TensorType.shape this
  have hstored : stored.shape = current.shape :=
    congrArg TensorType.shape (Tensor.type_of_assign hassign)
  rw [← hshape] at hw
  have hread := mem_reads_of_slice hk hx hroot (hshape ▸ hw)
  have hextract : stored.extract window = current.extract window :=
    Tensor.extract_assign_of_disjoint hfits (Selection.fits_of_resolve hw)
      (h.not_overlaps ht hread hwrite) hassign
  simp [outcome, hk, hhome, hcur, Op.eval, hstored, hw, hextract, Except.toOption, bind,
    Except.bind, Except.mapError]

/-- A node leaves the same value whether a node that no chain orders with it has been
executed or not. -/
theorem outcome_update [FloatProduct] (h : t.Unordered a b) (ht : t.Reachable) (hμ : t.Typed μ)
    (hv : t.outcome states μ b = some v) :
    t.outcome states (Function.update μ b.dest v) a = t.outcome states μ a := by
  by_cases hmem : b.dest ∈ t.sources a
  · cases hb : b.target? with
    | none =>
      rw [Node.dest, hb, Option.getD_none] at hmem
      rcases ht.wellFormed.before_of_mem_sources h.left_mem hmem with he | hbefore
      · exact absurd (ht.wellFormed.eq_of_id_eq h.right_mem h.left_mem he) h.ne.symm
      · exact absurd hbefore h.not_after
    | some root =>
      rw [Node.dest, hb, Option.getD_some] at hmem ⊢
      obtain ⟨y, hy, hs, -⟩ := isStorage_of_target ht.wellFormed h.right_mem hb
      have htrivial : ∀ {i x}, t.node? i = some x → t.home i = root →
          (t.storage? i = some root → (root, Region.full x.type.shape) ∈ t.reads a) →
          t.outcome states (Function.update μ root v) a = t.outcome states μ a := by
        intro i x hx hhome hread
        have hroot := storage?_of_home hx hhome hy hs
        rw [h.assign_trivial ht hμ hb hv hx hroot (hread hroot), Function.update_eq_self]
      have hknown : ∀ i ∈ a.inputs, ∃ x, t.node? i = some x := fun i hi =>
        exists_node_of_contains (ht.wellFormed.input_known h.left_mem i hi).1
      cases hk : a.kind with
      | placeholder =>
        simp only [sources, hk, List.mem_singleton] at hmem
        exact absurd hmem.symm (h.id_ne_target ht.wellFormed hb)
      | state initial => simp [sources, hk] at hmem
      | constant value => simp [sources, hk] at hmem
      | apply op inputs =>
        simp only [sources, hk, List.mem_map] at hmem
        obtain ⟨i, hi, hhome⟩ := hmem
        by_cases hop : ∃ s, op = .slice s
        · obtain ⟨selection, rfl⟩ := hop
          obtain ⟨i', x, window, rfl, hx, hw⟩ := (ht.wellFormed.admits h.left_mem).slice hk
          obtain rfl := List.mem_singleton.1 hi
          exact h.outcome_slice ht hμ hb hv hk hhome hx (storage?_of_home hx hhome hy hs) hw
        · obtain ⟨x, hx⟩ := hknown i (by simpa [Node.inputs, hk] using hi)
          exact htrivial hx hhome (mem_reads_of_apply hk (fun s he => hop ⟨s, he⟩) hi hx)
      | assign target selection value =>
        simp only [sources, hk, List.mem_cons, List.not_mem_nil, or_false] at hmem
        rcases hmem with rfl | hhome
        · exact absurd hb (h.target_ne ht (by simp [Node.target?, hk]))
        · obtain ⟨x, hx⟩ := hknown value (by simp [Node.inputs, hk])
          exact htrivial hx hhome.symm (mem_reads_of_assign hk hx)
  · refine outcome_congr fun s hs => Function.update_of_ne ?_ _ _
    rintro rfl
    exact hmem hs

/-- Two nodes that no chain orders can be executed in either order. -/
theorem effect_comm [FloatProduct] (h : t.Unordered a b) (ht : t.Reachable) (hμ : t.Typed μ) :
    ((t.effect states μ a).bind fun ν => t.effect states ν b) =
      (t.effect states μ b).bind fun ν => t.effect states ν a := by
  simp only [effect]
  cases ha : t.outcome states μ a with
  | none =>
    cases hb : t.outcome states μ b with
    | none => rfl
    | some v => simp [h.outcome_update ht hμ hb, ha]
  | some u =>
    cases hb : t.outcome states μ b with
    | none => simp [h.symm.outcome_update ht hμ ha, hb]
    | some v =>
      simp [h.outcome_update ht hμ hb, h.symm.outcome_update ht hμ ha, ha, hb,
        Function.update_comm (h.dest_ne ht)]

end Unordered
end ArrayTrace.Trace
