import ArrayTrace.Proofs.Compilation

/-!
# Broadcasting through kernels

Every operand that generated code reads at the indices of a wider array spreads to the
shape of that array. For the leaves of a kernel this goes through all the operations in
between, since spreading is transitive; for the value of an assignment the wider array is
the selected part. So no operand has more axes than there are indices.
-/

namespace ArrayTrace

namespace Shape
variable {r s t : Shape}

/-- A shape spreads to those that end in axes of its lengths, where it does not have length 1. -/
theorem spreadsTo_iff :
    s.spreadsTo t = true ↔
      ∃ pre u, t = pre ++ u ∧ List.Forall₂ (fun d e => d = e ∨ d = 1) s u := by
  simp only [spreadsTo, Bool.and_eq_true, decide_eq_true_eq, List.all_eq_true,
    Bool.or_eq_true]
  constructor
  · rintro ⟨hle, hall⟩
    refine ⟨t.take (t.length - s.length), t.drop (t.length - s.length),
      (List.take_append_drop _ _).symm, ?_⟩
    exact List.forall₂_iff_zip.2 ⟨by rw [List.length_drop]; omega, fun h => hall _ h⟩
  · rintro ⟨pre, u, rfl, h⟩
    have hlen := h.length_eq
    have hdrop : (pre ++ u).drop ((pre ++ u).length - s.length) = u := by
      rw [List.length_append, hlen, Nat.add_sub_cancel, List.drop_left]
    rw [hdrop]
    exact ⟨by rw [List.length_append]; omega, fun p hp => (List.forall₂_iff_zip.1 h).2 hp⟩

theorem spreadsTo_refl (s : Shape) : s.spreadsTo s = true :=
  spreadsTo_iff.2 ⟨[], s, rfl, List.forall₂_same.2 fun _ _ => .inl rfl⟩

private theorem forall₂_spread_trans {a b c : List Nat}
    (hab : List.Forall₂ (fun d e => d = e ∨ d = 1) a b)
    (hbc : List.Forall₂ (fun d e => d = e ∨ d = 1) b c) :
    List.Forall₂ (fun d e => d = e ∨ d = 1) a c := by
  induction hab generalizing c with
  | nil => exact hbc
  | cons hde _ ih =>
    cases hbc with
    | cons hef hrest => exact .cons (by omega) (ih hrest)

theorem spreadsTo_trans (hrs : r.spreadsTo s = true) (hst : s.spreadsTo t = true) :
    r.spreadsTo t = true := by
  obtain ⟨pre, u, rfl, hru⟩ := spreadsTo_iff.1 hrs
  obtain ⟨pre', v, rfl, hv⟩ := spreadsTo_iff.1 hst
  have huv : List.Forall₂ (fun d e => d = e ∨ d = 1) u (v.drop pre.length) := by
    simpa using List.forall₂_drop pre.length hv
  refine spreadsTo_iff.2 ⟨pre' ++ v.take pre.length, v.drop pre.length, ?_,
    forall₂_spread_trans hru huv⟩
  rw [List.append_assoc, List.take_append_drop]

theorem length_le_of_spreadsTo (h : s.spreadsTo t = true) : s.length ≤ t.length := by
  rw [spreadsTo, Bool.and_eq_true, decide_eq_true_eq] at h
  exact h.1

end Shape

theorem NDArray.of_spread_eq_ok {α : Type} [Inhabited α] {a b : NDArray α} {s : Shape}
    (h : a.spread s = .ok b) : a.shape.spreadsTo s = true ∧ b = a.broadcastTo s := by
  obtain ⟨⟨hspreads, -⟩, hb⟩ := spread_eq_ok_iff.1 h
  exact ⟨hspreads, hb.symm⟩

/-- An elementwise operation combines operands that spread to its result. -/
theorem Op.spreadsTo_of_infer {op : Op} (hop : op.isElementwise = true) {types : List TensorType}
    {preferred : DType} {type : TensorType} (h : op.infer types preferred = .ok type)
    {x : TensorType} (hx : x ∈ types) : x.shape.spreadsTo type.shape = true := by
  cases op with
  | binary b =>
    obtain ⟨y, z, rfl⟩ := List.length_eq_two.1 (length_of_infer h rfl)
    obtain ⟨s, hs, rfl⟩ := infer_binary_eq_ok h
    exact Shape.spreadsTo_of_broadcast? hs (List.mem_map_of_mem hx)
  | unary u =>
    obtain ⟨y, rfl⟩ := List.length_eq_one_iff.1 (length_of_infer h rfl)
    cases h
    exact List.mem_singleton.1 hx ▸ Shape.spreadsTo_refl _
  | cast d =>
    obtain ⟨y, rfl⟩ := List.length_eq_one_iff.1 (length_of_infer h rfl)
    cases h
    exact List.mem_singleton.1 hx ▸ Shape.spreadsTo_refl _
  | choose =>
    obtain ⟨c, y, z, rfl⟩ := List.length_eq_three.1 (length_of_infer h rfl)
    obtain ⟨s, hs, rfl⟩ := infer_choose_eq_ok h
    exact Shape.spreadsTo_of_broadcast? hs (List.mem_map_of_mem hx)
  | _ => cases hop

@[simp] theorem Emit.length_counters (rank : Nat) : (counters rank).length = rank := by
  simp [counters]

namespace Trace
variable {t : Trace} {s : Schedule} {n x : Node} {id : NodeId}

/-- The operands of an elementwise operation spread to it. -/
theorem WellFormed.spreadsTo_of_input (ht : t.WellFormed) (hn : n ∈ t.nodes)
    (helementwise : n.isElementwise = true) (hid : id ∈ n.inputs) :
    ∃ x, t.node? id = some x ∧ x.type.shape.spreadsTo n.type.shape = true := by
  have hadmits := ht.admits hn
  obtain ⟨nid, name, type, kind⟩ := n
  cases kind with
  | apply op inputs =>
    obtain ⟨operands, hops, hinfer⟩ := hadmits
    obtain ⟨x, hx, hnode⟩ := exists_of_forall₂ hops hid
    exact ⟨x, hnode, Op.spreadsTo_of_infer helementwise hinfer (List.mem_map_of_mem hx)⟩
  | _ => cases helementwise

/-- The leaves of the kernel of a node spread to the node, through all merged operations. -/
theorem spreadsTo_of_leaf (ht : t.Reachable) (hs : t.Scheduled s) (hid : n.id ∈ s.nodes)
    (hn : n ∈ t.nodes) (helementwise : n.isElementwise = true) {leaf : NodeId}
    (hleaf : leaf ∈ (t.tree (t.merged s) n.id).leaves) :
    ∃ x, t.node? leaf = some x ∧ x.type.shape.spreadsTo n.type.shape = true := by
  have hwf := ht.wellFormed
  refine block_induction ht hs (motive := fun id => ∀ n ∈ t.nodes, n.id = id →
    n.isElementwise = true → leaf ∈ (t.tree (t.merged s) id).leaves →
    ∃ x, t.node? leaf = some x ∧ x.type.shape.spreadsTo n.type.shape = true) ?_ hid n hn rfl
    helementwise hleaf
  rintro _ hid ih n hn rfl helementwise hleaf
  have hnode := hwf.node?_id hn
  rw [leaves_tree hwf (by simpa [isElementwise, hnode] using helementwise),
    List.mem_flatMap] at hleaf
  obtain ⟨i, hi, hleaf⟩ := hleaf
  obtain ⟨x, hx, hspreads⟩ := hwf.spreadsTo_of_input hn helementwise (inputs_of_node? hnode ▸ hi)
  split at hleaf
  · obtain rfl := hwf.id_of_node? hx
    have hmerged := ((merged_iff hs).1 ‹_›).elementwise
    obtain ⟨y, hy, hyx⟩ := ih x.id hi ‹_› x (mem_of_node? hx) rfl
      (by simpa [isElementwise, hx] using hmerged) hleaf
    exact ⟨y, hy, Shape.spreadsTo_trans hyx hspreads⟩
  · exact List.mem_singleton.1 hleaf ▸ ⟨x, hx, hspreads⟩

/-! ## The operands of a step -/

/-- Number of axes of a node. -/
def rank (t : Trace) (id : NodeId) : Nat := ((t.node? id).map fun n => n.type.rank).getD 0

/-- What an assigned value is read at are the indices of the selected part. -/
theorem WellFormed.spreadsTo_of_assign (ht : t.WellFormed) (hn : n ∈ t.nodes)
    {target value : NodeId} {selection : Selection} (hk : n.kind = .assign target selection value) :
    ∃ x v w, t.node? target = some x ∧ t.node? value = some v ∧ x.type = n.type ∧
      selection.resolve x.type.shape = .ok w ∧ w.Fits x.type.shape ∧
      v.type.shape.spreadsTo w.shape = true := by
  have hadmits := ht.admits hn
  simp only [Admits, hk] at hadmits
  obtain ⟨x, v, w, hx, -, htype, hv, hw, hbroadcast⟩ := hadmits
  rw [← htype] at hw
  exact ⟨x, v, w, hx, hv, htype, hw, Selection.fits_of_resolve hw,
    Shape.spreadsTo_of_broadcast? hbroadcast List.mem_cons_self⟩

end Trace
end ArrayTrace
