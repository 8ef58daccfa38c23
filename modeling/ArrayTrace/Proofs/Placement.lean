import ArrayTrace.Proofs.Containment
import ArrayTrace.Proofs.Overwriting
import ArrayTrace.Proofs.Totality

/-!
# Arrays apart

Two values of a compiled program are kept in one array of memory exactly when they have the same
home. So the code of a node that moves elements changes one array, and leaves there what
executing the node does: no other value, and not the value that it reads, is disturbed.
-/

namespace ArrayTrace
open C

/-- Whether values are kept in one array exactly when they have the same home. -/
def EmitScope.Apart (scope : EmitScope) (σ : Names) : Prop :=
  ∀ id id' b b', scope.buffer? σ id = some b → scope.buffer? σ id' = some b' →
    (b = b' ↔ scope.trace.home id = scope.trace.home id')

/-! ## Arrays of the storages of a unit -/

namespace Trace
variable {t : Trace} {plan : Plan} {storage : List (NodeId × Storage)} {n m : Node}
  {x y : Storage} {b b' : Buffer} {id other : NodeId}

/-- The array that a storage names is an argument, a table or a member of the state. -/
theorem buffer?_expr_cases (ht : t.WellFormed) (h : t.Ready plan) (hn : n ∈ t.nodesAt plan.roots)
    (hown : n.ownStorage? (t.assigned plan) = some x) :
    (x.role = .parameter ∧ ∃ i, (t.passed plan)[i]? = some n ∧
      x.expr.buffer? (t.bound plan) = some (.argument i n.type.dtype)) ∨
    (x.role = .constant ∧ x.expr.buffer? (t.bound plan) = some (.table x.label)) ∨
    (x.role ≠ .parameter ∧ x.role ≠ .constant ∧
      x.expr.buffer? (t.bound plan) = some (.member x.label)) := by
  have hstate : t.bound plan "state" = some .state := bound_of_ne (by decide)
  obtain ⟨hmem, hroot⟩ := ht.mem_nodesAt.1 hn
  rw [Node.ownStorage?] at hown
  cases hk : n.kind with
  | placeholder =>
    simp only [hk] at hown
    by_cases hassigned : n.id ∈ t.assigned plan
    · rw [if_pos hassigned] at hown
      cases hown
      exact .inr (.inr ⟨by simp, by simp, if_pos hstate⟩)
    · rw [if_neg hassigned] at hown
      cases hown
      obtain ⟨i, hi⟩ := List.mem_iff_getElem?.1 (ht.mem_passed.2
        ⟨hmem, h.mem_mentioned.2 hroot, by simp [Node.isPlaceholder, hk]⟩)
      refine .inl ⟨rfl, i, hi, ?_⟩
      simp only [Storage.expr, Expr.buffer?, bound_parameter ht hi hassigned]
  | constant value =>
    simp only [hk] at hown
    cases hown
    refine .inr (.inl ⟨rfl, ?_⟩)
    simp only [Storage.expr, Expr.buffer?, bound_constant]
  | state initial =>
    simp only [hk] at hown
    cases hown
    exact .inr (.inr ⟨by simp, by simp, if_pos hstate⟩)
  | apply op inputs =>
    simp only [hk] at hown
    cases hown
    exact .inr (.inr ⟨by simp, by simp, if_pos hstate⟩)
  | assign target selection value =>
    simp only [hk] at hown
    cases hown

/-- Nodes with storage of their own have arrays of their own. -/
theorem eq_of_buffer?_expr (ht : t.WellFormed) (h : t.Ready plan)
    (hn : n ∈ t.nodesAt plan.roots) (hm : m ∈ t.nodesAt plan.roots)
    (hx : n.ownStorage? (t.assigned plan) = some x) (hy : m.ownStorage? (t.assigned plan) = some y)
    (hb : x.expr.buffer? (t.bound plan) = some b) (hb' : y.expr.buffer? (t.bound plan) = some b) :
    n = m := by
  have hname : x.label = y.label → n = m := by
    intro hlabel
    have hxy := congrArg Storage.name (Storage.label_injective hlabel)
    rw [Node.name_of_ownStorage? hx, Node.name_of_ownStorage? hy] at hxy
    exact List.inj_on_of_nodup_map ht.names_nodup (ht.mem_nodesAt.1 hn).1
      (ht.mem_nodesAt.1 hm).1 hxy
  have hcases := buffer?_expr_cases ht h hn hx
  have hcases' := buffer?_expr_cases ht h hm hy
  rw [hb] at hcases
  rw [hb'] at hcases'
  rcases hcases with ⟨-, i, hi, he⟩ | ⟨-, he⟩ | ⟨-, -, he⟩ <;> cases he <;>
    rcases hcases' with ⟨-, j, hj, he⟩ | ⟨-, he⟩ | ⟨-, -, he⟩ <;>
      simp only [Option.some.injEq, Buffer.argument.injEq, Buffer.table.injEq,
        Buffer.member.injEq, reduceCtorEq] at he
  · rw [he.1, hj] at hi
    exact (Option.some.inj hi).symm
  · exact hname he
  · exact hname he

section
variable (ht : t.WellFormed) (h : t.Ready plan)
  (hstorage : storageOf (t.nodesAt plan.roots) (t.assigned plan) = .ok storage)
include ht h hstorage

/-- The values of a unit are kept apart. -/
theorem apart_bound : EmitScope.Apart ⟨t, storage⟩ (t.bound plan) := by
  intro id id' b b' hb hb'
  obtain ⟨x, hx, hbx⟩ := EmitScope.buffer?_eq_some.1 hb
  obtain ⟨y, hy, hby⟩ := EmitScope.buffer?_eq_some.1 hb'
  have hroots : ∀ m ∈ t.nodesAt plan.roots, m ∈ t.nodes := fun m hm => (ht.mem_nodesAt.1 hm).1
  obtain ⟨n, hn, hnid, hnx⟩ := lookup_storageOf ht hroots hstorage hx
  obtain ⟨m, hm, hmid, hmy⟩ := lookup_storageOf ht hroots hstorage hy
  constructor
  · rintro rfl
    rw [← hnid, ← hmid, eq_of_buffer?_expr ht h hn hm hnx hmy hbx hby]
  · intro hhome
    obtain rfl := ht.eq_of_id_eq (hroots n hn) (hroots m hm) (hnid.trans (hhome.trans hmid.symm))
    obtain rfl : x = y := Option.some.inj (hnx.symm.trans hmy)
    exact Option.some.inj (hbx.symm.trans hby)

/-- Every root has an array. -/
theorem exists_buffer (hid : id ∈ plan.roots) :
    ∃ b, EmitScope.buffer? ⟨t, storage⟩ (t.bound plan) id = some b := by
  obtain ⟨storage', hstorage', hlookup⟩ := h.exists_storage ht
  obtain rfl : storage' = storage := Except.ok.inj (hstorage'.symm.trans hstorage)
  obtain ⟨x, hx⟩ := hlookup id hid
  obtain ⟨n, hn, -, hnx⟩ :=
    lookup_storageOf ht (fun m hm => (ht.mem_nodesAt.1 hm).1) hstorage hx
  rcases buffer?_expr_cases ht h hn hnx with ⟨-, i, -, hb⟩ | ⟨-, hb⟩ | ⟨-, -, hb⟩ <;>
    exact ⟨_, EmitScope.buffer?_eq_some.2 ⟨x, hx, hb⟩⟩

end

end Trace

end ArrayTrace
