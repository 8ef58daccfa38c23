import ArrayTrace.Proofs.Reading
import ArrayTrace.Proofs.Scoping

/-!
# Legibility of array accesses

The names of arrays and of loop counters are names in C, none of them is that of a type, and
index expressions have the parentheses that they need. So the text of an access to an array is
read back as that access.
-/

namespace ArrayTrace
open C

/-! ## Names -/

/-- A name that goes on differently than the names of types is not one of them. -/
theorem isName_of_ne {x : String} (h : isIdentifier x = true) (hne : ∀ d : DType, d.cType ≠ x) :
    isName x = true := by
  have hnone : elementType? x = none := List.find?_eq_none.2 fun d _ => by simp [hne d]
  rw [isName, h, hnone]
  rfl

theorem Storage.isName_label {s : Storage} (h : isIdentifier s.name = true) :
    isName s.label = true := by
  refine isName_of_ne ?_ fun d hd => ?_
  · have hword := Trace.isWord_of_isIdentifier h
    rw [isIdentifier, toList_label]
    exact Bool.and_eq_true_iff.2 ⟨by cases s.role <;> rfl, hword⟩
  · have hlist := congrArg String.toList hd
    rw [toList_label] at hlist
    cases d <;> cases congrArg (·[1]?) hlist

theorem Emit.isName_counter (axis : Nat) : isName (counter axis) = true := by
  have hdigits : ∀ c ∈ axis.repr.toList, c.isDigit = true := fun c => Trace.isDigit_of_mem_repr
  refine isName_of_ne ?_ fun d hd => ?_
  · exact isIdentifier_append (by decide) fun c hc => by simp [Char.isAlphanum, hdigits c hc]
  · have hlist : d.cType.toList = 'i' :: axis.repr.toList := by
      rw [hd, counter, String.toList_append]
      rfl
    cases d with
    | i64 =>
      obtain ⟨-, htail⟩ := List.cons.inj hlist
      exact absurd (hdigits 'n' (htail ▸ List.mem_cons_self)) (by decide)
    | _ => cases (List.cons.inj hlist).1

/-! ## Index expressions -/

namespace Emit

/-- Expressions that can stand anywhere in an index expression. -/
def IsOperand (e : Expr) : Prop := e.level = 8 ∧ e.Legible

theorem isOperand_counters {rank : Nat} {e : Expr} (h : e ∈ counters rank) : IsOperand e := by
  obtain ⟨axis, -, rfl⟩ := List.mem_map.1 h
  exact ⟨rfl, isName_counter axis⟩

theorem isOperand_aligned {s : Shape} {indices : List Expr} (h : ∀ e ∈ indices, IsOperand e)
    {e : Expr} (he : e ∈ aligned s indices) : IsOperand e := by
  rw [aligned, ← List.map_uncurry_zip_eq_zipWith] at he
  obtain ⟨⟨d, i⟩, hmem, rfl⟩ := List.mem_map.1 he
  rw [Function.uncurry_apply_pair]
  split
  · exact ⟨rfl, trivial⟩
  · exact h i (List.mem_of_mem_drop (List.of_mem_zip hmem).2)

theorem legible_linear {s : Shape} {indices : List Expr} (h : ∀ e ∈ indices, IsOperand e) :
    (linear s indices).Legible := by
  match s, indices with
  | _ :: ds, i :: is =>
    obtain ⟨hi, his⟩ := List.forall_mem_cons.1 h
    have hzip : ∀ e ∈ ds.zip is, IsOperand e.2 := fun e he => his _ (List.of_mem_zip he).2
    rw [linear]
    refine List.foldlRecOn (ds.zip is) _ hi.2 fun e he x hx => ?_
    obtain ⟨hlevel, hlegible⟩ := hzip x hx
    exact ⟨⟨Nat.le_succ 5, by rw [hlevel]; decide⟩,
      ⟨⟨(by decide : 6 ≤ 8), (by decide : 6 < 8)⟩, he, trivial⟩, hlegible⟩
  | [], _ => trivial
  | _ :: _, [] => trivial

theorem legible_broadcastLinear {s : Shape} {indices : List Expr}
    (h : ∀ e ∈ indices, IsOperand e) : (broadcastLinear s indices).Legible :=
  legible_linear fun _ he => isOperand_aligned h he

end Emit

/-! ## Arrays -/

/-- Whether every array of a scope is named after an identifier. -/
def EmitScope.Named (scope : EmitScope) : Prop :=
  ∀ id s, scope.storage.lookup id = some s → isIdentifier s.name = true

theorem EmitScope.Named.legible_array {scope : EmitScope} (h : scope.Named) {id : NodeId}
    {e : Expr} (he : scope.array id = .ok e) : e.IsArray ∧ e.Legible := by
  rw [EmitScope.array] at he
  split at he
  · cases he
    rename_i storage hlookup
    have hname := Storage.isName_label (h id storage hlookup)
    rw [Storage.expr]
    split <;> exact ⟨trivial, hname⟩
  · cases he

/-- The arrays of a unit are named after nodes. -/
theorem Trace.Reachable.named {t : Trace} {plan : Plan} {storage : List (NodeId × Storage)}
    (ht : t.Reachable) (h : t.placement plan = .ok storage) : EmitScope.Named ⟨t, storage⟩ := by
  intro id s hs
  obtain ⟨roots, hroots, h⟩ := Except.bind_eq_ok.1 h
  have hmem : ∀ n ∈ roots, n ∈ t.nodes := by
    intro n hn
    obtain ⟨i, -, hi⟩ := exists_of_forall₂ (Except.mapM_eq_ok.1 hroots).flip hn
    exact mem_of_node? (node_eq_ok.1 (Except.mapError_eq_ok.1 hi))
  obtain ⟨n, hn, -, hown⟩ := lookup_storageOf ht.wellFormed hmem h hs
  rw [Node.name_of_ownStorage? hown]
  exact ht.represented.isIdentifier_name (hmem n hn)

end ArrayTrace
