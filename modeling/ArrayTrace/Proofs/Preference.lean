import ArrayTrace.Proofs.Inference

/-!
# The preferred float

Integers turn into the preferred float where an operation needs one. Nothing makes this
preference a float: any element type can be preferred. Where two types are promoted, one that
is no float stands for the narrow float. Quotients, powers and transcendental functions of
integers, however, get the preferred type as it is, and there are no such functions on integers
or Booleans. These operations have no value then; all others have a value of the inferred type.

## Main definitions

* `Op.needsFloat` — whether an operation is carried out in the preferred type.
-/

namespace ArrayTrace

namespace DType
variable {a b d preferred : DType}

/-- In promotion, a preference that is no float acts as the narrow float. -/
theorem promote_of_isFloat_eq_false (h : preferred.isFloat = false) :
    promote a b preferred = promote a b .f32 := by
  cases preferred with
  | f64 | f32 => cases h
  | i64 | bool => cases a <;> cases b <;> rfl

theorem isFloat_promote (a b preferred : DType) :
    (promote a b preferred).isFloat = (a.isFloat || b.isFloat) := by
  cases a <;> cases b <;> cases preferred <;> rfl

theorem floatOr_of_isFloat (h : d.isFloat = true) : d.floatOr preferred = d := if_pos h

theorem floatOr_of_isFloat_eq_false (h : d.isFloat = false) : d.floatOr preferred = preferred :=
  if_neg (by simp [h])

end DType

/-- Only floats have quotients and powers. -/
theorem BinaryOp.on_eq_none {op : BinaryOp} (hop : op = .div ∨ op = .pow) {d : DType}
    (hd : d.isFloat = false) : op.on d = none := by
  cases d with
  | f64 | f32 => cases hd
  | i64 | bool => rcases hop with rfl | rfl <;> rfl

/-- Only floats have transcendental functions. -/
theorem UnaryOp.on_eq_none {op : UnaryOp} (hop : op.isTranscendental = true) {d : DType}
    (hd : d.isFloat = false) : op.on d = none := by
  cases d with
  | f64 | f32 => cases hd
  | i64 | bool => cases op <;> first | rfl | cases hop

namespace Op

/-- Whether the operation is carried out in the preferred type: it is a quotient, a power or a
transcendental function, and no operand is a float. -/
def needsFloat (op : Op) (operands : List DType) : Bool :=
  match op with
  | binary .div | binary .pow => !operands.any DType.isFloat
  | unary u => u.isTranscendental && !operands.any DType.isFloat
  | _ => false

/-- Floats have a float in common with everything. -/
theorem isFloat_commonDType (preferred : DType) {first t : TensorType} {rest : List TensorType}
    (ht : t ∈ first :: rest) (hfloat : t.dtype.isFloat = true) :
    (commonDType preferred first rest).isFloat = true := by
  have hfoldl : ∀ (ts : List TensorType) (d : DType),
      (ts.foldl (fun acc t => DType.promote acc t.dtype preferred) d).isFloat =
        (d.isFloat || ts.any fun t => t.dtype.isFloat) := by
    intro ts
    induction ts with
    | nil => simp
    | cons t ts ih => simp [ih, DType.isFloat_promote, Bool.or_assoc]
  rw [commonDType, hfoldl]
  rcases List.mem_cons.1 ht with rfl | ht
  · rw [hfloat, Bool.true_or]
  · rw [List.any_eq_true.2 ⟨t, ht, hfloat⟩, Bool.or_true]

theorem isFloat_of_needsFloat_eq_false {b : BinaryOp} (hb : b = .div ∨ b = .pow) {x y : DType}
    (h : (binary b).needsFloat [x, y] = false) (preferred : DType) :
    (DType.promote x y preferred).isFloat = true := by
  rw [DType.isFloat_promote]
  rcases hb with rfl | rfl <;> simpa [needsFloat, or_iff_not_imp_left] using h

theorem unaryDType_of_needsFloat_eq_false {u : UnaryOp} {x preferred : DType}
    (h : (unary u).needsFloat [x] = false) :
    unaryDType u x preferred = unaryDType u x .f32 := by
  have hfloat : u.isTranscendental = true → x.isFloat = true := by
    simpa [needsFloat] using h
  cases u with
  | neg | abs | floor | ceil | not => rfl
  | _ => simp only [unaryDType, DType.floatOr_of_isFloat (hfloat rfl)]

section
variable {preferred : DType} (hpreferred : preferred.isFloat = false)
include hpreferred

theorem binaryDType_of_isFloat_eq_false {b : BinaryOp} {x y : DType}
    (h : (binary b).needsFloat [x, y] = false) :
    binaryDType b x y preferred = binaryDType b x y .f32 := by
  have hpromote := DType.promote_of_isFloat_eq_false (a := x) (b := y) hpreferred
  cases b with
  | div | pow =>
    have hfloat := isFloat_of_needsFloat_eq_false (by simp) h .f32
    show DType.floatOr _ _ = DType.floatOr _ _
    rw [hpromote, DType.floatOr_of_isFloat hfloat, DType.floatOr_of_isFloat hfloat]
  | _ => simp [binaryDType, BinaryOp.kind, hpromote]

theorem commonDType_of_isFloat_eq_false (first : TensorType) (rest : List TensorType) :
    commonDType preferred first rest = commonDType .f32 first rest := by
  simp only [commonDType, DType.promote_of_isFloat_eq_false hpreferred]

/-- Where no float is needed, a preference that is no float acts as the narrow float, norms
apart, which are computed in double precision and converted to the preferred type. -/
theorem infer_of_isFloat_eq_false {op : Op} {types : List TensorType} {out : TensorType}
    (hneeds : op.needsFloat (types.map TensorType.dtype) = false)
    (hnorm : ∀ order, op ≠ norm order) (h : op.infer types preferred = .ok out) :
    op.infer types .f32 = .ok out := by
  have hcount := fun k => length_of_infer (k := k) h
  rw [← h]
  cases op with
  | binary b =>
    obtain ⟨x, y, rfl⟩ := List.length_eq_two.1 (hcount 2 rfl)
    simp only [infer, binaryDType_of_isFloat_eq_false hpreferred hneeds]
  | unary u =>
    obtain ⟨x, rfl⟩ := List.length_eq_one_iff.1 (hcount 1 rfl)
    simp only [infer, unaryDType_of_needsFloat_eq_false hneeds]
  | choose =>
    obtain ⟨c, x, y, rfl⟩ := List.length_eq_three.1 (hcount 3 rfl)
    simp only [infer, DType.promote_of_isFloat_eq_false hpreferred]
  | matmul | cross =>
    obtain ⟨x, y, rfl⟩ := List.length_eq_two.1 (hcount 2 rfl)
    simp only [infer, DType.promote_of_isFloat_eq_false hpreferred]
  | concat | stack =>
    cases types with
    | nil => cases h
    | cons x rest => simp only [infer, commonDType_of_isFloat_eq_false hpreferred]
  | cast | transpose | slice | sum =>
    obtain ⟨x, rfl⟩ := List.length_eq_one_iff.1 (hcount 1 rfl)
    rfl
  | norm order => exact absurd rfl (hnorm order)

end

theorem evalBinary_eq_error {op : BinaryOp} {x y : Tensor} {out : TensorType}
    (hk : op.kind = .arithmetic) (h : op.on out.dtype = none) :
    evalBinary op x y out = .error (.invalidInput op.name) := by
  simp only [evalBinary, hk, h]

theorem evalUnary_eq_error {op : UnaryOp} {x : Tensor} {out : TensorType}
    (h : op.on out.dtype = none) : evalUnary op x out = .error (.invalidInput op.name) := by
  simp only [evalUnary, h]

variable {op : Op} {args : List Tensor} {preferred : DType} {out : TensorType}

/-- What is to be carried out in a type that is no float is refused. -/
theorem eval_of_needsFloat [FloatProduct] (hneeds : op.needsFloat (args.map Tensor.dtype) = true)
    (hpreferred : preferred.isFloat = false)
    (hinfer : op.infer (args.map Tensor.type) preferred = .ok out) :
    op.eval args out = .error (.invalidInput op.name) := by
  have hcount : ∀ k, op.operandCount? = some k → args.length = k := fun k hk => by
    simpa using length_of_infer hinfer hk
  cases op with
  | binary b =>
    obtain ⟨x, y, rfl⟩ := List.length_eq_two.1 (hcount 2 rfl)
    obtain ⟨s, -, rfl⟩ := infer_binary_eq_ok hinfer
    have hop : b = .div ∨ b = .pow := by
      cases b <;> first | exact .inl rfl | exact .inr rfl | cases hneeds
    have hpromote : (DType.promote x.dtype y.dtype preferred).isFloat = false := by
      rw [DType.isFloat_promote]
      rcases hop with rfl | rfl <;> simpa [needsFloat] using hneeds
    have hdtype : binaryDType b x.dtype y.dtype preferred = preferred := by
      rcases hop with rfl | rfl <;> exact DType.floatOr_of_isFloat_eq_false hpromote
    have hnone := BinaryOp.on_eq_none hop ((congrArg DType.isFloat hdtype).trans hpreferred)
    refine evalBinary_eq_error ?_ hnone
    rcases hop with rfl | rfl <;> rfl
  | unary u =>
    obtain ⟨x, rfl⟩ := List.length_eq_one_iff.1 (hcount 1 rfl)
    cases hinfer
    obtain ⟨hu, hx⟩ : u.isTranscendental = true ∧ x.dtype.isFloat = false := by
      simpa [needsFloat] using hneeds
    have hdtype : unaryDType u x.dtype preferred = preferred := by
      cases u <;> first | exact DType.floatOr_of_isFloat_eq_false hx | cases hu
    have hnone := UnaryOp.on_eq_none hu ((congrArg DType.isFloat hdtype).trans hpreferred)
    exact evalUnary_eq_error hnone
  | _ => cases hneeds

/-- Where no float is needed, there is a value whatever type is preferred. -/
theorem exists_eval_of_needsFloat_eq_false [FloatProduct]
    (hneeds : op.needsFloat (args.map Tensor.dtype) = false) (hout : out.shape.addressable = true)
    (hinfer : op.infer (args.map Tensor.type) preferred = .ok out) :
    ∃ v, op.eval args out = .ok v ∧ v.type = out := by
  cases hpreferred : preferred.isFloat with
  | true => exact exists_eval hpreferred hout hinfer
  | false =>
    have hneeds : op.needsFloat ((args.map Tensor.type).map TensorType.dtype) = false := by
      rwa [List.map_map]
    by_cases hnorm : ∀ order, op ≠ norm order
    · -- Another preference leads to the same type, and this one is a float.
      have hnarrow := infer_of_isFloat_eq_false hpreferred hneeds hnorm hinfer
      exact exists_eval (show DType.f32.isFloat = true from rfl) hout hnarrow
    · obtain ⟨order, rfl⟩ : ∃ order, op = norm order := by simpa using hnorm
      obtain ⟨x, rfl⟩ := List.length_eq_one_iff.1 (by simpa using length_of_infer hinfer rfl)
      obtain rfl := infer_norm_eq_ok hinfer
      exact ⟨_, rfl, rfl⟩

/-- What inference accepts has a value of the inferred type, exactly when the preferred type is
a float or the operation does not need one; otherwise evaluation refuses it. -/
theorem eval_of_infer [FloatProduct] (hinfer : op.infer (args.map Tensor.type) preferred = .ok out)
    (hout : out.shape.addressable = true) :
    ((op.needsFloat (args.map Tensor.dtype) = true → preferred.isFloat = true) →
      ∃ v, op.eval args out = .ok v ∧ v.type = out) ∧
    (op.needsFloat (args.map Tensor.dtype) = true → preferred.isFloat = false →
      op.eval args out = .error (.invalidInput op.name)) := by
  refine ⟨fun h => ?_, fun hneeds hpreferred => eval_of_needsFloat hneeds hpreferred hinfer⟩
  cases hneeds : op.needsFloat (args.map Tensor.dtype) with
  | true => exact exists_eval (h hneeds) hout hinfer
  | false => exact exists_eval_of_needsFloat_eq_false hneeds hout hinfer

/-- Integers are preferred: a norm of integers has an integer value, and their square roots
have none. -/
theorem eval_of_infer_integers :
    (∃ v, (norm .one).eval [.vector .i64 [-3, 4]] (.scalar .i64) = .ok v ∧
      v.type = .scalar .i64) ∧
    (unary .sqrt).eval [.vector .i64 [4, 9]] ⟨[2], .i64⟩ = .error (.invalidInput "Sqrt") := by
  have hnorm : (norm .one).infer ([.vector .i64 [-3, 4]].map Tensor.type) .i64 =
      .ok (.scalar .i64) := rfl
  have hsqrt : (unary .sqrt).infer ([.vector .i64 [4, 9]].map Tensor.type) .i64 =
      .ok ⟨[2], .i64⟩ := rfl
  exact ⟨(eval_of_infer hnorm rfl).1 nofun, (eval_of_infer hsqrt rfl).2 rfl rfl⟩

/-- Integers are preferred: inference gives the quotients of no integers a type, and they have no
value. -/
theorem not_exists_eval_div :
    ¬ ∀ (op : Op) (args : List Tensor) (preferred : DType) (out : TensorType),
      op.infer (args.map Tensor.type) preferred = .ok out → out.shape.addressable = true →
      ∃ v, op.eval args out = .ok v ∧ v.type = out := by
  intro h
  obtain ⟨v, hv, -⟩ := h (binary .div) [.vector .i64 [], .vector .i64 []] .i64 ⟨[0], .i64⟩ rfl rfl
  cases hv

end Op
end ArrayTrace
