import ArrayTrace.Proofs.Products

/-!
# Operations have values of the inferred types

An operation that applies to the types of its operands has a value, and the value is of the
inferred type, provided that the result can be addressed and that integers turn into a
floating-point type. So does an assignment whose value broadcasts to the selected part.
-/

namespace ArrayTrace

/-! ## Broadcasting -/

namespace Shape
variable {s out : Shape} {shapes : List Shape}

/-- Merged lengths are the common length or 1. -/
theorem merged_of_foldlM {ds : List Nat} {c e : Nat} (h : ds.foldlM mergeDim c = some e) :
    (c = e ∨ c = 1) ∧ ∀ d ∈ ds, d = e ∨ d = 1 := by
  induction ds generalizing c with
  | nil => exact ⟨.inl (Option.some.inj h), nofun⟩
  | cons d ds ih =>
    obtain ⟨c', hc', hrest⟩ := Option.bind_eq_some_iff.1 h
    obtain ⟨hcommon, hds⟩ := ih hrest
    simp only [mergeDim] at hc'
    rw [List.forall_mem_cons]
    split at hc'
    · cases hc'
      exact ⟨hcommon, .inr ‹_›, hds⟩
    · split at hc'
      · cases hc'
        refine ⟨?_, hcommon, hds⟩
        rename_i hone
        rcases hone with rfl | rfl
        · exact .inr rfl
        · exact hcommon
      · cases hc'

/-- Shapes spread to the shape they broadcast to. -/
theorem spreadsTo_of_broadcast? (h : broadcast? shapes = some out) (hs : s ∈ shapes) :
    s.spreadsTo out = true := by
  rw [broadcast?] at h
  split at h
  · cases h
  · rename_i rank hrank
    rw [mapM_eq_some] at h
    obtain ⟨-, hmax⟩ := List.max?_eq_some_iff.1 hrank
    have hle : s.length ≤ rank := hmax _ (List.mem_map_of_mem hs)
    have hlen : out.length = rank := by simpa using h.length_eq.symm
    rw [spreadsTo, hlen, Bool.and_eq_true, decide_eq_true_eq, List.all_eq_true]
    refine ⟨hle, fun p hp => ?_⟩
    obtain ⟨j, hj⟩ := List.mem_iff_getElem?.1 hp
    obtain ⟨hd, he⟩ := List.getElem?_zip_eq_some.1 hj
    rw [List.getElem?_drop] at he
    obtain ⟨hjs, hd⟩ := List.getElem?_eq_some_iff.1 hd
    obtain ⟨hjo, he⟩ := List.getElem?_eq_some_iff.1 he
    have hfold := (List.forall₂_iff_get.1 h).2 (rank - s.length + j) (by simp; omega) hjo
    have haligned : alignedDim rank (rank - s.length + j) s = p.1 := by
      have hindex : rank - s.length + j + s.length - rank = j := by omega
      rw [alignedDim, if_neg (by omega), hindex, List.getD_eq_getElem?_getD,
        List.getElem?_eq_getElem hjs, hd, Option.getD_some]
    have hmem : p.1 ∈ shapes.map (alignedDim rank (rank - s.length + j)) :=
      haligned ▸ List.mem_map_of_mem hs
    simp only [List.get_eq_getElem, List.getElem_range, he] at hfold
    simpa using (merged_of_foldlM hfold).2 _ hmem

/-- Arrays with shorter axes can be addressed as well. -/
theorem addressable_of_le (h : List.Forall₂ (· ≤ ·) s out) (hout : out.addressable = true) :
    s.addressable = true := by
  have hsize : size (s.filter (· ≠ 0)) ≤ size (out.filter (· ≠ 0)) := by
    clear hout
    induction h with
    | nil => exact Nat.le_refl _
    | @cons d e s out hde _ ih =>
      by_cases he : e = 0
      · obtain rfl : d = 0 := Nat.le_zero.1 (he ▸ hde)
        simpa [he] using ih
      · rw [List.filter_cons_of_pos (l := out) (by simpa using he), size_cons]
        by_cases hd : d = 0
        · rw [List.filter_cons_of_neg (by simpa using hd)]
          exact Nat.le_trans ih (Nat.le_mul_of_pos_left _ (Nat.pos_of_ne_zero he))
        · rw [List.filter_cons_of_pos (by simpa using hd), size_cons]
          exact Nat.mul_le_mul hde ih
  rw [addressable, decide_eq_true_eq] at hout ⊢
  exact Nat.le_trans hsize hout

/-- Selected parts of addressable arrays can be addressed. -/
theorem addressable_of_fits {w : Window} (h : w.Fits s) (hs : s.addressable = true) :
    w.shape.addressable = true := by
  have hdims : List.Forall₂ (· ≤ ·) (Region.dims w.region) s := by
    rw [Region.dims, Window.region, List.map_map, List.forall₂_map_left_iff]
    exact h.imp fun a d ha => Nat.le_trans (Nat.sub_le _ _) ha.stop_le
  rw [← h.addressable_dims]
  exact addressable_of_le hdims hs

end Shape

namespace NDArray
variable {α β γ : Type} [Inhabited α] [Inhabited β] {a : NDArray α} {b : NDArray β} {s : Shape}

theorem spread_eq_ok (h : a.shape.spreadsTo s = true) (hs : s.addressable = true) :
    a.spread s = .ok (a.broadcastTo s) :=
  if_pos ⟨h, hs⟩

theorem zipSpread_eq_ok (f : α → β → γ) (ha : a.shape.spreadsTo s = true)
    (hb : b.shape.spreadsTo s = true) (hs : s.addressable = true) :
    a.zipSpread f b s = .ok ((a.broadcastTo s).zipWith f (b.broadcastTo s)) := by
  rw [zipSpread, spread_eq_ok ha hs, spread_eq_ok hb hs]
  rfl

end NDArray

/-- A value that broadcasts to the selected part can be assigned to it. -/
theorem Tensor.exists_assign {x y : Tensor} {w : Window} (hw : w.Fits x.shape)
    (hx : x.shape.addressable = true) (hy : y.shape.spreadsTo w.shape = true) :
    ∃ z, x.assign w y = .ok z ∧ z.type = x.type := by
  have hs := Shape.addressable_of_fits hw hx
  refine ⟨⟨x.dtype, x.array.assign w ((y.as x.dtype).broadcastTo w.shape)⟩, ?_, rfl⟩
  exact (assign_eq_ok_iff hw).2 ⟨_, NDArray.spread_eq_ok (a := y.as x.dtype) hy hs, rfl⟩

/-! ## Scalar functions -/

theorem DType.isFloat_floatOr {d preferred : DType} (h : preferred.isFloat = true) :
    (d.floatOr preferred).isFloat = true := by
  cases d <;> first | exact h | rfl

theorem DType.compare_comparison (a b : DType) :
    DType.comparison a b = .f64 ∨ DType.comparison a b = .i64 := by
  rw [comparison]
  split
  · exact .inl rfl
  · exact .inr rfl

/-- Arithmetic is available at the type of its result. -/
theorem BinaryOp.exists_on {op : BinaryOp} (hk : op.kind = .arithmetic) {a b preferred : DType}
    (h : preferred.isFloat = true) :
    ∃ f, op.on (Op.binaryDType op a b preferred) = some f := by
  have hfloat : ∀ d : DType, d.isFloat = true → ∃ f, op.on d = some f := by
    intro d hd
    cases d with
    | f64 => cases op <;> first | exact ⟨_, rfl⟩ | cases hk
    | f32 => cases op <;> first | exact ⟨_, rfl⟩ | cases hk
    | _ => cases hd
  simp only [Op.binaryDType]
  generalize DType.promote a b preferred = d
  cases op with
  | div => exact hfloat _ (DType.isFloat_floatOr h)
  | pow => exact hfloat _ (DType.isFloat_floatOr h)
  | add | sub | mul | modulo | max | min => cases d <;> exact ⟨_, rfl⟩
  | _ => cases hk

theorem BinaryOp.exists_compare {op : BinaryOp} (hk : op.kind = .comparison) (a b : DType) :
    ∃ f, op.compare (DType.comparison a b) = some f := by
  rcases DType.compare_comparison a b with h | h <;> rw [h] <;> cases op <;>
    first | exact ⟨_, rfl⟩ | cases hk

theorem BinaryOp.exists_logic {op : BinaryOp} (hk : op.kind = .logical) :
    ∃ f, op.logic = some f := by
  cases op <;> first | exact ⟨_, rfl⟩ | cases hk

/-- A unary function is available at the type of its result. -/
theorem UnaryOp.exists_on (op : UnaryOp) (d : DType) {preferred : DType}
    (h : preferred.isFloat = true) : ∃ f, op.on (Op.unaryDType op d preferred) = some f := by
  cases op with
  | not => exact ⟨_, rfl⟩
  | neg | abs => cases d <;> exact ⟨_, rfl⟩
  | floor | ceil => cases d <;> exact ⟨_, rfl⟩
  | _ =>
    have hfloat := DType.isFloat_floatOr (d := d) h
    simp only [Op.unaryDType]
    cases hd : d.floatOr preferred with
    | f64 => exact ⟨_, rfl⟩
    | f32 => exact ⟨_, rfl⟩
    | _ => simp [hd, DType.isFloat] at hfloat

/-! ## Operations -/

namespace Op

/-- How many operands an operation takes, where that is fixed. -/
def operandCount? : Op → Option Nat
  | .binary _ | .matmul | .cross => some 2
  | .choose => some 3
  | .unary _ | .cast _ | .transpose | .slice _ | .sum | .norm _ => some 1
  | .concat _ | .stack => none

theorem length_of_infer {op : Op} {types : List TensorType} {preferred : DType}
    {type : TensorType} (h : op.infer types preferred = .ok type) {k : Nat}
    (hk : op.operandCount? = some k) : types.length = k := by
  cases op <;> simp only [operandCount?, Option.some.injEq, reduceCtorEq] at hk <;> subst hk <;>
    rcases types with _ | ⟨x, _ | ⟨y, _ | ⟨z, _ | ⟨u, rest⟩⟩⟩⟩ <;>
    first
      | rfl
      | simp [infer] at h

section
variable {x y c out : TensorType} {rest : List TensorType} {preferred : DType}

theorem infer_binary_eq_ok {op : BinaryOp} (h : (binary op).infer [x, y] preferred = .ok out) :
    ∃ s, Shape.broadcast? [x.shape, y.shape] = some s ∧
      out = ⟨s, binaryDType op x.dtype y.dtype preferred⟩ := by
  unfold infer at h
  dsimp only at h
  split at h <;> cases h
  exact ⟨_, ‹_›, rfl⟩

theorem infer_choose_eq_ok (h : choose.infer [c, x, y] preferred = .ok out) :
    ∃ s, Shape.broadcast? [c.shape, x.shape, y.shape] = some s ∧
      out = ⟨s, DType.promote x.dtype y.dtype preferred⟩ := by
  unfold infer at h
  dsimp only at h
  split at h <;> cases h
  exact ⟨_, ‹_›, rfl⟩

theorem infer_matmul_eq_ok (h : matmul.infer [x, y] preferred = .ok out) :
    ∃ s, matmulShape x.shape y.shape = .ok s ∧
      out = ⟨s, (DType.promote x.dtype y.dtype preferred).arithmetic⟩ := by
  obtain ⟨s, hs, h⟩ := Except.bind_eq_ok.1 h
  exact ⟨s, hs, (Except.ok.inj h).symm⟩

theorem infer_cross_eq_ok (h : cross.infer [x, y] preferred = .ok out) :
    x.shape = [3] ∧ y.shape = [3] ∧
      out = ⟨[3], (DType.promote x.dtype y.dtype preferred).arithmetic⟩ := by
  unfold infer at h
  dsimp only at h
  split at h <;> cases h
  rename_i hshapes
  exact ⟨hshapes.1, hshapes.2, rfl⟩

theorem infer_transpose_eq_ok (h : transpose.infer [x] preferred = .ok out) :
    out = ⟨x.shape.reverse, x.dtype⟩ := by
  unfold infer at h
  dsimp only at h
  split at h <;> cases h
  rfl

theorem infer_slice_eq_ok {selection : Selection}
    (h : (slice selection).infer [x] preferred = .ok out) :
    ∃ w, selection.resolve x.shape = .ok w ∧ out = ⟨w.shape, x.dtype⟩ := by
  unfold infer at h
  dsimp only at h
  split at h <;> cases h
  exact ⟨_, ‹_›, rfl⟩

theorem infer_concat_eq_ok {axis : Nat}
    (h : (concat axis).infer (x :: rest) preferred = .ok out) :
    ∃ s, concatShape axis x.shape ((x :: rest).map TensorType.shape) = .ok s ∧
      out = ⟨s, commonDType preferred x rest⟩ := by
  obtain ⟨s, hs, h⟩ := Except.bind_eq_ok.1 h
  exact ⟨s, hs, (Except.ok.inj h).symm⟩

theorem infer_stack_eq_ok (h : stack.infer (x :: rest) preferred = .ok out) :
    (∀ z ∈ rest, z.shape = x.shape) ∧
      out = ⟨(rest.length + 1) :: x.shape, commonDType preferred x rest⟩ := by
  unfold infer at h
  dsimp only at h
  split at h <;> cases h
  rename_i hnone
  refine ⟨fun z hz => ?_, rfl⟩
  have := List.find?_eq_none.1 hnone z hz
  rwa [decide_eq_true_eq, not_not] at this

theorem infer_norm_eq_ok {order : NormOrder} (h : (norm order).infer [x] preferred = .ok out) :
    out = .scalar (x.dtype.floatOr preferred) := by
  unfold infer at h
  dsimp only at h
  split at h
  · cases h
  · split at h <;> cases h
    rfl

end

variable {x y c : Tensor} {preferred : DType} {out : TensorType} {s : Shape}

section
variable (hs : s.addressable = true)
include hs

theorem exists_evalBinary {op : BinaryOp} (hfloat : preferred.isFloat = true)
    (h : Shape.broadcast? [x.shape, y.shape] = some s) :
    ∃ v, evalBinary op x y ⟨s, binaryDType op x.dtype y.dtype preferred⟩ = .ok v ∧
      v.type = ⟨s, binaryDType op x.dtype y.dtype preferred⟩ := by
  have hx : x.shape.spreadsTo s = true := Shape.spreadsTo_of_broadcast? h (by simp)
  have hy : y.shape.spreadsTo s = true := Shape.spreadsTo_of_broadcast? h (by simp)
  rw [evalBinary]
  cases hk : op.kind with
  | arithmetic =>
    obtain ⟨f, hf⟩ := BinaryOp.exists_on (a := x.dtype) (b := y.dtype) hk hfloat
    simp only [hf]
    rw [NDArray.zipSpread_eq_ok f hx hy hs]
    exact ⟨_, rfl, rfl⟩
  | comparison =>
    obtain ⟨f, hf⟩ := BinaryOp.exists_compare hk x.dtype y.dtype
    have hbool : binaryDType op x.dtype y.dtype preferred = .bool := by simp [binaryDType, hk]
    simp only [hf]
    rw [NDArray.zipSpread_eq_ok f hx hy hs, hbool]
    exact ⟨_, rfl, rfl⟩
  | logical =>
    obtain ⟨f, hf⟩ := BinaryOp.exists_logic hk
    have hbool : binaryDType op x.dtype y.dtype preferred = .bool := by simp [binaryDType, hk]
    simp only [hf]
    rw [NDArray.zipSpread_eq_ok f hx hy hs, hbool]
    exact ⟨_, rfl, rfl⟩

theorem exists_evalChoose {d : DType} (h : Shape.broadcast? [c.shape, x.shape, y.shape] = some s) :
    ∃ v, evalChoose c x y ⟨s, d⟩ = .ok v ∧ v.type = ⟨s, d⟩ := by
  have hc : (c.as .bool).shape.spreadsTo s = true := Shape.spreadsTo_of_broadcast? h (by simp)
  have hx : (x.as d).shape.spreadsTo s = true := Shape.spreadsTo_of_broadcast? h (by simp)
  have hy : (y.as d).shape.spreadsTo s = true := Shape.spreadsTo_of_broadcast? h (by simp)
  rw [evalChoose, NDArray.spread_eq_ok hc hs, NDArray.spread_eq_ok hx hs,
    NDArray.spread_eq_ok hy hs]
  exact ⟨_, rfl, rfl⟩

end

theorem exists_evalUnary {op : UnaryOp} (hfloat : preferred.isFloat = true) :
    ∃ v, evalUnary op x ⟨x.shape, unaryDType op x.dtype preferred⟩ = .ok v ∧
      v.type = ⟨x.shape, unaryDType op x.dtype preferred⟩ := by
  obtain ⟨f, hf⟩ := UnaryOp.exists_on op x.dtype hfloat
  simp only [evalUnary, hf]
  exact ⟨_, rfl, rfl⟩

theorem floatProduct_eq_ok {α : Type} [Inhabited α] {a b : NDArray α}
    (routine : NDArray α → NDArray α → List Nat → α) (hs : s.addressable = true)
    (h : matmulShape a.shape b.shape = .ok s) :
    floatProduct routine a b = .ok (.ofFn s (routine a b)) := by
  obtain ⟨_, _, _, -, -, -, -, -, ha, hb⟩ := of_matmulShape h
  rw [floatProduct, if_neg (by rw [not_or, not_not, not_not]; exact ⟨ha, hb⟩), h]
  exact if_pos hs

theorem exists_evalMatmul [FloatProduct] {d : DType} (hd : d ≠ .bool)
    (hs : s.addressable = true) (h : matmulShape x.shape y.shape = .ok s) :
    ∃ v, evalMatmul x y d = .ok v ∧ v.type = ⟨s, d⟩ := by
  cases d with
  | bool => exact absurd rfl hd
  | i64 =>
    have hok := (integerProduct_eq_ok_iff (a := x.as .i64) (b := y.as .i64) h).2 ⟨hs, rfl⟩
    obtain ⟨_, _, _, ha, hb, rfl, -⟩ := of_matmulShape h
    refine ⟨⟨.i64, NDArray.dot 0 (x.as .i64) (y.as .i64)⟩, ?_, ?_⟩
    · rw [evalMatmul, hok]
      rfl
    · exact congrArg (TensorType.mk · .i64) (NDArray.shape_dot ha hb)
  | f64 | f32 =>
    rw [evalMatmul, floatProduct_eq_ok _ hs h]
    exact ⟨_, rfl, rfl⟩

theorem crossOf_eq_some {α : Type} [Sub α] [Mul α] {as bs : List α} (ha : as.length = 3)
    (hb : bs.length = 3) : ∃ cs, crossOf as bs = some cs ∧ cs.length = 3 := by
  obtain ⟨a0, a1, a2, rfl⟩ := List.length_eq_three.1 ha
  obtain ⟨b0, b1, b2, rfl⟩ := List.length_eq_three.1 hb
  exact ⟨_, rfl, rfl⟩

theorem exists_evalCross {d : DType} (hd : d ≠ .bool) (hx : x.shape = [3])
    (hy : y.shape = [3]) : ∃ v, evalCross x y d = .ok v ∧ v.type = ⟨[3], d⟩ := by
  have hlen : ∀ (z : Tensor) (d : DType), z.shape = [3] → (z.as d).data.length = 3 := by
    intro z d hz
    have hshape : (z.as d).shape = [3] := hz
    rw [(z.as d).length_data, hshape]
    rfl
  have hvector : ∀ (d : DType) (cs : List d.Elem), cs.length = 3 →
      (Tensor.vector d cs).type = ⟨[3], d⟩ := by
    intro d cs hcs
    simp [Tensor.type, Tensor.vector, Tensor.shape, NDArray.vector, hcs]
  cases d with
  | bool => exact absurd rfl hd
  | f64 =>
    obtain ⟨cs, hcs, hthree⟩ := crossOf_eq_some (hlen x .f64 hx) (hlen y .f64 hy)
    exact ⟨.vector .f64 cs, by simp [evalCross, hcs], hvector _ _ hthree⟩
  | f32 =>
    obtain ⟨cs, hcs, hthree⟩ := crossOf_eq_some (hlen x .f32 hx) (hlen y .f32 hy)
    exact ⟨.vector .f32 cs, by simp [evalCross, hcs], hvector _ _ hthree⟩
  | i64 =>
    obtain ⟨cs, hcs, hthree⟩ := crossOf_eq_some (hlen x .i64 hx) (hlen y .i64 hy)
    exact ⟨.vector .i64 cs, by simp [evalCross, hcs], hvector _ _ hthree⟩

/-- Parts that can be joined along an axis agree on all other axes. -/
theorem set_eq_of_checkPart {axis : Nat} {first part : Shape}
    (h : checkPart axis first part = .ok ()) :
    part.length = first.length ∧ part.set axis 0 = first.set axis 0 := by
  rw [checkPart] at h
  split at h
  · cases h
  · rename_i hlen
    rw [not_not] at hlen
    split at h
    · cases h
    · rename_i hnone
      refine ⟨hlen, List.ext_getElem? fun i => ?_⟩
      rw [List.getElem?_set, List.getElem?_set, hlen]
      by_cases hi : axis = i
      · rw [if_pos hi, if_pos hi]
      · rw [if_neg hi, if_neg hi]
        by_cases hlt : i < first.length
        · have := List.find?_eq_none.1 hnone i (List.mem_range.2 hlt)
          simp only [decide_eq_true_eq, not_and, not_not] at this
          exact (this (Ne.symm hi)).symm
        · rw [List.getElem?_eq_none (by omega), List.getElem?_eq_none (by omega)]

theorem exists_concat {α : Type} [Inhabited α] {axis : Nat} {first : NDArray α}
    {rest : List (NDArray α)} (hs : s.addressable = true)
    (h : concatShape axis first.shape ((first :: rest).map NDArray.shape) = .ok s) :
    ∃ r, NDArray.concat axis (first :: rest) = .ok r ∧ r.shape = s := by
  simp only [concatShape] at h
  obtain ⟨hrank, h⟩ := Except.unless_eq_ok.1 h
  obtain ⟨haxis, h⟩ := Except.unless_eq_ok.1 h
  obtain ⟨_, hparts, h⟩ := Except.bind_eq_ok.1 h
  cases h
  rw [Except.forM_eq_ok] at hparts
  have hany : ((first :: rest).any fun a => a.shape.length ≠ first.shape.length
      ∨ a.shape.set axis 0 ≠ first.shape.set axis 0) = false := by
    rw [List.any_eq_false]
    intro a ha
    obtain ⟨hlen, hset⟩ := set_eq_of_checkPart (hparts _ (List.mem_map_of_mem ha))
    simp [hlen, hset]
  rw [NDArray.concat, if_neg haxis, if_neg (by rw [hany]; exact Bool.false_ne_true)]
  simp only [hs, if_true]
  exact ⟨_, rfl, rfl⟩

theorem exists_stack {α : Type} [Inhabited α] {first : NDArray α} {rest : List (NDArray α)}
    (h : ∀ a ∈ rest, a.shape = first.shape)
    (hs : Shape.addressable ((rest.length + 1) :: first.shape) = true) :
    ∃ r, NDArray.stack (first :: rest) = .ok r ∧ r.shape = (rest.length + 1) :: first.shape := by
  have hany : ((first :: rest).any fun a => a.shape ≠ first.shape) = false := by
    simpa using h
  rw [NDArray.stack, if_neg (by simpa using hany)]
  simp only [List.length_cons, hs, if_true]
  exact ⟨_, rfl, rfl⟩

theorem exists_evalConcat [FloatProduct] {axis : Nat} {d : DType} {rest : List Tensor}
    (hs : s.addressable = true)
    (h : concatShape axis x.shape ((x :: rest).map Tensor.shape) = .ok s) :
    ∃ v, (concat axis).eval (x :: rest) ⟨s, d⟩ = .ok v ∧ v.type = ⟨s, d⟩ := by
  have hshapes : (x.as d :: rest.map fun z => z.as d).map NDArray.shape =
      (x :: rest).map Tensor.shape := by
    simp [Function.comp_def]
  rw [← hshapes] at h
  obtain ⟨r, hr, rfl⟩ := exists_concat hs (show concatShape axis (x.as d).shape _ = _ from h)
  refine ⟨⟨d, r⟩, ?_, rfl⟩
  simp only [eval, List.map_cons, hr]
  rfl

theorem exists_evalStack [FloatProduct] {d : DType} {rest : List Tensor}
    (h : ∀ z ∈ rest, z.shape = x.shape)
    (hs : Shape.addressable ((rest.length + 1) :: x.shape) = true) :
    ∃ v, stack.eval (x :: rest) ⟨(rest.length + 1) :: x.shape, d⟩ = .ok v ∧
      v.type = ⟨(rest.length + 1) :: x.shape, d⟩ := by
  have hshapes : ∀ a ∈ rest.map fun z => z.as d, a.shape = (x.as d).shape := by
    intro a ha
    obtain ⟨z, hz, rfl⟩ := List.mem_map.1 ha
    exact h z hz
  obtain ⟨r, hr, hshape⟩ := exists_stack hshapes (by simpa using hs)
  refine ⟨⟨d, r⟩, ?_, ?_⟩
  · simp only [eval, List.map_cons, hr]
    rfl
  · simpa [Tensor.type, Tensor.shape] using hshape

theorem exists_evalSum {d : DType} (hd : d ≠ .bool) :
    ∃ v, evalSum x d = .ok v ∧ v.type = .scalar d := by
  cases d with
  | bool => exact absurd rfl hd
  | _ => exact ⟨_, rfl, rfl⟩

/-- An operation has a value of the type inferred from the types of its operands. -/
theorem exists_eval [FloatProduct] {op : Op} {args : List Tensor}
    (hfloat : preferred.isFloat = true) (hout : out.shape.addressable = true)
    (h : op.infer (args.map Tensor.type) preferred = .ok out) :
    ∃ v, op.eval args out = .ok v ∧ v.type = out := by
  have hcount : ∀ k, op.operandCount? = some k → args.length = k := fun k hk => by
    simpa using length_of_infer h hk
  cases op with
  | binary b =>
    obtain ⟨x, y, rfl⟩ := List.length_eq_two.1 (hcount 2 rfl)
    obtain ⟨s, hs, rfl⟩ := infer_binary_eq_ok h
    exact exists_evalBinary hout hfloat hs
  | unary u =>
    obtain ⟨x, rfl⟩ := List.length_eq_one_iff.1 (hcount 1 rfl)
    cases h
    exact exists_evalUnary hfloat
  | cast d =>
    obtain ⟨x, rfl⟩ := List.length_eq_one_iff.1 (hcount 1 rfl)
    cases h
    exact ⟨_, rfl, rfl⟩
  | choose =>
    obtain ⟨c, x, y, rfl⟩ := List.length_eq_three.1 (hcount 3 rfl)
    obtain ⟨s, hs, rfl⟩ := infer_choose_eq_ok h
    exact exists_evalChoose hout hs
  | matmul =>
    obtain ⟨x, y, rfl⟩ := List.length_eq_two.1 (hcount 2 rfl)
    obtain ⟨s, hs, rfl⟩ := infer_matmul_eq_ok h
    exact exists_evalMatmul (DType.arithmetic_ne_bool _) hout hs
  | cross =>
    obtain ⟨x, y, rfl⟩ := List.length_eq_two.1 (hcount 2 rfl)
    obtain ⟨hx, hy, rfl⟩ := infer_cross_eq_ok h
    exact exists_evalCross (DType.arithmetic_ne_bool _) hx hy
  | transpose =>
    obtain ⟨x, rfl⟩ := List.length_eq_one_iff.1 (hcount 1 rfl)
    obtain rfl := infer_transpose_eq_ok h
    exact ⟨_, rfl, rfl⟩
  | slice selection =>
    obtain ⟨x, rfl⟩ := List.length_eq_one_iff.1 (hcount 1 rfl)
    obtain ⟨w, hw, rfl⟩ := infer_slice_eq_ok h
    have hw : selection.resolve x.shape = .ok w := hw
    refine ⟨x.extract w, ?_, x.type_extract w⟩
    simp [eval, hw, Except.mapError, bind, Except.bind, pure, Except.pure]
  | concat axis =>
    cases args with
    | nil => cases h
    | cons x rest =>
      obtain ⟨s, hs, rfl⟩ := infer_concat_eq_ok h
      rw [← List.map_cons, List.map_map] at hs
      exact exists_evalConcat hout hs
  | stack =>
    cases args with
    | nil => cases h
    | cons x rest =>
      obtain ⟨hshapes, rfl⟩ := infer_stack_eq_ok h
      rw [List.length_map] at hout ⊢
      exact exists_evalStack (fun z hz => hshapes _ (List.mem_map_of_mem hz)) hout
  | sum =>
    obtain ⟨x, rfl⟩ := List.length_eq_one_iff.1 (hcount 1 rfl)
    cases h
    exact exists_evalSum (DType.arithmetic_ne_bool _)
  | norm order =>
    obtain ⟨x, rfl⟩ := List.length_eq_one_iff.1 (hcount 1 rfl)
    obtain rfl := infer_norm_eq_ok h
    exact ⟨_, rfl, rfl⟩

end Op
end ArrayTrace
