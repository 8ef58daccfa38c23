import ArrayTrace.Proofs.Positions

/-!
# Elementwise operations, element by element

An elementwise operation on arrays applies one scalar function to each element of its
result. The function reads the operands where the result's multi-index projects to, and
converts what it reads. Projecting through a shape in between makes no difference, so it
does not matter whether an array is repeated at once or in several steps.

## Main definitions

* `Scalar` — an element together with its type.
* `Op.scalar?` — the scalar function of an elementwise operation.
-/

namespace ArrayTrace

/-! ## Projected multi-indices -/

namespace Shape
variable {r s t : Shape} {ix : List Nat}

theorem project_self (h : s.InBounds ix) : s.project ix = ix := by
  rw [project, h.length_eq, Nat.sub_self, List.drop_zero]
  induction s generalizing ix with
  | nil => exact (List.eq_nil_of_length_eq_zero h.length_eq).symm
  | cons d s ih =>
    cases ix with
    | nil => cases h
    | cons i ix =>
      rw [List.zipWith_cons_cons, ih h.2]
      congr 1
      have hlt : i < d := h.1
      split <;> omega

/-- Lengths that agree, or are 1 in the first list, read the same indices. -/
private theorem zipWith_project {ds es : List Nat}
    (h : List.Forall₂ (fun d e => d = e ∨ d = 1) ds es) (is : List Nat) :
    ds.zipWith (fun d i => if d = 1 then 0 else i)
        (es.zipWith (fun e i => if e = 1 then 0 else i) is) =
      ds.zipWith (fun d i => if d = 1 then 0 else i) is := by
  induction h generalizing is with
  | nil => rfl
  | cons hde _ ih =>
    cases is with
    | nil => rfl
    | cons i is =>
      rw [List.zipWith_cons_cons, List.zipWith_cons_cons, List.zipWith_cons_cons, ih]
      congr 1
      split
      · rfl
      · rw [if_neg (by omega)]

/-- Reading through a shape in between is reading directly. -/
theorem project_project (h : r.spreadsTo s = true) (hlen : s.length ≤ ix.length) :
    r.project (s.project ix) = r.project ix := by
  obtain ⟨pre, u, rfl, hu⟩ := spreadsTo_iff.1 h
  have hru := hu.length_eq
  rw [List.length_append] at hlen
  have hinner : ((pre ++ u).project ix).length = pre.length + u.length := by
    simp only [project, List.length_zipWith, List.length_append, List.length_drop]
    omega
  have hdrop : ((pre ++ u).project ix).drop (pre.length + u.length - r.length) =
      u.zipWith (fun e i => if e = 1 then 0 else i) (ix.drop (ix.length - r.length)) := by
    have hpre : pre.length + u.length - r.length = pre.length := by omega
    have hix : ix.length - (pre.length + u.length) + pre.length = ix.length - r.length := by
      omega
    rw [project, List.drop_zipWith, hpre, List.drop_left, List.drop_drop, List.length_append, hix]
  rw [project, hinner, hdrop, zipWith_project hu]
  rfl

end Shape

/-! ## Elements of arrays -/

namespace NDArray
variable {α β γ : Type} [Inhabited α] [Inhabited β] {a : NDArray α} {s : Shape} {ix : List Nat}

theorem get_broadcastTo (h : s.InBounds ix) :
    (a.broadcastTo s).get ix = a.get (a.shape.project ix) :=
  get_ofFn _ h

/-- Elements of two arrays combined over a common shape. -/
theorem get_zipSpread [Inhabited γ] {b : NDArray β} {f : α → β → γ} {r : NDArray γ}
    (h : a.zipSpread f b s = .ok r) :
    a.shape.spreadsTo s = true ∧ b.shape.spreadsTo s = true ∧ r.shape = s ∧
      ∀ ix, s.InBounds ix →
        r.get ix = f (a.get (a.shape.project ix)) (b.get (b.shape.project ix)) := by
  obtain ⟨x, hx, h⟩ := Except.bind_eq_ok.1 h
  obtain ⟨y, hy, h⟩ := Except.bind_eq_ok.1 h
  cases h
  obtain ⟨ha, rfl⟩ := of_spread_eq_ok hx
  obtain ⟨hb, rfl⟩ := of_spread_eq_ok hy
  refine ⟨ha, hb, rfl, fun ix hix => ?_⟩
  rw [zipWith, shape_broadcastTo, get_ofFn _ hix, get_broadcastTo hix, get_broadcastTo hix]

end NDArray

/-- An element together with its type. -/
structure Scalar where
  dtype : DType
  value : dtype.Elem

/-- The element converted to another type. -/
def Scalar.as (x : Scalar) (d : DType) : d.Elem := DType.convert x.dtype d x.value

/-- The element converted to a type, as an element of that type. -/
def Scalar.to (x : Scalar) (d : DType) : Scalar := ⟨d, x.as d⟩

theorem Scalar.to_self (x : Scalar) : x.to x.dtype = x := by
  rw [Scalar.to, Scalar.as, DType.convert_self]

/-- Type of a node. -/
def Trace.type? (t : Trace) (id : NodeId) : Option TensorType := (t.node? id).map Node.type

/-- Element type of a node. -/
def Trace.dtype? (t : Trace) (id : NodeId) : Option DType := (t.type? id).map TensorType.dtype

namespace Tensor

/-- The element at a multi-index. -/
def get (x : Tensor) (ix : List Nat) : Scalar := ⟨x.dtype, x.array.get ix⟩

/-- The element at a row-major position. -/
def element? (x : Tensor) (k : Nat) : Option Scalar := x.array.data[k]?.map (Scalar.mk x.dtype)

variable {x : Tensor} {ix : List Nat}

theorem get_as (d : DType) (h : x.shape.InBounds ix) : (x.as d).get ix = (x.get ix).as d :=
  NDArray.get_map _ _ h

theorem offset_lt (h : x.shape.InBounds ix) : x.shape.offset ix < x.array.data.length :=
  x.array.length_data.symm ▸ Shape.offset_lt h

theorem element?_offset (h : x.shape.InBounds ix) :
    x.element? (x.shape.offset ix) = some (x.get ix) := by
  have hlt : x.array.shape.offset ix < x.array.data.length := offset_lt h
  simp [element?, get, NDArray.get, List.getD_eq_getElem?_getD, shape, hlt]

theorem dtype_of_element? {k : Nat} {y : Scalar} (h : x.element? k = some y) :
    y.dtype = x.dtype := by
  obtain ⟨v, -, rfl⟩ := Option.map_eq_some_iff.1 h
  rfl

theorem element?_offset_eq {r y : Tensor} {ix js : List Nat} {f : Scalar → Scalar}
    (hix : r.shape.InBounds ix) (hjs : y.shape.InBounds js) (h : r.get ix = f (y.get js)) :
    r.element? (r.shape.offset ix) = (y.element? (y.shape.offset js)).map f := by
  rw [element?_offset hix, element?_offset hjs, h, Option.map_some]

end Tensor

/-! ## Scalar functions of operations -/

namespace Op

/-- The scalar function of an elementwise operation whose result has a type. -/
def scalar? (op : Op) (args : List Scalar) (out : DType) : Option Scalar :=
  match op, args with
  | binary b, [x, y] =>
    match b.kind with
    | .arithmetic => (b.on out).map fun f => ⟨out, f (x.as out) (y.as out)⟩
    | .comparison =>
      let d := DType.comparison x.dtype y.dtype
      (b.compare d).map fun f => ⟨.bool, f (x.as d) (y.as d)⟩
    | .logical => b.logic.map fun f => ⟨.bool, f (x.as .bool) (y.as .bool)⟩
  | unary u, [x] => (u.on out).map fun f => ⟨out, f (x.as out)⟩
  | cast d, [x] => some ⟨d, x.as d⟩
  | choose, [c, x, y] => some ⟨out, if c.as .bool then x.as out else y.as out⟩
  | _, _ => none

variable {x y c r : Tensor} {out : TensorType} {preferred : DType}

/-- The elements that an element of a result is computed from. -/
def operands (inputs : List Tensor) (ix : List Nat) : List Scalar :=
  inputs.map fun x => x.get (x.shape.project ix)

/-- The elements of a tensor are values of a scalar function, and have their type. -/
def IsElementwise (op : Op) (inputs : List Tensor) (out : TensorType) (r : Tensor) : Prop :=
  r.type = out ∧ ∀ ix, out.shape.InBounds ix →
    op.scalar? (operands inputs ix) out.dtype = some (r.get ix)

theorem get_of_zipSpread {d e : DType} {f : d.Elem → d.Elem → e.Elem} {s : Shape}
    (h : (do
      let v ← (x.as d).zipSpread f (y.as d) s
      return (⟨e, v⟩ : Tensor) : Except TensorError Tensor) = .ok r) :
    r.type = ⟨s, e⟩ ∧ ∀ ix, s.InBounds ix →
      r.get ix =
        ⟨e, f ((x.get (x.shape.project ix)).as d) ((y.get (y.shape.project ix)).as d)⟩ := by
  obtain ⟨v, hv, h⟩ := Except.bind_eq_ok.1 h
  cases h
  obtain ⟨hx, hy, rfl, hget⟩ := NDArray.get_zipSpread hv
  refine ⟨rfl, fun ix hix => ?_⟩
  rw [Tensor.get, hget ix hix]
  simp only [Tensor.shape_as]
  rw [Tensor.get_as d (hix.project hx), Tensor.get_as d (hix.project hy)]

theorem isElementwise_evalBinary {op : BinaryOp}
    (hbool : op.kind ≠ .arithmetic → out.dtype = .bool) (h : evalBinary op x y out = .ok r) :
    IsElementwise (binary op) [x, y] out r := by
  rw [evalBinary] at h
  cases hk : op.kind with
  | arithmetic =>
    simp only [hk] at h
    split at h
    · rename_i f hf
      obtain ⟨htype, hget⟩ := get_of_zipSpread (Except.mapError_eq_ok.1 h)
      exact ⟨htype, fun ix hix => by simp [scalar?, operands, hk, hf, hget ix hix]⟩
    · cases h
  | comparison =>
    simp only [hk] at h
    split at h
    · rename_i f hf
      obtain ⟨htype, hget⟩ := get_of_zipSpread (e := .bool) (f := f) (Except.mapError_eq_ok.1 h)
      refine ⟨by rw [htype, ← hbool (by simp [hk])], fun ix hix => ?_⟩
      simp only [scalar?, operands, List.map_cons, List.map_nil, hk, hget ix hix]
      exact congrArg (Option.map _) hf
    · cases h
  | logical =>
    simp only [hk] at h
    split at h
    · rename_i f hf
      obtain ⟨htype, hget⟩ :=
        get_of_zipSpread (d := .bool) (e := .bool) (f := f) (Except.mapError_eq_ok.1 h)
      refine ⟨by rw [htype, ← hbool (by simp [hk])], fun ix hix => ?_⟩
      simp [scalar?, operands, hk, hf, hget ix hix]
    · cases h

theorem isElementwise_evalUnary {op : UnaryOp} (hshape : out.shape = x.shape)
    (h : evalUnary op x out = .ok r) : IsElementwise (unary op) [x] out r := by
  rw [evalUnary] at h
  split at h <;> cases h
  rename_i f hf
  refine ⟨by rw [Tensor.type, Tensor.shape, NDArray.shape_map, Tensor.shape_as, ← hshape],
    fun ix hix => ?_⟩
  rw [hshape] at hix
  have hget : ((x.as out.dtype).map f).get ix = f ((x.get ix).as out.dtype) := by
    rw [NDArray.get_map f (x.as out.dtype) hix, Tensor.get_as _ hix]
  simp [scalar?, operands, hf, Shape.project_self hix, Tensor.get, hget]

theorem isElementwise_cast (d : DType) (hout : out = ⟨x.shape, d⟩) :
    IsElementwise (cast d) [x] out (x.cast d) := by
  subst hout
  refine ⟨rfl, fun ix hix => ?_⟩
  simp only [scalar?, operands, List.map_cons, List.map_nil, Shape.project_self hix]
  rw [← Tensor.get_as d hix]
  rfl

theorem isElementwise_evalChoose (h : evalChoose c x y out = .ok r) :
    IsElementwise choose [c, x, y] out r := by
  obtain ⟨vc, hvc, h⟩ := Except.bind_eq_ok.1 (Except.mapError_eq_ok.1 h)
  obtain ⟨vx, hvx, h⟩ := Except.bind_eq_ok.1 h
  obtain ⟨vy, hvy, h⟩ := Except.bind_eq_ok.1 h
  cases h
  obtain ⟨hc, rfl⟩ := NDArray.of_spread_eq_ok hvc
  obtain ⟨hx, rfl⟩ := NDArray.of_spread_eq_ok hvx
  obtain ⟨hy, rfl⟩ := NDArray.of_spread_eq_ok hvy
  refine ⟨rfl, fun ix hix => ?_⟩
  have hget : ∀ (z : Tensor) (d : DType), (z.as d).shape.spreadsTo out.shape = true →
      ((z.as d).broadcastTo out.shape).get ix = (z.get (z.shape.project ix)).as d := by
    intro z d hz
    rw [NDArray.get_broadcastTo hix, Tensor.shape_as, Tensor.get_as d (hix.project hz)]
  rw [Tensor.get, NDArray.get_ofFn _ hix]
  have hchosen := if_congr (iff_of_eq (congrArg (· = true) (hget c .bool hc)))
    (hget x out.dtype hx) (hget y out.dtype hy)
  exact congrArg (fun v => some (Scalar.mk out.dtype v)) hchosen.symm

/-- An elementwise operation applies its scalar function to the elements of its operands that
the multi-index projects to. -/
theorem isElementwise_eval [FloatProduct] {op : Op} {inputs : List Tensor}
    (hop : op.isElementwise = true) (hinfer : op.infer (inputs.map Tensor.type) preferred = .ok out)
    (h : op.eval inputs out = .ok r) : IsElementwise op inputs out r := by
  have hlen := fun k => length_of_infer (k := k) hinfer
  rw [List.length_map] at hlen
  cases op with
  | binary b =>
    obtain ⟨x, y, rfl⟩ := List.length_eq_two.1 (hlen 2 rfl)
    obtain ⟨s, -, rfl⟩ := infer_binary_eq_ok hinfer
    refine isElementwise_evalBinary (fun hk => ?_) h
    cases hkind : b.kind <;> simp_all [binaryDType]
  | unary u =>
    obtain ⟨x, rfl⟩ := List.length_eq_one_iff.1 (hlen 1 rfl)
    cases hinfer
    exact isElementwise_evalUnary rfl h
  | cast d =>
    obtain ⟨x, rfl⟩ := List.length_eq_one_iff.1 (hlen 1 rfl)
    cases hinfer
    cases h
    exact isElementwise_cast d rfl
  | choose =>
    obtain ⟨c, x, y, rfl⟩ := List.length_eq_three.1 (hlen 3 rfl)
    exact isElementwise_evalChoose h
  | _ => cases hop

end Op
end ArrayTrace
