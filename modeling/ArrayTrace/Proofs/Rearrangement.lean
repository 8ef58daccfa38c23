import ArrayTrace.Proofs.Confinement
import ArrayTrace.Proofs.Scalars

/-!
# Elements of rearranged arrays

Which element of its operands an operation that moves elements has at a row-major position.
Positions are those that the blocks of joined arrays and the regions of windows are counted
in, so that they can be compared with the positions that code computes.
-/

namespace ArrayTrace

namespace Shape
variable {s t : Shape} {ix js : List Nat} {o j : Nat}

/-! ## Positions in blocks -/

/-- The multi-index at a position, where one axis is singled out. -/
theorem coord_split {a d q : Nat} (ho : o < size s) (ha : a < d) (hq : q < size t) :
    coord (s ++ d :: t) (o * size (d :: t) + (a * size t + q)) = coord s o ++ a :: coord t q := by
  rw [coord_append ho (by rw [size_cons]; exact block_lt ha hq), coord_cons d hq]

/-- Multi-indices that are those of a shape with some property, each once, have their positions,
each once. -/
theorem perm_offsets {α : Type} {as : List α} {g : α → List Nat} {p : List Nat → Bool}
    (hnodup : as.Nodup) (hinj : ∀ a ∈ as, ∀ b ∈ as, g a = g b → a = b)
    (h : ∀ ix, (∃ a ∈ as, g a = ix) ↔ s.InBounds ix ∧ p ix = true) :
    (as.map fun a => s.offset (g a)).Perm ((List.range s.size).filter fun k => p (s.coord k)) := by
  have hbounds : ∀ a ∈ as, s.InBounds (g a) := fun a ha => ((h _).1 ⟨a, ha, rfl⟩).1
  have hoffset : (as.map fun a => s.offset (g a)).Nodup := by
    refine List.Nodup.map_on (fun a ha b hb he => hinj a ha b hb ?_) hnodup
    rw [← coord_offset (hbounds a ha), he, coord_offset (hbounds b hb)]
  refine (List.perm_ext_iff_of_nodup hoffset (List.nodup_range.filter _)).2 fun k => ?_
  rw [List.mem_map, List.mem_filter, List.mem_range]
  constructor
  · rintro ⟨a, ha, rfl⟩
    rw [coord_offset (hbounds a ha)]
    exact ⟨offset_lt (hbounds a ha), ((h _).1 ⟨a, ha, rfl⟩).2⟩
  · rintro ⟨hk, hp⟩
    obtain ⟨a, ha, hg⟩ := (h _).2 ⟨coord_inBounds hk, hp⟩
    exact ⟨a, ha, by rw [hg, offset_coord hk]⟩

end Shape

/-! ## Positions in windows -/

namespace Window

theorem length_shape_le (w : Window) : w.shape.length ≤ w.length := by
  rw [shape, List.length_map]
  exact List.length_filter_le _ _

namespace Fits
variable {w : Window} {s : Shape} {ix : List Nat}

theorem source_relative (h : w.Fits s) (hlen : ix.length = w.length)
    (hix : w.region.contains ix = true) : w.source (w.relative ix) = ix := by
  induction h generalizing ix with
  | nil => exact (List.eq_nil_of_length_eq_zero hlen).symm
  | @cons a d w s ha _ ih =>
    cases ix with
    | nil => cases hlen
    | cons i ix =>
      obtain ⟨hi, hrest⟩ := Region.contains_window_cons.1 hix
      have hrest := ih (Nat.succ.inj hlen) hrest
      cases hk : a.kept with
      | true =>
        have hstart : a.span.start + (i - a.span.start) = i := by omega
        simp [relative, source, hk, hrest, hstart]
      | false =>
        have hone := ha.length_of_dropped hk
        have hstart : a.span.start = i := by rw [Span.length] at hone; omega
        simp [relative, source, hk, hrest, hstart]

theorem relative_source (h : w.Fits s) (hix : w.shape.InBounds ix) :
    w.relative (w.source ix) = ix := by
  induction h generalizing ix with
  | nil => exact (List.eq_nil_of_length_eq_zero hix.length_eq).symm
  | @cons a d w s ha _ ih =>
    obtain ⟨hk, i, ix, rfl, -, hix⟩ | ⟨hk, -, hix⟩ := ha.cases_inBounds hix
    · simp [relative, source, hk, ih hix]
    · simp [relative, source, hk, ih hix]

/-- A shape that spreads to a part of it has an axis for each of the part's. -/
theorem forall₂_of_spreadsTo (h : w.Fits s) (hspreads : s.spreadsTo w.shape = true) :
    List.Forall₂ (fun d e => d = e ∨ d = 1) s w.shape := by
  obtain ⟨front, u, hshape, hu⟩ := Shape.spreadsTo_iff.1 hspreads
  have hle := w.length_shape_le
  rw [hshape, List.length_append, ← hu.length_eq, ← h.length_eq] at hle
  obtain rfl := List.eq_nil_of_length_eq_zero (show front.length = 0 by omega)
  rwa [hshape]

private theorem zipWith_relative (h : w.Fits s)
    (hs : List.Forall₂ (fun d e => d = e ∨ d = 1) s w.shape) (hlen : ix.length = w.length)
    (hix : w.region.contains ix = true) :
    s.zipWith (fun d i => if d = 1 then 0 else i) (w.relative ix) = ix := by
  induction h generalizing ix with
  | nil => exact (List.eq_nil_of_length_eq_zero hlen).symm
  | @cons a d w s ha hfits ih =>
    cases ix with
    | nil => cases hlen
    | cons i ix =>
      obtain ⟨hi, hrest⟩ := Region.contains_window_cons.1 hix
      cases hk : a.kept with
      | true =>
        rw [shape_cons, if_pos hk, List.forall₂_cons, Span.length] at hs
        obtain ⟨hd, hs⟩ := hs
        rw [relative, if_pos hk, List.zipWith_cons_cons, ih hs (Nat.succ.inj hlen) hrest]
        -- Either the part has all of the axis, or the axis has one position.
        have hstop := ha.stop_le
        congr 1
        split <;> omega
      | false =>
        have hlength := hs.length_eq
        have hle := length_shape_le w
        rw [shape_cons, hk, if_neg Bool.false_ne_true, List.length_cons,
          ← hfits.length_eq] at hlength
        omega

/-- A shape that spreads to a part of it is read where the part is written. -/
theorem project_relative (h : w.Fits s) (hspreads : s.spreadsTo w.shape = true)
    (hlen : ix.length = w.length) (hix : w.region.contains ix = true) :
    s.project (w.relative ix) = ix := by
  have hs := h.forall₂_of_spreadsTo hspreads
  rw [Shape.project, (h.inBounds_relative hlen hix).length_eq, hs.length_eq, Nat.sub_self,
    List.drop_zero]
  exact h.zipWith_relative hs hlen hix

end Fits
end Window

/-! ## Elements of joined arrays -/

namespace NDArray
variable {α : Type} [Inhabited α] {parts : List (NDArray α)} {r p : NDArray α} {axis i a : Nat}
  {pre post ix : List Nat}

theorem get_of_concat (h : concat axis parts = .ok r) (hix : r.shape.InBounds ix) :
    r.get ix = joinedGet axis parts ix := by
  rw [concat.eq_def] at h
  split at h
  · cases h
  · split at h
    · cases h
    · split at h
      · cases h
      · dsimp only at h
        split at h
        · cases h
          exact get_ofFn _ hix
        · cases h

theorem get_of_stack (h : stack parts = .ok r) (hp : parts[i]? = some p)
    (hix : r.shape.InBounds (i :: ix)) : r.get (i :: ix) = p.get ix := by
  rw [stack.eq_def] at h
  split at h
  · cases h
  · split at h
    · cases h
    · dsimp only at h
      split at h
      · cases h
        refine (get_ofFn _ hix).trans ?_
        simp [hp]
      · cases h

theorem shape_of_concat {first : NDArray α} {rest : List (NDArray α)}
    (h : concat axis (first :: rest) = .ok r) :
    r.shape = first.shape.set axis (Shape.joinedLength axis ((first :: rest).map shape)) := by
  rw [concat] at h
  split at h
  · cases h
  · split at h
    · cases h
    · dsimp only at h
      split at h
      · cases h
        rfl
      · cases h

theorem shape_of_stack {first : NDArray α} {rest : List (NDArray α)}
    (h : stack (first :: rest) = .ok r) : r.shape = (rest.length + 1) :: first.shape := by
  rw [stack] at h
  split at h
  · cases h
  · dsimp only at h
    split at h
    · cases h
      rfl
    · cases h

/-- Along the axis, a part begins where the parts before it end. -/
theorem joinedGet_of_getElem? (hp : parts[i]? = some p) (hpre : pre.length = axis)
    (ha : a < p.shape.getD axis 0) :
    joinedGet axis parts
      (pre ++ (Shape.joinedLength axis ((parts.take i).map shape) + a) :: post) =
        p.get (pre ++ a :: post) := by
  have hget : ∀ b, (pre ++ b :: post).getD axis 0 = b := by
    intro b
    subst hpre
    simp
  have hset : ∀ b c, (pre ++ b :: post).set axis c = pre ++ c :: post := by
    intro b c
    subst hpre
    simp
  induction parts generalizing i with
  | nil => simp at hp
  | cons first rest ih =>
    cases i with
    | zero =>
      obtain rfl : first = p := by simpa using hp
      simp only [joinedGet, List.take_zero, List.map_nil, Shape.joinedLength, List.foldr_nil,
        Nat.zero_add, hget, if_pos ha]
    | succ i =>
      have hjoined : Shape.joinedLength axis (((first :: rest).take (i + 1)).map shape) =
          first.shape.getD axis 0 + Shape.joinedLength axis ((rest.take i).map shape) := rfl
      rw [hjoined, joinedGet, hget, hset, if_neg (by omega)]
      have hrest := ih (i := i) (by simpa using hp)
      rw [Nat.add_assoc, Nat.add_sub_cancel_left]
      exact hrest

/-- In every block of joined arrays, the block of a part begins where those of the parts before
it end. -/
theorem get_of_concat_block {d o j start : Nat} (h : concat pre.length parts = .ok r)
    (hr : r.shape = pre ++ d :: post) (hparts : ∀ q ∈ parts, ∃ e, q.shape = pre ++ e :: post)
    (hp : parts[i]? = some p)
    (hstart : start = ((parts.take i).map fun q => Shape.size (q.shape.drop pre.length)).sum)
    (ho : o < Shape.size pre) (hj : j < Shape.size (p.shape.drop pre.length))
    (hroom : start + j < Shape.size (d :: post)) :
    r.get (r.shape.coord (o * Shape.size (d :: post) + (start + j))) =
      p.get (p.shape.coord (o * Shape.size (p.shape.drop pre.length) + j)) := by
  obtain ⟨e, he⟩ := hparts p (List.mem_of_getElem? hp)
  have hjoined : start =
      Shape.joinedLength pre.length ((parts.take i).map shape) * Shape.size post := by
    rw [hstart, ← Shape.sum_size_drop ((parts.take i).map shape), List.map_map]
    · rfl
    · intro t ht
      obtain ⟨q, hq, rfl⟩ := List.mem_map.1 ht
      obtain ⟨e, he⟩ := hparts q (List.mem_of_mem_take hq)
      simp [he]
  -- The position in the block of the part is that of an entry `a` along the axis.
  rw [he, List.drop_left, Shape.size_cons] at hj
  have hpost : 0 < Shape.size post := Nat.pos_of_ne_zero fun h0 => by simp [h0] at hj
  obtain ⟨a, q, ha, hq, rfl⟩ : ∃ a q, a < e ∧ q < Shape.size post ∧ j = a * Shape.size post + q :=
    ⟨j / Shape.size post, j % Shape.size post, Nat.div_lt_of_lt_mul (by rwa [Nat.mul_comm]),
      Nat.mod_lt j hpost, (Nat.div_add_mod' j _).symm⟩
  have hplace : start + (a * Shape.size post + q) =
      (Shape.joinedLength pre.length ((parts.take i).map shape) + a) * Shape.size post + q := by
    rw [hjoined, Nat.add_mul, Nat.add_assoc]
  rw [hplace] at hroom ⊢
  have hsum : Shape.joinedLength pre.length ((parts.take i).map shape) + a < d :=
    Nat.lt_of_mul_lt_mul_right (lt_of_le_of_lt (Nat.le_add_right _ q) hroom)
  have hlt := Shape.block_lt ho hroom
  rw [← Shape.size_append, ← hr] at hlt
  rw [get_of_concat h (Shape.coord_inBounds hlt), hr, he, List.drop_left,
    Shape.coord_split ho hsum hq, Shape.coord_split ho ha hq]
  exact joinedGet_of_getElem? hp (Shape.coord_inBounds ho).length_eq (by simp [he, ha])

theorem get_of_stack_block {j : Nat} (h : stack parts = .ok r)
    (hr : r.shape = parts.length :: p.shape) (hp : parts[i]? = some p) (hj : j < p.shape.size) :
    r.get (r.shape.coord (i * p.shape.size + j)) = p.get (p.shape.coord j) := by
  have hi : i < parts.length := (List.getElem?_eq_some_iff.1 hp).1
  rw [hr, Shape.coord_cons _ hj]
  exact get_of_stack h hp (by rw [hr]; exact ⟨hi, Shape.coord_inBounds hj⟩)

end NDArray

namespace Op
variable {op : Op} {args : List Tensor} {r : Tensor} {out : TensorType} {preferred : DType}

/-- Whether the operation only moves elements. -/
def isMovement : Op → Bool
  | transpose | slice _ | concat _ | stack => true
  | _ => false

theorem eval_concat_eq_ok [FloatProduct] {axis : Nat} : (concat axis).eval args out = .ok r ↔
    ∃ joined, NDArray.concat axis (args.map fun x => x.as out.dtype) = .ok joined ∧
      ⟨out.dtype, joined⟩ = r := by
  simp only [eval, Except.bind_eq_ok, Except.mapError_eq_ok, pure, Except.pure, Except.ok.injEq]

theorem eval_stack_eq_ok [FloatProduct] : stack.eval args out = .ok r ↔
    ∃ stacked, NDArray.stack (args.map fun x => x.as out.dtype) = .ok stacked ∧
      ⟨out.dtype, stacked⟩ = r := by
  simp only [eval, Except.bind_eq_ok, Except.mapError_eq_ok, pure, Except.pure, Except.ok.injEq]

theorem eq_set_of_concatShape {axis : Nat} {first s : Shape} {parts : List Shape}
    (h : concatShape axis first parts = .ok s) :
    s = first.set axis (Shape.joinedLength axis parts) := by
  simp only [concatShape] at h
  obtain ⟨-, h⟩ := Except.unless_eq_ok.1 h
  obtain ⟨-, h⟩ := Except.unless_eq_ok.1 h
  obtain ⟨_, -, h⟩ := Except.bind_eq_ok.1 h
  exact (Except.ok.inj h).symm

/-- What moves elements leaves a value of the type that inference gives. -/
theorem type_of_eval [FloatProduct] (hop : op.isMovement = true)
    (hinfer : op.infer (args.map Tensor.type) preferred = .ok out) (h : op.eval args out = .ok r) :
    r.type = out := by
  cases op with
  | transpose =>
    obtain ⟨x, rfl⟩ := List.length_eq_one_iff.1 (by simpa using length_of_infer hinfer rfl)
    cases h
    exact (infer_transpose_eq_ok hinfer).symm
  | slice selection =>
    obtain ⟨x, rfl⟩ := List.length_eq_one_iff.1 (by simpa using length_of_infer hinfer rfl)
    obtain ⟨w, hw, rfl⟩ := infer_slice_eq_ok hinfer
    obtain ⟨w', hw', h⟩ := Except.bind_eq_ok.1 h
    obtain rfl : w = w' := Except.ok.inj (hw.symm.trans (Except.mapError_eq_ok.1 hw'))
    cases h
    exact x.type_extract w
  | concat axis =>
    cases args with
    | nil => cases hinfer
    | cons x rest =>
      obtain ⟨s, hs, rfl⟩ := infer_concat_eq_ok hinfer
      obtain ⟨joined, hjoined, rfl⟩ := eval_concat_eq_ok.1 h
      have hshape : joined.shape = s := by
        rw [NDArray.shape_of_concat hjoined, eq_set_of_concatShape hs]
        simp [Function.comp_def, Tensor.type]
      exact congrArg (TensorType.mk · _) hshape
  | stack =>
    cases args with
    | nil => cases hinfer
    | cons x rest =>
      obtain ⟨hshapes, rfl⟩ := infer_stack_eq_ok hinfer
      obtain ⟨stacked, hstacked, rfl⟩ := eval_stack_eq_ok.1 h
      have hshape : stacked.shape = (rest.length + 1) :: x.shape := by
        simpa using NDArray.shape_of_stack hstacked
      refine congrArg (TensorType.mk · _) (hshape.trans ?_)
      rw [List.length_map]
      rfl
  | _ => cases hop

/-- In every block of a concatenation, the block of an operand begins where those of the operands
before it end. -/
theorem get_of_eval_concat [FloatProduct] {axis i o j : Nat} {first : Shape} {y : Tensor}
    (hshape : concatShape axis first (args.map Tensor.shape) = .ok out.shape)
    (htype : r.type = out) (h : (concat axis).eval args out = .ok r) (hy : args[i]? = some y)
    (ho : o < Shape.size (out.shape.take axis)) (hj : j < Shape.size (y.shape.drop axis))
    (hroom : ((args.take i).map fun x => Shape.size (x.shape.drop axis)).sum + j <
      Shape.size (out.shape.drop axis)) :
    r.get (r.shape.coord (o * Shape.size (out.shape.drop axis) +
        (((args.take i).map fun x => Shape.size (x.shape.drop axis)).sum + j))) =
      (y.get (y.shape.coord (o * Shape.size (y.shape.drop axis) + j))).to out.dtype := by
  obtain ⟨joined, hjoined, rfl⟩ := eval_concat_eq_ok.1 h
  have hresult : joined.shape = out.shape := congrArg TensorType.shape htype
  have hbound : o * Shape.size (y.shape.drop axis) + j < y.shape.size := by
    rw [(sizes_of_concatShape hshape).1 _ (List.mem_map_of_mem (List.mem_of_getElem? hy))]
    exact Shape.block_lt ho hj
  obtain ⟨pre, post, rfl, hsplit, hparts⟩ := split_of_concatShape hshape
  have hshapes : ∀ q ∈ args.map fun x => x.as out.dtype, ∃ e, q.shape = pre ++ e :: post := by
    intro q hq
    obtain ⟨x, hx, rfl⟩ := List.mem_map.1 hq
    exact hparts _ (List.mem_map_of_mem hx)
  rw [hsplit, List.take_left] at ho
  rw [hsplit, List.drop_left] at hroom ⊢
  have hget := NDArray.get_of_concat_block (i := i) (p := y.as out.dtype) hjoined
    (hresult.trans hsplit) hshapes (by simp [hy])
    (by rw [← List.map_take, List.map_map]; rfl) ho hj hroom
  exact congrArg (Scalar.mk out.dtype) (hget.trans (Tensor.get_as _ (Shape.coord_inBounds hbound)))

theorem get_of_eval_stack [FloatProduct] {i j : Nat} {y : Tensor}
    (hshape : out.shape = args.length :: y.shape) (htype : r.type = out)
    (h : stack.eval args out = .ok r) (hy : args[i]? = some y)
    (hj : j < y.shape.size) :
    r.get (r.shape.coord (i * y.shape.size + j)) = (y.get (y.shape.coord j)).to out.dtype := by
  obtain ⟨stacked, hstacked, rfl⟩ := eval_stack_eq_ok.1 h
  have hresult : stacked.shape = out.shape := congrArg TensorType.shape htype
  have hget := NDArray.get_of_stack_block (i := i) (p := y.as out.dtype) hstacked
    (by rw [hresult, hshape, List.length_map, Tensor.shape_as]) (by simp [hy]) hj
  exact congrArg (Scalar.mk out.dtype) (hget.trans (Tensor.get_as _ (Shape.coord_inBounds hj)))

end Op

/-! ## Elements of tensors by position -/

namespace Tensor
variable {x : Tensor} {k : Nat}

theorem element?_eq (hk : k < x.type.size) : x.element? k = some (x.get (x.shape.coord k)) := by
  have hk : k < x.shape.size := hk
  rw [← element?_offset (Shape.coord_inBounds hk), Shape.offset_coord hk]

end Tensor
end ArrayTrace
