import ArrayTrace.Proofs.Preference
import ArrayTrace.Proofs.Rearrangement

/-!
# Joining and splitting

Arrays that were joined along an axis, or stacked along a new one, are found in the result as its
slices; and an array is its slices along an axis joined again, however the axis is cut, and its
positions along the first axis stacked again.

## Main definitions

* `Window.along`, `Selection.along` — a part of one axis, and all of the other axes.
* `Span.Cuts` — consecutive spans that cover a range of positions.
* `Op.Yields` — inference accepts the operands, and evaluation has a result.
-/

namespace ArrayTrace

namespace Shape
variable {pre post : Shape} {parts : List Shape} {ix : List Nat} {d : Nat}

/-- Multi-indices where one axis is singled out. -/
theorem inBounds_split : InBounds (pre ++ d :: post) ix ↔ ∃ front j back,
    ix = front ++ j :: back ∧ pre.InBounds front ∧ j < d ∧ post.InBounds back := by
  simp only [inBounds_iff]
  constructor
  · intro h
    have hfront := List.forall₂_take_append ix pre (d :: post) h
    have hback := List.forall₂_drop_append ix pre (d :: post) h
    obtain ⟨j, back, hj, hback, hdrop⟩ := List.forall₂_cons_right_iff.1 hback
    exact ⟨_, j, back, by rw [← hdrop, List.take_append_drop], hfront, hj, hback⟩
  · rintro ⟨front, j, back, rfl, hfront, hj, hback⟩
    exact List.rel_append hfront (.cons hj hback)

/-- A part ends before the joined parts do. -/
theorem joinedLength_take_add_le {i : Nat} {p : Shape} (axis : Nat) (h : parts[i]? = some p) :
    joinedLength axis (parts.take i) + p.getD axis 0 ≤ joinedLength axis parts := by
  induction parts generalizing i with
  | nil => simp at h
  | cons first rest ih =>
    cases i with
    | zero =>
      obtain rfl : first = p := by simpa using h
      simp [joinedLength]
    | succ i =>
      have hrest := ih (i := i) (by simpa using h)
      simp only [joinedLength, List.take_succ_cons, List.foldr_cons] at hrest ⊢
      omega

end Shape

/-! ## Slices along an axis -/

namespace Window
variable {s pre post : Shape} {w : Window} {span : Span} {ix front back : List Nat} {i j : Nat}

/-- All of an array. -/
def whole (s : Shape) : Window := s.map fun d => ⟨⟨0, d⟩, true⟩

/-- A part of one axis, and all of the axes in front of it and behind it. -/
def along (pre : Shape) (a : AxisWindow) (post : Shape) : Window := whole pre ++ a :: whole post

theorem whole_cons_append (d : Nat) (s : Shape) (w : Window) :
    whole (d :: s) ++ w = ⟨⟨0, d⟩, true⟩ :: (whole s ++ w) := rfl

theorem shape_whole_append (s : Shape) (w : Window) : shape (whole s ++ w) = s ++ shape w := by
  induction s with
  | nil => rfl
  | cons d s ih =>
    rw [whole_cons_append, shape_cons, if_pos rfl, ih]
    rfl

theorem shape_whole (s : Shape) : (whole s).shape = s := by
  simpa [shape] using shape_whole_append s []

theorem source_whole_append (h : front.length = s.length) :
    source (whole s ++ w) (front ++ back) = front ++ w.source back := by
  induction s generalizing front with
  | nil =>
    rw [List.eq_nil_of_length_eq_zero h]
    rfl
  | cons d s ih =>
    cases front with
    | nil => cases h
    | cons i front =>
      rw [whole_cons_append, List.cons_append, source, if_pos rfl]
      simp [ih (Nat.succ.inj h)]

theorem source_whole (h : ix.length = s.length) : (whole s).source ix = ix := by
  have happend : source (whole s ++ []) (ix ++ []) = ix ++ source [] [] := source_whole_append h
  simpa [source] using happend

theorem shape_along : (along pre ⟨span, true⟩ post).shape = pre ++ span.length :: post := by
  rw [along, shape_whole_append, shape_cons, if_pos rfl, shape_whole]

theorem source_along (hfront : front.length = pre.length) (hback : back.length = post.length) :
    (along pre ⟨span, true⟩ post).source (front ++ j :: back) =
      front ++ (span.start + j) :: back := by
  rw [along, source_whole_append hfront, source, if_pos rfl]
  simp only [source_whole hback]

/-- Dropping the first axis leaves the other ones. -/
theorem shape_along_nil : (along [] ⟨span, false⟩ s).shape = s := by
  rw [along, shape_whole_append, shape_cons, if_neg Bool.false_ne_true, shape_whole]
  rfl

theorem source_along_nil (h : ix.length = s.length) :
    (along [] ⟨span, false⟩ s).source ix = span.start :: ix := by
  rw [along, whole, List.map_nil, List.nil_append, source.eq_def]
  simp [source_whole h]

end Window

namespace Selection
variable {s t pre post : Shape} {selection : Selection} {w : Window} {axis start stop d i : Nat}

/-- The positions of a range along one of `rank` axes, and all of the other axes. -/
def along (rank axis start stop : Nat) : Selection :=
  List.replicate axis .whole ++ .range start stop 1 :: List.replicate (rank - axis - 1) .whole

theorem resolveFrom_nil : resolveFrom axis [] s = .ok (.whole s) := by
  induction s generalizing axis with
  | nil => rfl
  | cons d s ih =>
    rw [resolveFrom, ih]
    rfl

theorem resolveFrom_whole_append (h : selection.resolveFrom (axis + s.length) t = .ok w) :
    resolveFrom axis (List.replicate s.length .whole ++ selection) (s ++ t) =
      .ok (.whole s ++ w) := by
  induction s generalizing axis with
  | nil => exact h
  | cons d s ih =>
    rw [List.length_cons, ← Nat.add_assoc, Nat.add_right_comm] at h
    rw [List.length_cons, List.replicate_succ, List.cons_append, List.cons_append, resolveFrom,
      ih h]
    rfl

theorem resolve_along (pre post : Shape) (hstart : start ≤ stop) (hstop : stop ≤ d) :
    (along (pre ++ d :: post).length pre.length start stop).resolve (pre ++ d :: post) =
      .ok (.along pre ⟨⟨start, stop⟩, true⟩ post) := by
  have hback : (pre ++ d :: post).length - pre.length - 1 = post.length := by simp
  have hrange : (Selector.range start stop 1).resolve (0 + pre.length) d =
      .ok ⟨⟨start, stop⟩, true⟩ := by
    rw [Selector.resolve, if_neg (by omega), if_neg (by omega), if_neg (by omega),
      if_neg (by omega)]
    rfl
  have hrest : resolveFrom (0 + pre.length + 1) (List.replicate post.length .whole ++ [])
      (post ++ []) = .ok (Window.whole post ++ []) := resolveFrom_whole_append rfl
  simp only [List.append_nil] at hrest
  rw [resolve, if_neg (by simp [along]), along, hback]
  refine resolveFrom_whole_append ?_
  rw [resolveFrom, hrange, hrest]
  rfl

theorem resolve_point (hi : i < d) :
    resolve [.point i] (d :: s) = .ok (.along [] ⟨⟨i, i + 1⟩, false⟩ s) := by
  have hpoint : (Selector.point i).resolve 0 d = .ok ⟨⟨i, i + 1⟩, false⟩ := by
    rw [Selector.resolve, if_neg (by omega), if_neg (by simpa using hi)]
    rfl
  rw [resolve, if_neg (by simp), resolveFrom, hpoint, resolveFrom_nil]
  rfl

end Selection

/-- Consecutive spans from `start` on, the last of which ends at `stop`. -/
inductive Span.Cuts : Nat → Nat → List Span → Prop
  | nil (start : Nat) : Cuts start start []
  | cons {start middle stop : Nat} {rest : List Span} : start ≤ middle → Cuts middle stop rest →
      Cuts start stop (⟨start, middle⟩ :: rest)

namespace Span.Cuts
variable {start stop : Nat} {spans : List Span} {span : Span}

theorem start_le (h : Cuts start stop spans) : start ≤ stop := by
  induction h with
  | nil => exact Nat.le_refl _
  | cons hle _ ih => exact Nat.le_trans hle ih

theorem of_mem (h : Cuts start stop spans) (hspan : span ∈ spans) :
    span.start ≤ span.stop ∧ span.stop ≤ stop := by
  induction h with
  | nil => cases hspan
  | cons hle hrest ih =>
    cases hspan with
    | head => exact ⟨hle, hrest.start_le⟩
    | tail _ hspan => exact ih hspan

/-- The lengths of the spans add up to the length of what they cut. -/
theorem joinedLength (h : Cuts start stop spans) (pre post : Shape) :
    Shape.joinedLength pre.length (spans.map fun span => pre ++ span.length :: post) =
      stop - start := by
  induction h with
  | nil => simp [Shape.joinedLength]
  | @cons start middle stop rest hle hrest ih =>
    have hlen := hrest.start_le
    simp only [Shape.joinedLength] at ih
    simp only [Shape.joinedLength, List.map_cons, List.foldr_cons, ih]
    simp [Span.length]
    omega

end Span.Cuts

/-! ## Elements of joined arrays and of slices -/

namespace NDArray
open Window
variable {α : Type} [Inhabited α] {a r p : NDArray α} {parts : List (NDArray α)}
  {pre post s : Shape} {span : Span} {spans : List Span} {front back : List Nat}
  {d e i j start stop : Nat}

theorem get_extract_along (ha : a.shape = pre ++ d :: post) (hstop : span.stop ≤ d)
    (hfront : pre.InBounds front) (hj : j < span.length) (hback : post.InBounds back) :
    (a.extract (along pre ⟨span, true⟩ post)).get (front ++ j :: back) =
      a.get (front ++ (span.start + j) :: back) := by
  have hle : span.start ≤ span.stop := by
    rw [Span.length] at hj
    omega
  have hw := Selection.fits_of_resolve (Selection.resolve_along pre post hle hstop)
  have hix : (along pre ⟨span, true⟩ post).shape.InBounds (front ++ j :: back) :=
    shape_along ▸ Shape.inBounds_split.2 ⟨front, j, back, rfl, hfront, hj, hback⟩
  rw [get_extract (ha ▸ hw) hix, source_along hfront.length_eq hback.length_eq]

theorem get_extract_along_nil {ix : List Nat} (ha : a.shape = d :: s) (hi : i < d)
    (hix : s.InBounds ix) :
    (a.extract (along [] ⟨⟨i, i + 1⟩, false⟩ s)).get ix = a.get (i :: ix) := by
  have hw := Selection.fits_of_resolve (Selection.resolve_point (s := s) hi)
  have hin : (along [] ⟨⟨i, i + 1⟩, false⟩ s).shape.InBounds ix := shape_along_nil ▸ hix
  rw [get_extract (ha ▸ hw) hin, source_along_nil hix.length_eq]

/-- A part is the slice of the joined arrays that begins where the parts before it end. -/
theorem extract_of_concat (h : concat pre.length parts = .ok r) (hr : r.shape = pre ++ d :: post)
    (hi : parts[i]? = some p) (hp : p.shape = pre ++ e :: post)
    (hstart : start = Shape.joinedLength pre.length ((parts.take i).map shape))
    (hroom : start + e ≤ d) : r.extract (along pre ⟨⟨start, start + e⟩, true⟩ post) = p := by
  have hlen : Span.length ⟨start, start + e⟩ = e := Nat.add_sub_cancel_left start e
  have hshape : (along pre ⟨⟨start, start + e⟩, true⟩ post).shape = p.shape := by
    rw [shape_along, hlen, hp]
  refine ext_get ((shape_extract r _).trans hshape) fun ix hix => ?_
  rw [shape_extract, hshape, hp] at hix
  obtain ⟨front, j, back, rfl, hfront, hj, hback⟩ := Shape.inBounds_split.1 hix
  have hin : r.shape.InBounds (front ++ (start + j) :: back) :=
    hr ▸ Shape.inBounds_split.2 ⟨front, start + j, back, rfl, hfront, by omega, hback⟩
  rw [get_extract_along hr hroom hfront (hlen.symm ▸ hj) hback, get_of_concat h hin, hstart]
  exact joinedGet_of_getElem? hi hfront.length_eq (by simpa [hp] using hj)

/-- An element is the slice of the stacked arrays at its position. -/
theorem extract_of_stack (h : stack parts = .ok r) (hr : r.shape = d :: s)
    (hi : parts[i]? = some p) (hp : p.shape = s) (hd : i < d) :
    r.extract (along [] ⟨⟨i, i + 1⟩, false⟩ s) = p := by
  have hshape : (along [] ⟨⟨i, i + 1⟩, false⟩ s).shape = p.shape := by rw [shape_along_nil, hp]
  refine ext_get ((shape_extract r _).trans hshape) fun ix hix => ?_
  rw [shape_extract, shape_along_nil] at hix
  rw [get_extract_along_nil hr hd hix]
  exact get_of_stack h hi (hr ▸ ⟨hd, hix⟩)

/-- Counting off against the slices of an array is counting along the axis that they cut. -/
theorem joinedGet_slices (ha : a.shape = pre ++ d :: post) (hstop : stop ≤ d)
    (hcuts : Span.Cuts start stop spans) (hfront : pre.InBounds front)
    (hj : start + j < stop) (hback : post.InBounds back) :
    joinedGet pre.length (spans.map fun span => a.extract (along pre ⟨span, true⟩ post))
      (front ++ j :: back) = a.get (front ++ (start + j) :: back) := by
  -- Behind the first slice, the position goes down by its length as the start of the cut goes up.
  induction hcuts generalizing j with
  | nil => omega
  | @cons start middle stop rest hle hrest ih =>
    have hdim : (along pre ⟨⟨start, middle⟩, true⟩ post).shape.getD pre.length 0 =
        middle - start := by
      simp [shape_along, Span.length]
    have hget : (front ++ j :: back).getD pre.length 0 = j := by
      simp [← hfront.length_eq]
    rw [List.map_cons, joinedGet, shape_extract, hdim, hget]
    split
    · exact get_extract_along ha (Nat.le_trans hrest.start_le hstop) hfront ‹_› hback
    · have hset : (front ++ j :: back).set pre.length (j - (middle - start)) =
          front ++ (j - (middle - start)) :: back := by
        simp [← hfront.length_eq]
      have hplace : middle + (j - (middle - start)) = start + j := by omega
      rw [hset, ih hstop (by omega), hplace]

/-- The slices that cut an axis, joined along it, are the array. -/
theorem eq_of_concat_slices
    (h : concat pre.length (spans.map fun span => a.extract (along pre ⟨span, true⟩ post)) = .ok r)
    (hr : r.shape = a.shape) (ha : a.shape = pre ++ d :: post) (hcuts : Span.Cuts 0 d spans) :
    r = a := by
  refine ext_get hr fun ix hix => ?_
  obtain ⟨front, j, back, rfl, hfront, hj, hback⟩ :=
    Shape.inBounds_split.1 (show (pre ++ d :: post).InBounds ix from ha ▸ hr ▸ hix)
  rw [get_of_concat h hix, joinedGet_slices ha (Nat.le_refl d) hcuts hfront (by omega) hback,
    Nat.zero_add]

/-- The slices at all positions of the first axis, stacked, are the array. -/
theorem eq_of_stack_slices
    (h : stack ((List.range d).map fun i => a.extract (along [] ⟨⟨i, i + 1⟩, false⟩ s)) = .ok r)
    (hr : r.shape = a.shape) (ha : a.shape = d :: s) : r = a := by
  refine ext_get hr fun ix hix => ?_
  have hin : Shape.InBounds (d :: s) ix := ha ▸ hr ▸ hix
  cases ix with
  | nil => cases hin
  | cons i ix =>
    have hi : ((List.range d).map fun i => a.extract (along [] ⟨⟨i, i + 1⟩, false⟩ s))[i]? =
        some (a.extract (along [] ⟨⟨i, i + 1⟩, false⟩ s)) := by
      rw [List.getElem?_map, List.getElem?_range hin.1, Option.map_some]
    rw [get_of_stack h hi hix, get_extract_along_nil ha hin.1 hin.2]

end NDArray

/-! ## Types of joined slices -/

namespace Op
variable {op : Op} {args : List Tensor} {x r : Tensor} {out : TensorType} {preferred : DType}
  {pre post s : Shape} {spans : List Span} {axis d e i : Nat}

theorem checkPart_eq_ok (pre post : Shape) (d e : Nat) :
    checkPart pre.length (pre ++ d :: post) (pre ++ e :: post) = .ok () := by
  have hnone : differingAxis? pre.length (pre ++ d :: post) (pre ++ e :: post) = none := by
    refine List.find?_eq_none.2 fun i _ => ?_
    rw [decide_eq_true_eq, not_and, not_not]
    intro hi
    rcases Nat.lt_or_gt_of_ne hi with hlt | hlt
    · rw [List.getElem?_append_left hlt, List.getElem?_append_left hlt]
    · obtain ⟨k, rfl⟩ := Nat.exists_eq_add_of_lt hlt
      rw [List.getElem?_append_right (by omega), List.getElem?_append_right (by omega),
        Nat.add_assoc, Nat.add_sub_cancel_left, List.getElem?_cons_succ, List.getElem?_cons_succ]
  rw [checkPart, if_neg (by simp), hnone]

/-- Parts that agree in front of an axis and behind it can be joined along it. -/
theorem concatShape_eq_ok {parts : List Shape} (h : ∀ p ∈ parts, ∃ e, p = pre ++ e :: post) :
    concatShape pre.length (pre ++ d :: post) parts =
      .ok (pre ++ Shape.joinedLength pre.length parts :: post) := by
  have hparts : parts.forM (checkPart pre.length (pre ++ d :: post)) = .ok () := by
    refine Except.forM_eq_ok.2 fun p hp => ?_
    obtain ⟨e, rfl⟩ := h p hp
    exact checkPart_eq_ok pre post d e
  have hset : (pre ++ d :: post).set pre.length (Shape.joinedLength pre.length parts) =
      pre ++ Shape.joinedLength pre.length parts :: post := by
    simp
  simp only [concatShape, hset]
  rw [Except.unless_eq_ok, Except.unless_eq_ok]
  refine ⟨by simp, by simp, ?_⟩
  rw [hparts]
  rfl

/-- Operands of one type have this type in common. -/
theorem commonDType_eq {first : TensorType} {rest : List TensorType}
    (h : ∀ t ∈ rest, t.dtype = first.dtype) : commonDType preferred first rest = first.dtype := by
  rw [commonDType]
  induction rest with
  | nil => rfl
  | cons t rest ih =>
    obtain ⟨ht, hrest⟩ := List.forall_mem_cons.1 h
    rw [List.foldl_cons, ht, DType.promote_self, ih hrest]

/-- Inference accepts the operands, and evaluation has the result `r`. -/
def Yields [FloatProduct] (op : Op) (preferred : DType) (args : List Tensor) (r : Tensor) : Prop :=
  ∃ out, op.infer (args.map Tensor.type) preferred = .ok out ∧ op.eval args out = .ok r

theorem yields_slice [FloatProduct] {selection : Selection} {w : Window} {y : Tensor}
    (hw : selection.resolve x.shape = .ok w) (hy : x.extract w = y) :
    (slice selection).Yields preferred [x] y := by
  subst hy
  refine ⟨⟨w.shape, x.dtype⟩, ?_, ?_⟩
  · simp only [infer, List.map_cons, List.map_nil, Tensor.type, hw]
  · simp only [eval, hw]
    rfl

/-! ## Splitting what has been joined -/

/-- Operands that can be joined along an axis agree in front of it and behind it. -/
theorem split_of_infer_concat
    (h : (concat axis).infer (args.map Tensor.type) preferred = .ok out) :
    ∃ pre post : Shape, pre.length = axis ∧
      out.shape = pre ++ Shape.joinedLength axis (args.map Tensor.shape) :: post ∧
      ∀ x ∈ args, ∃ e, x.shape = pre ++ e :: post := by
  cases args with
  | nil => cases h
  | cons first rest =>
    obtain ⟨s, hs, rfl⟩ := infer_concat_eq_ok h
    have hshapes : (first.type :: rest.map Tensor.type).map TensorType.shape =
        (first :: rest).map Tensor.shape := by
      simp [Function.comp_def, Tensor.type]
    rw [hshapes] at hs
    obtain ⟨pre, post, hpre, hsplit, hparts⟩ := split_of_concatShape hs
    exact ⟨pre, post, hpre, hsplit, fun x hx => hparts _ (List.mem_map_of_mem hx)⟩

/-- Each operand is the slice of the concatenation that begins where the operands before it
end. -/
theorem yields_slice_of_concat [FloatProduct] {start : Nat}
    (hinfer : (concat axis).infer (args.map Tensor.type) preferred = .ok out)
    (h : (concat axis).eval args out = .ok r) (hi : args[i]? = some x)
    (hstart : start = Shape.joinedLength axis ((args.take i).map Tensor.shape)) :
    (slice (.along x.shape.length axis start (start + x.shape.getD axis 0))).Yields preferred [r]
      (x.cast out.dtype) := by
  obtain ⟨pre, post, rfl, hout, hparts⟩ := split_of_infer_concat hinfer
  obtain ⟨e, he⟩ := hparts x (List.mem_of_getElem? hi)
  have hr : r.shape = pre ++ Shape.joinedLength pre.length (args.map Tensor.shape) :: post :=
    (congrArg TensorType.shape (type_of_eval rfl hinfer h)).trans hout
  obtain ⟨joined, hjoined, rfl⟩ := eval_concat_eq_ok.1 h
  have hdim : x.shape.getD pre.length 0 = e := by simp [he]
  have hrank : x.shape.length =
      (pre ++ Shape.joinedLength pre.length (args.map Tensor.shape) :: post).length := by
    simp [he]
  have hroom : start + e ≤ Shape.joinedLength pre.length (args.map Tensor.shape) := by
    have hpart : (args.map Tensor.shape)[i]? = some x.shape := by simp [hi]
    have hle := Shape.joinedLength_take_add_le pre.length hpart
    rwa [← List.map_take, ← hstart, hdim] at hle
  have hwindow := Selection.resolve_along pre post (Nat.le_add_right start e) hroom
  have hpart : joined.extract (.along pre ⟨⟨start, start + e⟩, true⟩ post) = x.as out.dtype := by
    refine NDArray.extract_of_concat (i := i) hjoined hr (by simp [hi]) he ?_ hroom
    rw [hstart, ← List.map_take, List.map_map]
    rfl
  rw [hdim, hrank]
  exact yields_slice (hr ▸ hwindow) (congrArg (Tensor.mk out.dtype) hpart)

theorem shapes_of_infer_stack (h : stack.infer (args.map Tensor.type) preferred = .ok out)
    (hx : x ∈ args) : out.shape = args.length :: x.shape := by
  cases args with
  | nil => cases hx
  | cons first rest =>
    obtain ⟨hshapes, rfl⟩ := infer_stack_eq_ok h
    have hfirst : x.shape = first.shape := by
      rcases List.mem_cons.1 hx with rfl | hx
      · rfl
      · exact hshapes _ (List.mem_map_of_mem hx)
    rw [hfirst, List.length_map]
    rfl

/-- Each operand is the slice of the stack at its position. -/
theorem yields_slice_of_stack [FloatProduct]
    (hinfer : stack.infer (args.map Tensor.type) preferred = .ok out)
    (h : stack.eval args out = .ok r) (hi : args[i]? = some x) :
    (slice [.point i]).Yields preferred [r] (x.cast out.dtype) := by
  have hlt : i < args.length := (List.getElem?_eq_some_iff.1 hi).1
  have hr : r.shape = args.length :: x.shape :=
    (congrArg TensorType.shape (type_of_eval rfl hinfer h)).trans
      (shapes_of_infer_stack hinfer (List.mem_of_getElem? hi))
  obtain ⟨stacked, hstacked, rfl⟩ := eval_stack_eq_ok.1 h
  have hpart : stacked.extract (.along [] ⟨⟨i, i + 1⟩, false⟩ x.shape) = x.as out.dtype :=
    NDArray.extract_of_stack hstacked hr (by simp [hi]) rfl hlt
  exact yields_slice (hr ▸ Selection.resolve_point hlt) (congrArg (Tensor.mk out.dtype) hpart)

end Op

/-! ## Joining what has been split -/

namespace Tensor
variable {x y : Tensor}

/-- The slices of a tensor that cut an axis. -/
def pieces (x : Tensor) (pre post : Shape) (spans : List Span) : List Tensor :=
  spans.map fun span => x.extract (.along pre ⟨span, true⟩ post)

/-- The slices of a tensor at the first `d` positions of the first axis. -/
def items (x : Tensor) (d : Nat) (s : Shape) : List Tensor :=
  (List.range d).map fun i => x.extract (.along [] ⟨⟨i, i + 1⟩, false⟩ s)

theorem type_extract_along (x : Tensor) (pre post : Shape) (span : Span) :
    (x.extract (.along pre ⟨span, true⟩ post)).type = ⟨pre ++ span.length :: post, x.dtype⟩ := by
  rw [type_extract, Window.shape_along]

theorem map_shape_pieces (x : Tensor) (pre post : Shape) (spans : List Span) :
    (x.pieces pre post spans).map shape = spans.map fun span => pre ++ span.length :: post := by
  rw [pieces, List.map_map]
  exact List.map_congr_left fun span _ =>
    congrArg TensorType.shape (x.type_extract_along pre post span)

theorem map_as_pieces (x : Tensor) (pre post : Shape) (spans : List Span) :
    (x.pieces pre post spans).map (fun y => y.as x.dtype) =
      spans.map fun span => x.array.extract (.along pre ⟨span, true⟩ post) := by
  rw [pieces, List.map_map]
  exact List.map_congr_left fun span _ => as_self (x.extract _)

theorem map_as_items (x : Tensor) (d : Nat) (s : Shape) :
    (x.items d s).map (fun y => y.as x.dtype) =
      (List.range d).map fun i => x.array.extract (.along [] ⟨⟨i, i + 1⟩, false⟩ s) := by
  rw [items, List.map_map]
  exact List.map_congr_left fun i _ => as_self (x.extract _)

theorem type_of_mem_pieces {pre post : Shape} {spans : List Span}
    (h : y ∈ x.pieces pre post spans) : ∃ e, y.type = ⟨pre ++ e :: post, x.dtype⟩ := by
  obtain ⟨span, -, rfl⟩ := List.mem_map.1 h
  exact ⟨span.length, x.type_extract_along pre post span⟩

theorem type_of_mem_items {d : Nat} {s : Shape} (h : y ∈ x.items d s) : y.type = ⟨s, x.dtype⟩ := by
  obtain ⟨i, -, rfl⟩ := List.mem_map.1 h
  rw [type_extract, Window.shape_along_nil]

end Tensor

namespace Op
variable {x first : Tensor} {rest : List Tensor} {preferred : DType} {pre post s : Shape}
  {spans : List Span} {d : Nat}

/-- Operands of one type are joined to a result of this type. -/
theorem infer_concat_eq {axis : Nat} (preferred : DType)
    (hdtype : ∀ y ∈ rest, y.dtype = first.dtype)
    (hshape : concatShape axis first.shape ((first :: rest).map Tensor.shape) = .ok s) :
    (concat axis).infer ((first :: rest).map Tensor.type) preferred = .ok ⟨s, first.dtype⟩ := by
  have hshapes : (first.type :: rest.map Tensor.type).map TensorType.shape =
      (first :: rest).map Tensor.shape := by
    simp [Function.comp_def, Tensor.type]
  have hcommon : commonDType preferred first.type (rest.map Tensor.type) = first.dtype :=
    commonDType_eq (List.forall_mem_map.2 hdtype)
  rw [List.map_cons, infer, hshapes, show first.type.shape = first.shape from rfl, hshape, hcommon]
  rfl

theorem infer_stack_eq (preferred : DType) (htype : ∀ y ∈ rest, y.type = first.type) :
    stack.infer ((first :: rest).map Tensor.type) preferred =
      .ok ⟨(rest.length + 1) :: first.shape, first.dtype⟩ := by
  have hcommon : commonDType preferred first.type (rest.map Tensor.type) = first.dtype :=
    commonDType_eq (List.forall_mem_map.2 fun y hy => congrArg TensorType.dtype (htype y hy))
  have hnone : (rest.map Tensor.type).find? (fun t => t.shape ≠ first.type.shape) = none := by
    refine List.find?_eq_none.2 (List.forall_mem_map.2 fun y hy => ?_)
    simp [htype y hy]
  rw [List.map_cons, infer, hnone, hcommon, List.length_cons, List.length_map]
  rfl

theorem concatShape_pieces (hx : x.shape = pre ++ d :: post) (hcuts : Span.Cuts 0 d spans)
    (hcons : x.pieces pre post spans = first :: rest) :
    concatShape pre.length first.shape ((first :: rest).map Tensor.shape) = .ok x.shape := by
  have hfirst : first ∈ x.pieces pre post spans := hcons ▸ List.mem_cons_self
  obtain ⟨e, he⟩ := Tensor.type_of_mem_pieces hfirst
  have he : first.shape = pre ++ e :: post := congrArg TensorType.shape he
  rw [he, ← hcons, concatShape_eq_ok, Tensor.map_shape_pieces, hcuts.joinedLength pre post, hx,
    Nat.sub_zero]
  intro p hp
  obtain ⟨y, hy, rfl⟩ := List.mem_map.1 hp
  exact (Tensor.type_of_mem_pieces hy).imp fun e he => congrArg TensorType.shape he

/-- The slices that cut an axis are joined to the tensor. -/
theorem yields_concat_pieces [FloatProduct] (hx : x.shape = pre ++ d :: post)
    (hs : x.shape.addressable = true) (hcuts : Span.Cuts 0 d spans) (hne : spans ≠ []) :
    (concat pre.length).Yields preferred (x.pieces pre post spans) x := by
  obtain ⟨first, rest, hcons⟩ : ∃ first rest, x.pieces pre post spans = first :: rest :=
    List.exists_cons_of_ne_nil (by simpa [Tensor.pieces] using hne)
  have hshape := concatShape_pieces hx hcuts hcons
  have hdtype : ∀ y ∈ first :: rest, y.dtype = x.dtype := by
    intro y hy
    obtain ⟨e, he⟩ := Tensor.type_of_mem_pieces (hcons ▸ hy)
    exact congrArg TensorType.dtype he
  obtain ⟨hfirst, hrest⟩ := List.forall_mem_cons.1 hdtype
  have hinfer := infer_concat_eq preferred (fun y hy => (hrest y hy).trans hfirst.symm) hshape
  obtain ⟨r, hr, htype⟩ := exists_evalConcat (d := x.dtype) hs hshape
  have has := Tensor.map_as_pieces x pre post spans
  rw [hcons] at has ⊢
  refine ⟨x.type, by rw [hinfer, hfirst]; rfl, ?_⟩
  obtain ⟨joined, hjoined, rfl⟩ := eval_concat_eq_ok.1 hr
  have hjoined : NDArray.concat pre.length _ = .ok joined := has ▸ hjoined
  rw [NDArray.eq_of_concat_slices hjoined (congrArg TensorType.shape htype) hx hcuts] at hr
  exact hr

/-- The slices at all positions of the first axis are stacked to the tensor. -/
theorem yields_stack_items [FloatProduct] (hx : x.shape = d :: s) (hs : x.shape.addressable = true)
    (hd : d ≠ 0) : stack.Yields preferred (x.items d s) x := by
  obtain ⟨first, rest, hcons⟩ : ∃ first rest, x.items d s = first :: rest :=
    List.exists_cons_of_ne_nil (by simpa [Tensor.items] using hd)
  have htypes : ∀ y ∈ first :: rest, y.type = ⟨s, x.dtype⟩ := fun y hy =>
    Tensor.type_of_mem_items (hcons ▸ hy)
  obtain ⟨hfirst, hrest⟩ := List.forall_mem_cons.1 htypes
  have hshape : (rest.length + 1) :: first.shape = x.shape := by
    have hlen := congrArg List.length hcons
    rw [Tensor.items, List.length_map, List.length_range, List.length_cons] at hlen
    rw [← hlen, hx, show first.shape = s from congrArg TensorType.shape hfirst]
  have hdtype : first.dtype = x.dtype := congrArg TensorType.dtype hfirst
  have hsame : ∀ y ∈ rest, y.type = first.type := fun y hy => (hrest y hy).trans hfirst.symm
  have hinfer := infer_stack_eq preferred hsame
  have hshapes : ∀ y ∈ rest, y.shape = first.shape := fun y hy =>
    congrArg TensorType.shape (hsame y hy)
  obtain ⟨r, hr, htype⟩ := exists_evalStack (d := x.dtype) hshapes (hshape ▸ hs)
  rw [hshape] at hinfer hr htype
  have has := Tensor.map_as_items x d s
  rw [hcons] at has ⊢
  refine ⟨x.type, by rw [hinfer, hdtype]; rfl, ?_⟩
  obtain ⟨stacked, hstacked, rfl⟩ := eval_stack_eq_ok.1 hr
  have hstacked : NDArray.stack _ = .ok stacked := has ▸ hstacked
  rw [NDArray.eq_of_stack_slices hstacked (congrArg TensorType.shape htype) hx] at hr
  exact hr

/-- However an axis is cut, its slices exist and are joined to the tensor. -/
theorem exists_slices_concat [FloatProduct] {axis : Nat} (hs : x.shape.addressable = true)
    (haxis : axis < x.shape.length) (hcuts : Span.Cuts 0 (x.shape.getD axis 0) spans)
    (hne : spans ≠ []) :
    ∃ parts, List.Forall₂ (fun (span : Span) part =>
        (slice (.along x.shape.length axis span.start span.stop)).Yields preferred [x] part)
      spans parts ∧ (concat axis).Yields preferred parts x := by
  obtain ⟨pre, d, post, hx, rfl⟩ : ∃ pre d post, x.shape = pre ++ d :: post ∧ pre.length = axis :=
    ⟨x.shape.take axis, x.shape[axis], x.shape.drop (axis + 1),
      by rw [← List.drop_eq_getElem_cons haxis, List.take_append_drop],
      List.length_take_of_le haxis.le⟩
  have hd : x.shape.getD pre.length 0 = d := by simp [hx]
  rw [hd] at hcuts
  refine ⟨x.pieces pre post spans, ?_, yields_concat_pieces hx hs hcuts hne⟩
  refine List.forall₂_map_right_iff.2 (List.forall₂_same.2 fun span hspan => ?_)
  obtain ⟨hle, hstop⟩ := hcuts.of_mem hspan
  have hw := Selection.resolve_along pre post hle hstop
  rw [← hx] at hw
  exact yields_slice hw rfl

/-- The slices at all positions of the first axis exist and are stacked to the tensor. -/
theorem exists_slices_stack [FloatProduct] (hx : x.shape = d :: s) (hs : x.shape.addressable = true)
    (hd : d ≠ 0) :
    ∃ parts, List.Forall₂ (fun (i : Nat) part => (slice [.point i]).Yields preferred [x] part)
      (List.range d) parts ∧ stack.Yields preferred parts x := by
  refine ⟨x.items d s, ?_, yields_stack_items hx hs hd⟩
  refine List.forall₂_map_right_iff.2 (List.forall₂_same.2 fun i hi => ?_)
  exact yields_slice (hx ▸ Selection.resolve_point (List.mem_range.1 hi)) rfl

/-- Slices of joined and of stacked operands are the operands in their common type, provided that
the result can be addressed; and the slices of a tensor, joined or stacked, are the tensor. -/
theorem joining_splitting [FloatProduct] (preferred : DType) :
    (∀ axis args out, (concat axis).infer (List.map Tensor.type args) preferred = .ok out →
      out.shape.addressable = true → ∃ r, (concat axis).eval args out = .ok r ∧
        ∀ i x start, args[i]? = some x →
          start = Shape.joinedLength axis ((args.take i).map Tensor.shape) →
          (slice (.along x.shape.length axis start (start + x.shape.getD axis 0))).Yields preferred
            [r] (x.cast out.dtype)) ∧
    (∀ args out, stack.infer (List.map Tensor.type args) preferred = .ok out →
      out.shape.addressable = true → ∃ r, stack.eval args out = .ok r ∧
        ∀ (i : Nat) x, args[i]? = some x →
          (slice [.point i]).Yields preferred [r] (x.cast out.dtype)) ∧
    (∀ x axis spans, Shape.addressable (Tensor.shape x) = true → axis < x.shape.length →
      Span.Cuts 0 (x.shape.getD axis 0) spans → spans ≠ [] →
      ∃ parts, List.Forall₂ (fun (span : Span) part =>
          (slice (.along x.shape.length axis span.start span.stop)).Yields preferred [x] part)
        spans parts ∧ (concat axis).Yields preferred parts x) ∧
    ∀ x d s, Tensor.shape x = d :: s → x.shape.addressable = true → d ≠ 0 →
      ∃ parts, List.Forall₂ (fun (i : Nat) part => (slice [.point i]).Yields preferred [x] part)
        (List.range d) parts ∧ stack.Yields preferred parts x := by
  refine ⟨fun axis args out hinfer hout => ?_, fun args out hinfer hout => ?_,
    fun x axis spans => exists_slices_concat, fun x d s => exists_slices_stack⟩
  · obtain ⟨r, hr, -⟩ := exists_eval_of_needsFloat_eq_false rfl hout hinfer
    exact ⟨r, hr, fun i x start => yields_slice_of_concat hinfer hr⟩
  · obtain ⟨r, hr, -⟩ := exists_eval_of_needsFloat_eq_false rfl hout hinfer
    exact ⟨r, hr, fun i x => yields_slice_of_stack hinfer hr⟩

/-- Integers and Booleans are joined, stacked and taken apart, some of them without elements, and
two rows are cut into columns, of which one is cut off empty, and into rows. -/
theorem joining_splitting_vectors :
    (∃ r, (concat 0).eval [.vector .i64 [5, 6], .vector .bool [], .vector .bool [true]]
        ⟨[3], .i64⟩ = .ok r ∧
      (slice [.range 2 3 1]).Yields .f64 [r] (.vector .i64 [1])) ∧
    (∃ r, stack.eval [.vector .i64 [5, 6], .vector .bool [true, false]] ⟨[2, 2], .i64⟩ = .ok r ∧
      (slice [.point 1]).Yields .f64 [r] (.vector .i64 [1, 0])) ∧
    (∃ columns, List.Forall₂ (fun (span : Span) part =>
        (slice [.whole, .range span.start span.stop 1]).Yields .f64
          [⟨.i64, [2, 2], [1, 2, 3, 4], rfl⟩] part) [⟨0, 1⟩, ⟨1, 1⟩, ⟨1, 2⟩] columns ∧
      (concat 1).Yields .f64 columns ⟨.i64, [2, 2], [1, 2, 3, 4], rfl⟩) ∧
    ∃ rows, List.Forall₂ (fun (i : Nat) part => (slice [.point i]).Yields .f64
        [⟨.i64, [2, 2], [1, 2, 3, 4], rfl⟩] part) [0, 1] rows ∧
      stack.Yields .f64 rows ⟨.i64, [2, 2], [1, 2, 3, 4], rfl⟩ := by
  obtain ⟨hconcat, hstack, hcolumns, hrows⟩ := joining_splitting .f64
  obtain ⟨joined, hjoined, hparts⟩ := hconcat 0
    [.vector .i64 [5, 6], .vector .bool [], .vector .bool [true]] ⟨[3], .i64⟩ rfl rfl
  obtain ⟨stacked, hstacked, hitems⟩ := hstack
    [.vector .i64 [5, 6], .vector .bool [true, false]] ⟨[2, 2], .i64⟩ rfl rfl
  refine ⟨⟨joined, hjoined, hparts 2 _ 2 rfl rfl⟩, ⟨stacked, hstacked, hitems 1 _ rfl⟩, ?_, ?_⟩
  · exact hcolumns ⟨.i64, [2, 2], [1, 2, 3, 4], rfl⟩ 1 [⟨0, 1⟩, ⟨1, 1⟩, ⟨1, 2⟩] rfl (by decide)
      (.cons (by decide) (.cons (by decide) (.cons (by decide) (.nil 2)))) (by decide)
  · exact hrows ⟨.i64, [2, 2], [1, 2, 3, 4], rfl⟩ 2 [2] rfl rfl (by decide)

/-- Operands without elements can be joined by inference alone: the joined axis is too long for
the result to be addressed, so that there is nothing to slice. -/
theorem not_exists_eval_concat :
    ¬ ∀ axis args out preferred, (∀ x ∈ args, Shape.addressable (Tensor.shape x) = true) →
      (concat axis).infer (List.map Tensor.type args) preferred = .ok out →
      ∃ r, (concat axis).eval args out = .ok r ∧
        ∀ i x start, args[i]? = some x →
          start = Shape.joinedLength axis ((args.take i).map Tensor.shape) →
          (slice (.along x.shape.length axis start (start + x.shape.getD axis 0))).Yields preferred
            [r] (x.cast out.dtype) := by
  intro h
  obtain ⟨r, hr, -⟩ := h 1 (List.replicate 2 ⟨.f64, [0, 4611686018427387904], [], rfl⟩)
    ⟨[0, 9223372036854775808], .f64⟩ .f64 (List.forall_mem_replicate.2 (.inr rfl)) rfl
  cases hr

end Op
end ArrayTrace
