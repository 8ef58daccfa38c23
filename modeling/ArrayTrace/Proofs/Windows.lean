import ArrayTrace.Tensor
import ArrayTrace.Proofs.Outcome

/-!
# Windows and the elements they select

A resolved selection lies within its shape. Selecting drops axes one by one and assigning puts
them back, but both relate one multi-index of the array to one of the selected part. Regions
that do not overlap share no element, so an assignment leaves alone what a window over another
region selects, and changes nothing at all when its region does not overlap the whole array.

## Main definitions

* `Window.Fits` — what resolving a selection makes sure of.
* `Window.source`, `Window.relative` — from the selected part to the array, and back.
* `NDArray.assign` — an assignment, element by element.
-/

namespace ArrayTrace

/-- A span within an axis of length `d`, of one position if the axis is dropped. -/
structure AxisWindow.Fits (a : AxisWindow) (d : Nat) : Prop where
  start_le : a.span.start ≤ a.span.stop
  stop_le : a.span.stop ≤ d
  length_of_dropped : a.kept = false → a.span.length = 1

/-- One window per axis, each within it. -/
def Window.Fits (w : Window) (s : Shape) : Prop := List.Forall₂ AxisWindow.Fits w s

namespace Window

/-- Whether a multi-index of the array lies in the region. -/
def contains (w : Window) (ix : List Nat) : Bool :=
  (w.zip ix).all fun (a, i) => a.span.contains i

/-- Multi-index in the array of a multi-index in the selected part. -/
def source : Window → List Nat → List Nat
  | [], _ => []
  | a :: w, is =>
    if a.kept then
      match is with
      | i :: is => (a.span.start + i) :: source w is
      | [] => a.span.start :: source w []
    else a.span.start :: source w is

/-- Multi-index in the selected part of a multi-index in the region. -/
def relative : Window → List Nat → List Nat
  | a :: w, i :: is =>
    if a.kept then (i - a.span.start) :: relative w is else relative w is
  | _, _ => []

/-- Multi-index in the region, counted from where it starts, of a multi-index in the selected
part. -/
def expand : Window → List Nat → List Nat
  | [], _ => []
  | a :: w, is =>
    if a.kept then is.headD 0 :: expand w is.tail else 0 :: expand w is

end Window

/-! ## Resolved selections -/

theorem AxisWindow.fits_whole (d : Nat) : AxisWindow.Fits ⟨⟨0, d⟩, true⟩ d :=
  ⟨Nat.zero_le d, Nat.le_refl d, nofun⟩

theorem Selector.fits_of_resolve {s : Selector} {axis d : Nat} {a : AxisWindow}
    (h : s.resolve axis d = .ok a) : a.Fits d := by
  cases s with
  | whole =>
    cases h
    exact AxisWindow.fits_whole d
  | point i =>
    simp only [Selector.resolve] at h
    split at h
    · cases h
    · split at h
      · cases h
      · cases h
        exact ⟨Nat.le_succ _, by simp only; omega, fun _ => by simp [Span.length]⟩
  | range b e step =>
    simp only [Selector.resolve] at h
    split at h
    · cases h
    · split at h
      · cases h
      · split at h
        · cases h
        · split at h
          · cases h
          · cases h
            exact ⟨by simp only; omega, by simp only; omega, nofun⟩

theorem Selection.fits_of_resolveFrom {s : Selection} {axis : Nat} {shape : Shape} {w : Window}
    (h : s.resolveFrom axis shape = .ok w) : w.Fits shape := by
  induction shape generalizing s axis w with
  | nil =>
    cases s <;> cases h <;> exact .nil
  | cons d ds ih =>
    cases s with
    | nil =>
      obtain ⟨rest, hrest, h⟩ := Except.bind_eq_ok.1 h
      cases h
      exact .cons (AxisWindow.fits_whole d) (ih hrest)
    | cons s ss =>
      obtain ⟨first, hfirst, h⟩ := Except.bind_eq_ok.1 h
      obtain ⟨rest, hrest, h⟩ := Except.bind_eq_ok.1 h
      cases h
      exact .cons (Selector.fits_of_resolve hfirst) (ih hrest)

theorem Selection.fits_of_resolve {s : Selection} {shape : Shape} {w : Window}
    (h : s.resolve shape = .ok w) : w.Fits shape := by
  rw [Selection.resolve] at h
  split at h
  · cases h
  · exact fits_of_resolveFrom h

/-! ## Elements of a region -/

theorem Shape.inBounds_iff {s : Shape} {ix : List Nat} :
    s.InBounds ix ↔ List.Forall₂ (· < ·) ix s := by
  induction s generalizing ix with
  | nil => cases ix <;> simp [InBounds]
  | cons d ds ih => cases ix <;> simp [InBounds, ih]

theorem Shape.InBounds.append {s t : Shape} {front back : List Nat} (hfront : s.InBounds front)
    (hback : t.InBounds back) : Shape.InBounds (s ++ t) (front ++ back) :=
  inBounds_iff.2 (List.rel_append (inBounds_iff.1 hfront) (inBounds_iff.1 hback))

theorem Window.shape_cons (a : AxisWindow) (w : Window) :
    shape (a :: w) = if a.kept then a.span.length :: shape w else shape w := by
  cases hk : a.kept <;> simp [shape, hk]

@[simp] theorem Region.contains_cons (s : Span) (r : Region) (i : Nat) (ix : List Nat) :
    Region.contains (s :: r) (i :: ix) = (s.contains i && Region.contains r ix) := rfl

theorem Region.contains_window_cons {a : AxisWindow} {w : Window} {i : Nat} {ix : List Nat} :
    Region.contains (Window.region (a :: w)) (i :: ix) = true ↔
      (a.span.start ≤ i ∧ i < a.span.stop) ∧ Region.contains (Window.region w) ix = true := by
  simp [Window.region, Span.contains]

namespace Window.Fits
variable {w : Window} {s : Shape} {ix : List Nat}

/-- The region of a window lies within the array. -/
theorem inBounds (h : w.Fits s) (hlen : ix.length = w.length) (hix : w.region.contains ix = true) :
    s.InBounds ix := by
  induction h generalizing ix with
  | nil => rw [List.eq_nil_of_length_eq_zero hlen]; trivial
  | @cons a d w s ha _ ih =>
    cases ix with
    | nil => cases hlen
    | cons i ix =>
      have hcontains := Region.contains_window_cons.1 hix
      have hstop := ha.stop_le
      exact ⟨by omega, ih (Nat.succ.inj hlen) hcontains.2⟩

/-- Indices within the region lead to indices within the selected part. -/
theorem inBounds_relative (h : w.Fits s) (hlen : ix.length = w.length)
    (hix : w.region.contains ix = true) : w.shape.InBounds (w.relative ix) := by
  induction h generalizing ix with
  | nil => rw [List.eq_nil_of_length_eq_zero hlen]; trivial
  | @cons a d w s ha _ ih =>
    cases ix with
    | nil => cases hlen
    | cons i ix =>
      have hcontains := Region.contains_window_cons.1 hix
      have hrest := ih (Nat.succ.inj hlen) hcontains.2
      rw [Window.shape_cons, Window.relative]
      split
      · exact ⟨by rw [Span.length]; omega, hrest⟩
      · exact hrest

end Window.Fits

theorem Region.overlaps_cons (x y : Span) (a b : Region) :
    Region.overlaps (x :: a) (y :: b) = (x.overlaps y && Region.overlaps a b) := rfl

theorem Window.contains_eq (w : Window) (ix : List Nat) : w.contains ix = w.region.contains ix := by
  induction w generalizing ix with
  | nil => rfl
  | cons a w ih =>
    cases ix with
    | nil => rfl
    | cons i ix =>
      have h := ih ix
      simp only [Window.contains] at h
      simp [Window.contains, Window.region, h]

theorem Span.overlaps_of_contains {a b : Span} {i : Nat} (ha : a.contains i = true)
    (hb : b.contains i = true) : a.overlaps b = true := by
  simp only [Span.contains, Span.overlaps, Bool.and_eq_true, decide_eq_true_eq] at *
  omega

/-- Regions that share a multi-index overlap. -/
theorem Region.overlaps_of_contains {a b : Region} {ix : List Nat} (hlen : a.length = ix.length)
    (ha : a.contains ix = true) (hb : b.contains ix = true) : a.overlaps b = true := by
  induction ix generalizing a b with
  | nil =>
    obtain rfl : a = [] := List.eq_nil_of_length_eq_zero hlen
    rfl
  | cons i ix ih =>
    cases a with
    | nil => cases hlen
    | cons x a =>
      cases b with
      | nil => rfl
      | cons y b =>
        simp only [Region.contains_cons, Bool.and_eq_true] at ha hb
        have hx := Span.overlaps_of_contains ha.1 hb.1
        have hrest := ih (by simpa using hlen) ha.2 hb.2
        rw [Region.overlaps_cons, hx, hrest]
        rfl

/-- A region holds no element of one that it does not overlap. -/
theorem Region.contains_eq_false {a b : Region} {ix : List Nat} (hlen : a.length = ix.length)
    (ha : a.contains ix = true) (h : a.overlaps b = false) : b.contains ix = false := by
  by_contra hb
  rw [Bool.not_eq_false] at hb
  have hoverlaps := Region.overlaps_of_contains hlen ha hb
  rw [h] at hoverlaps
  cases hoverlaps

theorem Window.Fits.contains_eq_false {w w' : Window} {s : Shape} {ix : List Nat} (hw : w.Fits s)
    (hix : s.InBounds ix) (hin : w.contains ix = true)
    (h : w.region.overlaps w'.region = false) : w'.contains ix = false := by
  rw [Window.contains_eq] at hin ⊢
  have hlen : w.region.length = ix.length := by
    rw [Window.length_region, hw.length_eq, hix.length_eq]
  exact Region.contains_eq_false hlen hin h

theorem Region.contains_full {s : Shape} {ix : List Nat} (h : s.InBounds ix) :
    (Region.full s).contains ix = true := by
  induction s generalizing ix with
  | nil => rfl
  | cons d ds ih =>
    cases ix with
    | nil => exact absurd h id
    | cons i ix =>
      have hrest := ih h.2
      simp only [Region.full] at hrest
      simp [Region.full, Span.contains, h.1, hrest]

/-- A multi-index of the selected part has an entry for the first axis just if this is kept. -/
theorem AxisWindow.Fits.cases_inBounds {a : AxisWindow} {d : Nat} {w : Window} {ix : List Nat}
    (ha : a.Fits d) (h : Shape.InBounds (Window.shape (a :: w)) ix) :
    (a.kept = true ∧ ∃ i js, ix = i :: js ∧ i < a.span.length ∧ w.shape.InBounds js) ∨
      (a.kept = false ∧ a.span.length = 1 ∧ w.shape.InBounds ix) := by
  rw [Window.shape_cons] at h
  cases hk : a.kept with
  | true =>
    rw [if_pos hk] at h
    cases ix with
    | nil => exact absurd h id
    | cons i js => exact .inl ⟨rfl, i, js, rfl, h⟩
  | false =>
    rw [hk, if_neg Bool.false_ne_true] at h
    exact .inr ⟨rfl, ha.length_of_dropped hk, h⟩

/-- A multi-index of the selected part leads to an element of the region. -/
theorem Window.Fits.source_mem {w : Window} {s : Shape} (h : w.Fits s) {ix : List Nat}
    (hix : w.shape.InBounds ix) : s.InBounds (w.source ix) ∧ w.contains (w.source ix) = true := by
  induction h generalizing ix with
  | nil => exact ⟨trivial, rfl⟩
  | @cons a d w s ha hw ih =>
    have hstop := ha.stop_le
    obtain ⟨hk, i, ix, rfl, hi, hix⟩ | ⟨hk, hone, hix⟩ := ha.cases_inBounds hix
    · obtain ⟨hin, hcontains⟩ := ih hix
      rw [Span.length] at hi
      have hspan : a.span.contains (a.span.start + i) = true := by
        simp only [Span.contains, Bool.and_eq_true, decide_eq_true_eq]
        omega
      simp only [Window.contains] at hcontains
      refine ⟨?_, ?_⟩
      · simp only [Window.source, hk, if_true]
        exact ⟨by omega, hin⟩
      · simp [Window.source, hk, Window.contains, hspan, hcontains]
    · obtain ⟨hin, hcontains⟩ := ih hix
      rw [Span.length] at hone
      have hspan : a.span.contains a.span.start = true := by
        simp only [Span.contains, Bool.and_eq_true, decide_eq_true_eq]
        omega
      simp only [Window.contains] at hcontains
      refine ⟨?_, ?_⟩
      · simp only [Window.source, hk, Bool.false_eq_true, if_false]
        exact ⟨by omega, hin⟩
      · simp [Window.source, hk, Window.contains, hspan, hcontains]

/-! ## Dropped axes -/

@[simp] theorem Window.dims_cons (a : AxisWindow) (w : Window) :
    Region.dims (region (a :: w)) = a.span.length :: Region.dims (region w) := rfl

namespace Window
variable {w : Window} {ix : List Nat}

theorem zipWith_expand (w : Window) (ix : List Nat) :
    w.region.zipWith (fun s i => s.start + i) (w.expand ix) = w.source ix := by
  induction w generalizing ix with
  | nil => rfl
  | cons a w ih =>
    cases hk : a.kept with
    | true => cases ix <;> simpa [expand, source, hk, region] using ih _
    | false => simpa [expand, source, hk, region] using ih _

namespace Fits
variable {s : Shape}

theorem inBounds_expand (h : w.Fits s) (hix : w.shape.InBounds ix) :
    Shape.InBounds w.region.dims (w.expand ix) := by
  induction h generalizing ix with
  | nil => trivial
  | @cons a d w s ha _ ih =>
    obtain ⟨hk, i, ix, rfl, hi, hix⟩ | ⟨hk, hone, hix⟩ := ha.cases_inBounds hix
    · rw [expand, if_pos hk]
      exact ⟨hi, ih hix⟩
    · rw [expand, hk, if_neg Bool.false_ne_true]
      exact ⟨by omega, ih hix⟩

/-- Axes that are dropped have no effect on positions. -/
theorem size_dims (h : w.Fits s) : Shape.size w.region.dims = w.shape.size := by
  induction h with
  | nil => rfl
  | @cons a d w s ha _ ih =>
    rw [dims_cons, Shape.size_cons, ih, shape_cons]
    split
    · rfl
    · rw [ha.length_of_dropped (Bool.eq_false_iff.2 ‹_›), Nat.one_mul]

theorem offset_expand (h : w.Fits s) (hix : w.shape.InBounds ix) :
    Shape.offset w.region.dims (w.expand ix) = w.shape.offset ix := by
  induction h generalizing ix with
  | nil => cases ix <;> rfl
  | @cons a d w s ha hw ih =>
    rw [dims_cons, shape_cons, expand]
    obtain ⟨hk, i, ix, rfl, -, hix⟩ | ⟨hk, -, hix⟩ := ha.cases_inBounds hix
    · rw [if_pos hk, if_pos hk, Shape.offset, Shape.offset, List.tail_cons, ih hix, size_dims hw]
      rfl
    · rw [hk, if_neg Bool.false_ne_true, if_neg Bool.false_ne_true, Shape.offset, ih hix,
        Nat.zero_mul, Nat.zero_add]

theorem addressable_dims (h : w.Fits s) :
    Shape.addressable w.region.dims = w.shape.addressable := by
  have hsize : Shape.size (w.region.dims.filter (· ≠ 0)) = Shape.size (w.shape.filter (· ≠ 0)) := by
    induction h with
    | nil => rfl
    | @cons a d w s ha _ ih =>
      rw [dims_cons, shape_cons]
      split
      · by_cases hzero : a.span.length = 0
        · simpa [hzero] using ih
        · rw [List.filter_cons_of_pos (by simpa using hzero),
            List.filter_cons_of_pos (by simpa using hzero), Shape.size_cons, Shape.size_cons, ih]
      · rw [ha.length_of_dropped (Bool.eq_false_iff.2 ‹_›),
          List.filter_cons_of_pos (by decide), Shape.size_cons, Nat.one_mul, ih]
  rw [Shape.addressable, Shape.addressable, hsize]

/-- What a multi-index of the region comes from. -/
theorem expand_relative (h : w.Fits s) (hlen : ix.length = w.length)
    (hix : w.region.contains ix = true) :
    w.expand (w.relative ix) = w.region.zipWith (fun s i => i - s.start) ix := by
  induction h generalizing ix with
  | nil => rfl
  | @cons a d w s ha _ ih =>
    cases ix with
    | nil => cases hlen
    | cons i ix =>
      have hspan := Region.contains_window_cons.1 hix
      have hrest := ih (Nat.succ.inj hlen) hspan.2
      have hregion : (region (a :: w)).zipWith (fun s i => i - s.start) (i :: ix) =
          (i - a.span.start) :: (region w).zipWith (fun s i => i - s.start) ix := rfl
      rw [hregion, relative, expand]
      split
      · rw [List.headD_cons, List.tail_cons, hrest]
      · have hone := ha.length_of_dropped (Bool.eq_false_iff.2 ‹_›)
        rw [Span.length] at hone
        rw [hrest, show i - a.span.start = 0 by omega]

end Fits
end Window

namespace NDArray
variable {α : Type} [Inhabited α] {a b v : NDArray α} {w w' : Window} {ix : List Nat}

theorem dropAxes_cons (axis : Nat) (x : AxisWindow) (w : Window) (b : NDArray α) :
    b.dropAxes axis (Window.kept (x :: w)) =
      if x.kept then b.dropAxes (axis + 1) (Window.kept w)
      else (b.dropAxes (axis + 1) (Window.kept w)).indexAxis axis 0 := rfl

omit [Inhabited α] in
theorem eraseIdx_length_append (front : List α) (x : α) (back : List α) :
    (front ++ x :: back).eraseIdx front.length = front ++ back := by
  induction front with
  | nil => rfl
  | cons y front ih => exact congrArg (List.cons y) ih

/-- Dropping axes behind those of `pre` leaves the selected part behind them. -/
theorem shape_dropAxes {pre : Shape} (h : b.shape = pre ++ w.region.dims) :
    (b.dropAxes pre.length w.kept).shape = pre ++ w.shape := by
  induction w generalizing pre with
  | nil => exact h
  | cons a w ih =>
    have hb : b.shape = (pre ++ [a.span.length]) ++ Region.dims (Window.region w) := by
      rw [h, List.append_assoc]
      rfl
    have hrest := ih hb
    rw [List.length_append, List.length_singleton, List.append_assoc] at hrest
    rw [dropAxes_cons, Window.shape_cons]
    split
    · exact hrest
    · rw [indexAxis, shape_ofFn, hrest]
      exact eraseIdx_length_append pre _ _

/-- Dropped axes are read at 0. -/
theorem get_dropAxes {pre s : Shape} {front back : List Nat} (hw : w.Fits s)
    (h : b.shape = pre ++ w.region.dims) (hfront : pre.InBounds front)
    (hback : w.shape.InBounds back) :
    (b.dropAxes pre.length w.kept).get (front ++ back) = b.get (front ++ w.expand back) := by
  induction hw generalizing pre front back with
  | nil => rw [List.eq_nil_of_length_eq_zero hback.length_eq]; rfl
  | @cons a d w s ha hw ih =>
    have hb : b.shape = (pre ++ [a.span.length]) ++ Region.dims (Window.region w) := by
      rw [h, List.append_assoc]
      rfl
    have hlen : (pre ++ [a.span.length]).length = pre.length + 1 := List.length_append
    have hshape := shape_dropAxes hb
    rw [hlen, List.append_assoc] at hshape
    have hrest : ∀ {i js}, i < a.span.length → Shape.InBounds (Window.shape w) js →
        (b.dropAxes (pre.length + 1) (Window.kept w)).get (front ++ i :: js) =
          b.get (front ++ i :: Window.expand w js) := by
      intro i js hi hjs
      have hget := ih hb (hfront.append (show Shape.InBounds [a.span.length] [i] from
        ⟨hi, trivial⟩)) hjs
      rwa [hlen, List.append_assoc, List.append_assoc] at hget
    rw [dropAxes_cons, Window.expand]
    obtain ⟨hk, i, back, rfl, hi, hback⟩ | ⟨hk, hone, hback⟩ := ha.cases_inBounds hback
    · rw [if_pos hk, if_pos hk]
      exact hrest hi hback
    · rw [hk, if_neg Bool.false_ne_true, if_neg Bool.false_ne_true]
      have herase : (b.dropAxes (pre.length + 1) (Window.kept w)).shape.eraseIdx pre.length =
          pre ++ Window.shape w := by
        rw [hshape]
        exact eraseIdx_length_append pre _ _
      have hinsert : (front ++ back).insertIdx pre.length 0 = front ++ 0 :: back :=
        hfront.length_eq ▸ List.modifyTailIdx_add (List.cons 0) 0 front back
      rw [indexAxis, get_ofFn _ (herase ▸ hfront.append hback), hinsert]
      exact hrest (by omega) hback

@[simp] theorem shape_extract (a : NDArray α) (w : Window) : (a.extract w).shape = w.shape :=
  shape_dropAxes (show (a.slice w.region).shape = [] ++ w.region.dims from rfl)

/-- The element of the array that a multi-index of the selected part reads. -/
theorem get_extract (hw : w.Fits a.shape) (hix : w.shape.InBounds ix) :
    (a.extract w).get ix = a.get (w.source ix) := by
  have hget := get_dropAxes hw (show (a.slice w.region).shape = [] ++ w.region.dims from rfl)
    (show Shape.InBounds [] [] from trivial) hix
  rw [← w.zipWith_expand ix]
  exact hget.trans (get_ofFn _ (hw.inBounds_expand hix))

omit [Inhabited α] in
theorem reshape_eq_ok {s : Shape} {u : NDArray α} :
    v.reshape s = .ok u ↔ (s.addressable = true ∧ v.shape.size = s.size) ∧ u.shape = s ∧
      u.data = v.data := by
  rw [reshape]
  split
  · rename_i h
    refine ⟨fun hu => ⟨h, ?_⟩, fun hu => congrArg Except.ok (NDArray.ext hu.2.1.symm hu.2.2.symm)⟩
    cases hu
    exact ⟨rfl, rfl⟩
  · refine ⟨fun hu => ?_, fun hu => absurd hu.1 ‹_›⟩
    cases hu

/-- The selected part with the axes put back that it lacks. -/
theorem get_reshape {s : Shape} {u : NDArray α} (hw : w.Fits s) (hv : v.shape = w.shape)
    (hu : v.reshape w.region.dims = .ok u) (hix : w.shape.InBounds ix) :
    u.get (w.expand ix) = v.get ix := by
  obtain ⟨-, hshape, hdata⟩ := reshape_eq_ok.1 hu
  rw [get, get, hshape, hdata, hv, hw.offset_expand hix]

theorem get_overwrite {r : Region} (h : a.shape.InBounds ix) :
    (a.overwrite r v).get ix = if Region.contains r ix then
      v.get (r.zipWith (fun s i => i - s.start) ix) else a.get ix :=
  get_ofFn _ h

/-! ## Assignments and the elements they leave alone -/

/-- The array with the region of a window overwritten by `v`, which has the shape of the
selected part. -/
def assign (a : NDArray α) (w : Window) (v : NDArray α) : NDArray α :=
  ofFn a.shape fun ix => if w.contains ix then v.get (w.relative ix) else a.get ix

@[simp] theorem shape_assign : (a.assign w v).shape = a.shape := rfl

theorem get_assign (h : a.shape.InBounds ix) :
    (a.assign w v).get ix = if w.contains ix then v.get (w.relative ix) else a.get ix :=
  get_ofFn _ h

/-- Overwriting a region by a selected part with the axes put back assigns it. -/
theorem overwrite_eq_assign {u : NDArray α} (hw : w.Fits a.shape) (hv : v.shape = w.shape)
    (hu : v.reshape w.region.dims = .ok u) : a.overwrite w.region u = a.assign w v := by
  refine ext_get rfl fun ix hix => ?_
  have hix : a.shape.InBounds ix := hix
  rw [get_overwrite hix, get_assign hix, Window.contains_eq]
  split
  · have hlen : ix.length = w.length := by rw [hix.length_eq, hw.length_eq]
    rw [← hw.expand_relative hlen ‹_›, get_reshape hw hv hu (hw.inBounds_relative hlen ‹_›)]
  · rfl

/-- What a window selects is not affected by an assignment to a region apart from it. -/
theorem extract_assign_of_disjoint (hw' : w'.Fits a.shape)
    (h : w'.region.overlaps w.region = false) : (a.assign w v).extract w' = a.extract w' := by
  refine ext_get (by rw [shape_extract, shape_extract]) fun ix hix => ?_
  rw [shape_extract] at hix
  obtain ⟨hin, hcontains⟩ := hw'.source_mem hix
  have hout : w.contains (w'.source ix) = false := hw'.contains_eq_false hin hcontains h
  rw [get_extract hw' hix, get_extract (a := a.assign w v) hw' hix, get_assign hin, hout]
  rfl

/-- An assignment whose region does not meet the whole array changes nothing. -/
theorem assign_of_disjoint_full (h : (Region.full a.shape).overlaps w.region = false) :
    a.assign w v = a := by
  refine ext_get rfl fun ix hix => ?_
  have hix : a.shape.InBounds ix := hix
  have hlen : (Region.full a.shape).length = ix.length := by
    rw [Region.full, List.length_map, hix.length_eq]
  have hout : w.contains ix = false := by
    rw [Window.contains_eq]
    exact Region.contains_eq_false hlen (Region.contains_full hix) h
  rw [get_assign hix, hout]
  rfl

end NDArray

theorem NDArray.spread_eq_ok_iff {α : Type} [Inhabited α] {a b : NDArray α} {s : Shape} :
    a.spread s = .ok b ↔
      (a.shape.spreadsTo s = true ∧ s.addressable = true) ∧ a.broadcastTo s = b := by
  rw [spread]
  split
  · rename_i h
    simp [h]
  · rename_i h
    exact ⟨nofun, fun hok => absurd hok.1 h⟩

namespace Tensor
variable {x y v : Tensor} {w w' : Window}

@[simp] theorem type_extract (x : Tensor) (w : Window) : (x.extract w).type = ⟨w.shape, x.dtype⟩ :=
  congrArg (TensorType.mk · x.dtype) (x.array.shape_extract w)

/-- A value is assigned if it can be broadcast to the selected part. -/
theorem assign_eq_ok_iff (hw : w.Fits x.shape) : x.assign w v = .ok y ↔
    ∃ u, (v.as x.dtype).spread w.shape = .ok u ∧ y = ⟨x.dtype, x.array.assign w u⟩ := by
  have hreshape {u : NDArray x.dtype.Elem} (hu : (v.as x.dtype).spread w.shape = .ok u) :
      u.shape = w.shape ∧ ∃ u', u.reshape w.region.dims = .ok u' := by
    obtain ⟨⟨-, hs⟩, rfl⟩ := NDArray.spread_eq_ok_iff.1 hu
    exact ⟨rfl, _, dif_pos ⟨hw.addressable_dims.trans hs, hw.size_dims.symm⟩⟩
  rw [assign, Except.bind_eq_ok]
  refine exists_congr fun u => and_congr_right fun hu => ?_
  obtain ⟨hshape, u', hu'⟩ := hreshape hu
  rw [hu', ← NDArray.overwrite_eq_assign hw hshape hu']
  exact ⟨fun h => (Except.ok.inj h).symm, fun h => congrArg Except.ok h.symm⟩

theorem type_of_assign (h : x.assign w v = .ok y) : y.type = x.type := by
  obtain ⟨_, -, h⟩ := Except.bind_eq_ok.1 h
  obtain ⟨_, -, h⟩ := Except.bind_eq_ok.1 h
  cases h
  rfl

theorem extract_assign_of_disjoint (hw : w.Fits x.shape) (hw' : w'.Fits x.shape)
    (hdisjoint : w'.region.overlaps w.region = false) (h : x.assign w v = .ok y) :
    y.extract w' = x.extract w' := by
  obtain ⟨u, -, rfl⟩ := (assign_eq_ok_iff hw).1 h
  exact congrArg (Tensor.mk x.dtype) (NDArray.extract_assign_of_disjoint hw' hdisjoint)

theorem assign_of_disjoint_full (hw : w.Fits x.shape)
    (hdisjoint : (Region.full x.shape).overlaps w.region = false) (h : x.assign w v = .ok y) :
    y = x := by
  obtain ⟨u, -, rfl⟩ := (assign_eq_ok_iff hw).1 h
  exact congrArg (Tensor.mk x.dtype) (NDArray.assign_of_disjoint_full hdisjoint)

end Tensor
end ArrayTrace
