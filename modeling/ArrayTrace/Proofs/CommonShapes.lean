import ArrayTrace.Proofs.Lenses

/-!
# The least common shape

Shapes are ordered by what they broadcast to. The shape that some shapes broadcast to together
is the least one above all of them, and there is one as soon as there is any shape above them.
Therefore neither the order nor the repetition of the shapes counts, they can be combined two at
a time, and an array broadcasts to a shape just when that shape is the common one.

## Main definitions

* `Shape.BroadcastsTo` — the order: lengths are compared from the last axis on.
* `Shape.IsBound`, `Shape.IsLeastBound` — shapes above all the given ones.
-/

namespace ArrayTrace
namespace Shape
variable {r s t out : Shape} {shapes : List Shape}

/-- Each axis of `s` has the length of the axis of `t` that it is aligned with, or length 1. The
last axes are aligned. -/
def BroadcastsTo (s t : Shape) : Prop :=
  ∃ front rest, t = front ++ rest ∧ List.Forall₂ (fun d e => d = e ∨ d = 1) s rest

/-- All shapes broadcast to `t`. -/
def IsBound (shapes : List Shape) (t : Shape) : Prop := ∀ s ∈ shapes, s.BroadcastsTo t

/-- All shapes broadcast to `out`, and `out` to any other shape that they broadcast to. -/
structure IsLeastBound (shapes : List Shape) (out : Shape) : Prop where
  bound : IsBound shapes out
  least : ∀ t, IsBound shapes t → out.BroadcastsTo t

theorem BroadcastsTo.refl (s : Shape) : s.BroadcastsTo s := spreadsTo_iff.1 (spreadsTo_refl s)

theorem BroadcastsTo.trans (hrs : r.BroadcastsTo s) (hst : s.BroadcastsTo t) : r.BroadcastsTo t :=
  spreadsTo_iff.1 (spreadsTo_trans (spreadsTo_iff.2 hrs) (spreadsTo_iff.2 hst))

/-! ## Lengths from the last axis on -/

/-- Length of the axis that `i` axes follow; axes that are missing count as 1. -/
def trailingDim (s : Shape) (i : Nat) : Nat := s.reverse[i]?.getD 1

theorem trailingDim_of_le {i : Nat} (h : s.length ≤ i) : s.trailingDim i = 1 := by
  simp [trailingDim, h]

theorem trailingDim_eq_getElem {i : Nat} (h : i < s.length) :
    s.trailingDim i = s[s.length - 1 - i] := by
  rw [trailingDim, List.getElem?_reverse h, List.getElem?_eq_getElem (by omega), Option.getD_some]

theorem trailingDim_sub {i : Nat} (h : i < s.length) : s.trailingDim (s.length - 1 - i) = s[i] := by
  have hindex : s.length - 1 - (s.length - 1 - i) = i := by omega
  rw [trailingDim_eq_getElem (by omega)]
  simp only [hindex]

theorem trailingDim_append {i : Nat} (h : i < t.length) :
    trailingDim (s ++ t) i = t.trailingDim i := by
  rw [trailingDim, List.reverse_append, List.getElem?_append_left (by simpa using h), trailingDim]

theorem ext_trailingDim (hlen : s.length = t.length)
    (h : ∀ i, s.trailingDim i = t.trailingDim i) : s = t := by
  refine List.ext_getElem hlen fun i hs ht => ?_
  rw [← trailingDim_sub hs, ← trailingDim_sub ht, h, hlen]

/-- Aligned with the axes of a common rank, the lengths are those from the last axis on. -/
theorem alignedDim_eq_trailingDim {rank i : Nat} (hi : i < rank) :
    alignedDim rank i s = s.trailingDim (rank - 1 - i) := by
  rw [alignedDim]
  split
  · rw [trailingDim_of_le (by omega)]
  · have hindex : s.length - 1 - (rank - 1 - i) = i + s.length - rank := by omega
    rw [trailingDim, List.getElem?_reverse (by omega), hindex, List.getD_eq_getElem?_getD]

theorem broadcastsTo_iff : s.BroadcastsTo t ↔ s.length ≤ t.length ∧
    ∀ i, s.trailingDim i = t.trailingDim i ∨ s.trailingDim i = 1 := by
  constructor
  · rintro ⟨front, rest, rfl, h⟩
    have hlen := h.length_eq
    refine ⟨by rw [List.length_append]; omega, fun i => ?_⟩
    by_cases hi : i < s.length
    · have hget := (List.forall₂_iff_get.1 h).2 (s.length - 1 - i) (by omega) (by omega)
      rw [trailingDim_append (hlen ▸ hi), trailingDim_eq_getElem hi,
        trailingDim_eq_getElem (hlen ▸ hi)]
      simpa [hlen] using hget
    · exact .inr (trailingDim_of_le (Nat.not_lt.1 hi))
  · rintro ⟨hle, h⟩
    obtain ⟨front, rest, rfl, hlen⟩ : ∃ front rest, t = front ++ rest ∧ rest.length = s.length :=
      ⟨t.take (t.length - s.length), t.drop (t.length - s.length),
        (List.take_append_drop _ _).symm, by rw [List.length_drop]; omega⟩
    refine ⟨front, rest, rfl, List.forall₂_iff_get.2 ⟨hlen.symm, fun i hs hrest => ?_⟩⟩
    have hi := h (s.length - 1 - i)
    rw [trailingDim_append (by omega), trailingDim_sub hs, ← hlen, trailingDim_sub hrest] at hi
    exact hi

theorem BroadcastsTo.antisymm (hst : s.BroadcastsTo t) (hts : t.BroadcastsTo s) : s = t := by
  obtain ⟨hle, hdims⟩ := broadcastsTo_iff.1 hst
  obtain ⟨hge, hdims'⟩ := broadcastsTo_iff.1 hts
  refine ext_trailingDim (Nat.le_antisymm hle hge) fun i => ?_
  have := hdims i
  have := hdims' i
  omega

theorem IsLeastBound.unique (hs : IsLeastBound shapes s) (ht : IsLeastBound shapes t) : s = t :=
  (hs.least t ht.bound).antisymm (ht.least s hs.bound)

/-- What a least common shape broadcasts to are the shapes above it. -/
theorem IsLeastBound.broadcastsTo_iff (h : IsLeastBound shapes out) :
    out.BroadcastsTo t ↔ IsBound shapes t :=
  ⟨fun ht s hs => (h.bound s hs).trans ht, h.least t⟩

/-! ## The computed shape -/

theorem mergeDim_eq_some_iff {c d e : Nat} :
    mergeDim c d = some e ↔ (c = e ∨ c = 1) ∧ (d = e ∨ d = 1) ∧ (e = c ∨ e = d) := by
  rw [mergeDim]
  split
  · rw [Option.some_inj]
    omega
  · split
    · rw [Option.some_inj]
      omega
    · simp only [reduceCtorEq, false_iff]
      omega

/-- Lengths merge to the one among them that they all agree with, apart from lengths of 1. -/
theorem foldlM_mergeDim_eq_some_iff {ds : List Nat} {c e : Nat} :
    ds.foldlM mergeDim c = some e ↔
      (c = e ∨ c = 1) ∧ (∀ d ∈ ds, d = e ∨ d = 1) ∧ (e = c ∨ e ∈ ds) := by
  induction ds generalizing c with
  | nil => simp [eq_comm]; omega
  | cons d ds ih =>
    rw [List.foldlM_cons, Option.bind_eq_bind, Option.bind_eq_some_iff, List.forall_mem_cons,
      List.mem_cons]
    simp only [mergeDim_eq_some_iff, ih]
    constructor
    · rintro ⟨c', ⟨hc, hd, hc'⟩, hstep, hds, hmem⟩
      refine ⟨by omega, ⟨by omega, hds⟩, ?_⟩
      rcases hmem with rfl | hmem
      · exact hc'.imp_right .inl
      · exact .inr (.inr hmem)
    · rintro ⟨hc, ⟨hd, hds⟩, hmem⟩
      -- The length so far stays as long as only ones were merged, and is `e` afterwards.
      by_cases hone : c = 1 ∧ d = 1
      · obtain ⟨rfl, rfl⟩ := hone
        exact ⟨1, by omega, hc, hds, hmem.elim .inl id⟩
      · exact ⟨e, by omega, .inl rfl, hds, .inl rfl⟩

theorem exists_foldlM_mergeDim {ds : List Nat} {e : Nat} (h : ∀ d ∈ ds, d = e ∨ d = 1) :
    ∃ e', ds.foldlM mergeDim 1 = some e' := by
  by_cases he : e ∈ ds
  · exact ⟨e, foldlM_mergeDim_eq_some_iff.2 ⟨.inr rfl, h, .inr he⟩⟩
  · refine ⟨1, foldlM_mergeDim_eq_some_iff.2 ⟨.inl rfl, fun d hd => ?_, .inl rfl⟩⟩
    exact .inr ((h d hd).resolve_left fun hde => he (hde ▸ hd))

/-- There is a common shape as soon as there is a bound. -/
theorem exists_broadcast? (hne : shapes ≠ []) (ht : IsBound shapes t) :
    ∃ out, broadcast? shapes = some out := by
  rw [broadcast?]
  split
  · rename_i hmax
    exact absurd (List.map_eq_nil_iff.1 (List.max?_eq_none_iff.1 hmax)) hne
  · rename_i rank hmax
    refine exists_mapM_eq_some fun i hi => ?_
    refine exists_foldlM_mergeDim (e := t.trailingDim (rank - 1 - i)) fun d hd => ?_
    obtain ⟨s, hs, rfl⟩ := List.mem_map.1 hd
    rw [alignedDim_eq_trailingDim (List.mem_range.1 hi)]
    exact (broadcastsTo_iff.1 (ht s hs)).2 _

/-- The common shape has as many axes as one of the shapes, and their lengths are merged axis by
axis. -/
theorem dims_of_broadcast? (h : broadcast? shapes = some out) :
    (∃ s ∈ shapes, s.length = out.length) ∧ ∀ i < out.length,
      (shapes.map fun s => s.trailingDim i).foldlM mergeDim 1 = some (out.trailingDim i) := by
  rw [broadcast?] at h
  split at h
  · cases h
  · rename_i rank hmax
    obtain ⟨hlen, hdims⟩ := List.forall₂_iff_get.1 (mapM_eq_some.1 h)
    obtain rfl : rank = out.length := by simpa using hlen
    refine ⟨List.mem_map.1 (List.max?_eq_some_iff.1 hmax).1, fun i hi => ?_⟩
    have hlast : out.length - 1 - i < out.length := by omega
    have haligned : alignedDim out.length (out.length - 1 - i) = fun s => s.trailingDim i := by
      funext s
      rw [alignedDim_eq_trailingDim hlast, show out.length - 1 - (out.length - 1 - i) = i by omega]
    have hfold := hdims (out.length - 1 - i) (by simpa using hlast) hlast
    simpa only [List.get_eq_getElem, List.getElem_range, haligned, ← trailingDim_eq_getElem hi]
      using hfold

theorem isLeastBound_of_broadcast? (h : broadcast? shapes = some out) :
    IsLeastBound shapes out where
  bound s hs := spreadsTo_iff.1 (spreadsTo_of_broadcast? h hs)
  least t ht := by
    obtain ⟨⟨s, hs, hlen⟩, hdims⟩ := dims_of_broadcast? h
    refine broadcastsTo_iff.2 ⟨hlen ▸ (broadcastsTo_iff.1 (ht s hs)).1, fun i => ?_⟩
    by_cases hi : i < out.length
    · obtain ⟨-, -, hone | hmem⟩ := foldlM_mergeDim_eq_some_iff.1 (hdims i hi)
      · exact .inr hone
      · obtain ⟨r, hr, hdim⟩ := List.mem_map.1 hmem
        exact hdim ▸ (broadcastsTo_iff.1 (ht r hr)).2 i
    · exact .inr (trailingDim_of_le (Nat.not_lt.1 hi))

/-- The computed shape is the least common one. -/
theorem broadcast?_eq_some_iff (hne : shapes ≠ []) :
    broadcast? shapes = some out ↔ IsLeastBound shapes out := by
  refine ⟨isLeastBound_of_broadcast?, fun h => ?_⟩
  obtain ⟨out', hout'⟩ := exists_broadcast? hne h.bound
  rw [hout', (isLeastBound_of_broadcast? hout').unique h]

/-! ## Consequences -/

theorem broadcastsTo_iff_broadcast? : s.BroadcastsTo t ↔ broadcast? [s, t] = some t := by
  rw [broadcast?_eq_some_iff (List.cons_ne_nil _ _)]
  refine ⟨fun h => ⟨?_, fun u hu => hu t (by simp)⟩, fun h => h.bound s List.mem_cons_self⟩
  exact List.forall_mem_cons.2 ⟨h, List.forall_mem_singleton.2 (.refl t)⟩

/-- The common shape is determined by the shapes above all the given ones. -/
theorem broadcast?_congr_bound {shapes' : List Shape} (hne : shapes ≠ []) (hne' : shapes' ≠ [])
    (h : ∀ t, IsBound shapes t ↔ IsBound shapes' t) : broadcast? shapes = broadcast? shapes' := by
  refine Option.ext fun out => ?_
  rw [broadcast?_eq_some_iff hne, broadcast?_eq_some_iff hne']
  constructor
  · exact fun hout => ⟨(h out).1 hout.bound, fun t ht => hout.least t ((h t).2 ht)⟩
  · exact fun hout => ⟨(h out).2 hout.bound, fun t ht => hout.least t ((h t).1 ht)⟩

/-- Neither the order of the shapes counts nor how often they are listed. -/
theorem broadcast?_congr {shapes' : List Shape} (h : ∀ s, s ∈ shapes ↔ s ∈ shapes') :
    broadcast? shapes = broadcast? shapes' := by
  by_cases hne : shapes = []
  · subst hne
    rw [List.eq_nil_iff_forall_not_mem.2 fun s hs => List.not_mem_nil ((h s).2 hs)]
  · have hne' : shapes' ≠ [] := by
      rintro rfl
      exact hne (List.eq_nil_iff_forall_not_mem.2 fun s hs => List.not_mem_nil ((h s).1 hs))
    exact broadcast?_congr_bound hne hne' fun t => by simp only [IsBound, h]

/-- The first two shapes can be replaced by their common one. -/
theorem broadcast?_pair (first second : Shape) (rest : List Shape) :
    ((broadcast? [first, second]).bind fun common => broadcast? (common :: rest)) =
      broadcast? (first :: second :: rest) := by
  cases hpair : broadcast? [first, second] with
  | none =>
    refine (Option.eq_none_iff_forall_ne_some.2 fun out hout => ?_).symm
    have hbound : IsBound [first, second] out := fun s hs =>
      (isLeastBound_of_broadcast? hout).bound s (List.mem_append_left rest hs)
    obtain ⟨common, hcommon⟩ := exists_broadcast? (List.cons_ne_nil _ _) hbound
    cases hpair.symm.trans hcommon
  | some common =>
    refine broadcast?_congr_bound (List.cons_ne_nil _ _) (List.cons_ne_nil _ _) fun t => ?_
    have hcommon := (isLeastBound_of_broadcast? hpair).broadcastsTo_iff (t := t)
    simp only [IsBound, List.forall_mem_cons, hcommon]
    simp [and_assoc]

/-- Shapes can be combined from left to right, two at a time. -/
theorem foldlM_broadcast? (first : Shape) (rest : List Shape) :
    rest.foldlM (fun common s => broadcast? [common, s]) first = broadcast? (first :: rest) := by
  induction rest generalizing first with
  | nil =>
    refine ((broadcast?_eq_some_iff (List.cons_ne_nil _ _)).2 ⟨?_, fun t ht => ?_⟩).symm
    · exact List.forall_mem_singleton.2 (.refl first)
    · exact ht first List.mem_cons_self
  | cons second rest ih =>
    rw [← broadcast?_pair, List.foldlM_cons]
    exact congrArg _ (funext ih)

end Shape

/-- An array repeated over one shape and then over another is repeated over the second. -/
theorem NDArray.broadcastTo_broadcastTo {α : Type} [Inhabited α] {a : NDArray α} {s t : Shape}
    (hs : a.shape.spreadsTo s = true) (ht : s.spreadsTo t = true) :
    (a.broadcastTo s).broadcastTo t = a.broadcastTo t := by
  refine ext_get rfl fun ix hix => ?_
  have hix : t.InBounds ix := hix
  have hlen : s.length ≤ ix.length := hix.length_eq ▸ Shape.length_le_of_spreadsTo ht
  calc ((a.broadcastTo s).broadcastTo t).get ix
      = (a.broadcastTo s).get (s.project ix) := get_broadcastTo hix
    _ = a.get (a.shape.project (s.project ix)) := get_broadcastTo (hix.project ht)
    _ = a.get (a.shape.project ix) := by rw [Shape.project_project hs hlen]
    _ = (a.broadcastTo t).get ix := (get_broadcastTo hix).symm

namespace Tensor
variable {x y z : Tensor} {s t : Shape}

/-- The shapes that a tensor broadcasts to are those that are common to it and themselves. -/
theorem exists_broadcastTo_iff (hs : s.addressable = true) :
    (∃ y, x.broadcastTo s = .ok y) ↔ Shape.broadcast? [x.shape, s] = some s := by
  rw [← Shape.broadcastsTo_iff_broadcast?]
  constructor
  · rintro ⟨y, hy⟩
    exact Shape.spreadsTo_iff.1 (broadcastTo_eq_ok_iff.1 hy).1.1
  · exact fun h => ⟨_, broadcastTo_eq_ok_iff.2 ⟨⟨Shape.spreadsTo_iff.2 h, hs⟩, rfl⟩⟩

/-- Broadcasting in two steps and in one give the same tensor. -/
theorem broadcastTo_trans (hy : x.broadcastTo s = .ok y) (hz : y.broadcastTo t = .ok z) :
    x.broadcastTo t = .ok z := by
  obtain ⟨⟨hxs, -⟩, rfl⟩ := broadcastTo_eq_ok_iff.1 hy
  obtain ⟨⟨hst, ht⟩, rfl⟩ := broadcastTo_eq_ok_iff.1 hz
  refine broadcastTo_eq_ok_iff.2 ⟨⟨Shape.spreadsTo_trans hxs hst, ht⟩, ?_⟩
  exact congrArg (Tensor.mk x.dtype) (NDArray.broadcastTo_broadcastTo hxs hst).symm

/-- The common shape is the least one that the shapes broadcast to, however they are listed and
combined, and tensors broadcast to the shapes that are common to theirs and themselves. -/
theorem common_shape_lawful (first : Shape) (rest : List Shape) :
    ((∃ out, Shape.broadcast? (first :: rest) = some out) ↔
      ∃ t, Shape.IsBound (first :: rest) t) ∧
    (∀ out, Shape.broadcast? (first :: rest) = some out →
      Shape.IsLeastBound (first :: rest) out) ∧
    (∀ shapes, (∀ s, s ∈ shapes ↔ s ∈ first :: rest) →
      Shape.broadcast? shapes = Shape.broadcast? (first :: rest)) ∧
    rest.foldlM (fun common s => Shape.broadcast? [common, s]) first =
      Shape.broadcast? (first :: rest) ∧
    (∀ x s, Shape.addressable s = true →
      ((∃ y, broadcastTo x s = .ok y) ↔ Shape.broadcast? [x.shape, s] = some s)) ∧
    ∀ x y z s t, broadcastTo x s = .ok y → broadcastTo y t = .ok z → broadcastTo x t = .ok z := by
  refine ⟨⟨fun ⟨out, hout⟩ => ⟨out, (Shape.isLeastBound_of_broadcast? hout).bound⟩,
    fun ⟨t, ht⟩ => Shape.exists_broadcast? (List.cons_ne_nil _ _) ht⟩,
    fun out => Shape.isLeastBound_of_broadcast?, fun shapes => Shape.broadcast?_congr,
    Shape.foldlM_broadcast? first rest, fun x s => exists_broadcastTo_iff,
    fun x y z s t => broadcastTo_trans⟩

/-- A column, a row and a single number have a common shape, which the row broadcasts to, and from
there to two layers. -/
theorem common_shape_column_row :
    Shape.IsLeastBound [[2, 1], [3], []] [2, 3] ∧
    Shape.broadcast? [[3], [], [3], [2, 1]] = some [2, 3] ∧
    (∃ y, (vector .i64 [1, 2, 3]).broadcastTo [2, 3] = .ok y) ∧
    (vector .i64 [1, 2, 3]).broadcastTo [2, 2, 3] =
      .ok ⟨.i64, [2, 2, 3], [1, 2, 3, 1, 2, 3, 1, 2, 3, 1, 2, 3], rfl⟩ := by
  obtain ⟨-, hleast, hcongr, -, hbroadcast, htrans⟩ := common_shape_lawful [2, 1] [[3], []]
  have hrow : (vector .i64 [1, 2, 3]).broadcastTo [2, 3] =
      .ok ⟨.i64, [2, 3], [1, 2, 3, 1, 2, 3], rfl⟩ := rfl
  refine ⟨hleast _ rfl, (hcongr _ fun s => ?_).trans rfl, (hbroadcast _ _ rfl).2 rfl,
    htrans _ _ _ _ _ hrow rfl⟩
  simp only [List.mem_cons]
  tauto

end Tensor
end ArrayTrace
