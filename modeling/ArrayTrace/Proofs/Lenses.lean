import ArrayTrace.Proofs.Rearrangement

/-!
# Regions are lenses

What is assigned to a region is what is selected there afterwards, assigning what is selected
changes nothing, and of two assignments to one region the second counts. Assignments to regions
that do not overlap leave alone what the other one is about, so they can be exchanged.
-/

namespace ArrayTrace

namespace NDArray
variable {α : Type} [Inhabited α] {a u v : NDArray α} {w w' : Window}

/-- What has been assigned to a region is selected there. -/
theorem extract_assign (hw : w.Fits a.shape) (hv : v.shape = w.shape) :
    (a.assign w v).extract w = v := by
  refine ext_get ((shape_extract _ w).trans hv.symm) fun ix hix => ?_
  rw [shape_extract] at hix
  obtain ⟨hin, hcontains⟩ := hw.source_mem hix
  rw [get_extract (a := a.assign w v) hw hix, get_assign hin, if_pos hcontains,
    hw.relative_source hix]

theorem broadcastTo_self (a : NDArray α) : a.broadcastTo a.shape = a := by
  refine ext_get rfl fun ix hix => ?_
  have hix : a.shape.InBounds ix := hix
  rw [get_broadcastTo hix, Shape.project_self hix]

/-- Assigning what a region holds changes nothing. -/
theorem assign_extract (hw : w.Fits a.shape) : a.assign w (a.extract w) = a := by
  refine ext_get rfl fun ix hix => ?_
  have hix : a.shape.InBounds ix := hix
  rw [get_assign hix]
  split
  · rename_i hcontains
    rw [Window.contains_eq] at hcontains
    have hlen : ix.length = w.length := by rw [hix.length_eq, hw.length_eq]
    rw [get_extract hw (hw.inBounds_relative hlen hcontains), hw.source_relative hlen hcontains]
  · rfl

theorem get_assign_assign {ix : List Nat} (hix : a.shape.InBounds ix) :
    ((a.assign w u).assign w' v).get ix = if w'.contains ix then v.get (w'.relative ix)
      else if w.contains ix then u.get (w.relative ix) else a.get ix := by
  rw [get_assign (show (a.assign w u).shape.InBounds ix from hix), get_assign hix]

/-- Of two assignments to one region the second counts. -/
theorem assign_assign : (a.assign w u).assign w v = a.assign w v := by
  refine ext_get rfl fun ix hix => ?_
  have hix : a.shape.InBounds ix := hix
  rw [get_assign_assign hix, get_assign hix]
  split <;> rfl

/-- Assignments to regions that do not overlap can be exchanged. -/
theorem assign_comm (hw : w.Fits a.shape) (h : w.region.overlaps w'.region = false) :
    (a.assign w u).assign w' v = (a.assign w' v).assign w u := by
  refine ext_get rfl fun ix hix => ?_
  have hix : a.shape.InBounds ix := hix
  rw [get_assign_assign hix, get_assign_assign hix]
  by_cases hin : w.contains ix
  · rw [hw.contains_eq_false hix hin h, if_neg Bool.false_ne_true, if_neg Bool.false_ne_true]
  · rw [if_neg hin, if_neg hin]

end NDArray

namespace Tensor
variable {x v v' u u' : Tensor} {w : Window} {s : Shape} {selection : Selection}

/-- Whether a tensor can be broadcast does not depend on its elements. -/
theorem broadcastTo_eq_ok_iff : v.broadcastTo s = .ok u ↔
    (v.shape.spreadsTo s = true ∧ s.addressable = true) ∧ ⟨v.dtype, v.array.broadcastTo s⟩ = u := by
  rw [broadcastTo, Except.map_eq_ok]
  constructor
  · rintro ⟨a, ha, rfl⟩
    obtain ⟨h, rfl⟩ := NDArray.spread_eq_ok_iff.1 ha
    exact ⟨h, rfl⟩
  · rintro ⟨h, rfl⟩
    exact ⟨_, NDArray.spread_eq_ok_iff.2 ⟨h, rfl⟩, rfl⟩

/-- A value that can be broadcast to the selected part can be assigned to it, also after it has
been converted. -/
theorem assign_eq_ok (hw : w.Fits x.shape) (h : v.broadcastTo w.shape = .ok u) :
    x.assign w v = .ok ⟨x.dtype, x.array.assign w ((v.as x.dtype).broadcastTo w.shape)⟩ := by
  obtain ⟨⟨hspreads, hs⟩, -⟩ := broadcastTo_eq_ok_iff.1 h
  exact (assign_eq_ok_iff hw).2
    ⟨_, NDArray.spread_eq_ok (a := v.as x.dtype) hspreads hs, rfl⟩

/-- What is selected can be assigned, as any value that has the shape of the selected part. -/
theorem assign_extract (hw : w.Fits x.shape) (hs : w.shape.addressable = true) :
    x.assign w (x.extract w) = .ok x := by
  have hspreads : (x.extract w).shape.spreadsTo w.shape = true := by
    rw [show (x.extract w).shape = w.shape from x.array.shape_extract w]
    exact Shape.spreadsTo_refl w.shape
  have hok := broadcastTo_eq_ok_iff (v := x.extract w).2 ⟨⟨hspreads, hs⟩, rfl⟩
  rw [assign_eq_ok hw hok]
  have hself : (x.extract w).as x.dtype = x.array.extract w := as_self (x.extract w)
  have hwhole : (x.array.extract w).broadcastTo w.shape = x.array.extract w := by
    rw [← x.array.shape_extract w, NDArray.broadcastTo_self]
  rw [hself, hwhole, NDArray.assign_extract hw]

/-- Selecting and assigning a region obey the laws of a lens, and assignments to regions that do
not overlap do not affect each other. -/
theorem assign_lawful (hw : selection.resolve x.shape = .ok w)
    (hv : v.broadcastTo w.shape = .ok u) (hv' : v'.broadcastTo w.shape = .ok u') :
    ∃ y, x.assign w v = .ok y ∧ y.type = x.type ∧
      (∀ ix, x.shape.InBounds ix → w.contains ix = false → y.get ix = x.get ix) ∧
      (v.cast x.dtype).broadcastTo w.shape = .ok (y.extract w) ∧
      x.assign w (x.extract w) = .ok x ∧
      (∃ z, y.assign w v' = .ok z ∧ x.assign w v' = .ok z) ∧
      ∀ selection₂ w₂, Selection.resolve selection₂ x.shape = .ok w₂ →
        w.region.overlaps w₂.region = false →
        y.extract w₂ = x.extract w₂ ∧
        ∀ v₂ u₂, broadcastTo v₂ w₂.shape = .ok u₂ →
          ∃ y₂ z, x.assign w₂ v₂ = .ok y₂ ∧ y.assign w₂ v₂ = .ok z ∧ y₂.assign w v = .ok z := by
  have hfits : w.Fits x.array.shape := Selection.fits_of_resolve hw
  obtain ⟨hspreads, -⟩ := broadcastTo_eq_ok_iff.1 hv
  refine ⟨_, assign_eq_ok hfits hv, rfl, fun ix hix hout => ?_, ?_, assign_extract hfits hspreads.2,
    ⟨_, assign_eq_ok hfits hv', ?_⟩, fun selection₂ w₂ hw₂ hdisjoint => ⟨?_, fun v₂ u₂ hv₂ => ?_⟩⟩
  · have hget := NDArray.get_assign (w := w) (v := (v.as x.dtype).broadcastTo w.shape)
      (show x.array.shape.InBounds ix from hix)
    rw [hout, if_neg Bool.false_ne_true] at hget
    exact congrArg (Scalar.mk x.dtype) hget
  · refine broadcastTo_eq_ok_iff.2 ⟨hspreads, ?_⟩
    exact congrArg (Tensor.mk x.dtype) (NDArray.extract_assign hfits rfl).symm
  · rw [assign_eq_ok hfits hv']
    exact congrArg (fun a => Except.ok (Tensor.mk x.dtype a)) NDArray.assign_assign.symm
  · rw [Region.overlaps_comm] at hdisjoint
    have hfits₂ : w₂.Fits x.array.shape := Selection.fits_of_resolve hw₂
    exact congrArg (Tensor.mk x.dtype) (NDArray.extract_assign_of_disjoint hfits₂ hdisjoint)
  · have hfits₂ : w₂.Fits x.array.shape := Selection.fits_of_resolve hw₂
    refine ⟨_, _, assign_eq_ok hfits₂ hv₂, assign_eq_ok hfits₂ hv₂, ?_⟩
    rw [assign_eq_ok (x := ⟨x.dtype, x.array.assign w₂ _⟩) hfits hv]
    exact congrArg (fun a => Except.ok (Tensor.mk x.dtype a))
      (NDArray.assign_comm hfits hdisjoint).symm

/-- The last two columns of two rows are overwritten by one number, and the first column keeps
what it holds. -/
theorem assign_lawful_columns :
    ∃ y, assign ⟨.i64, [2, 3], [1, 2, 3, 4, 5, 6], rfl⟩ [⟨⟨0, 2⟩, true⟩, ⟨⟨1, 3⟩, true⟩]
        (scalar .i64 7) = .ok y ∧
      (scalar .i64 7).broadcastTo [2, 2] = .ok (y.extract [⟨⟨0, 2⟩, true⟩, ⟨⟨1, 3⟩, true⟩]) ∧
      y.extract [⟨⟨0, 2⟩, true⟩, ⟨⟨0, 1⟩, false⟩] = vector .i64 [1, 4] := by
  have hcolumns : Selection.resolve [.whole, .range 1 3 1] [2, 3] =
      .ok [⟨⟨0, 2⟩, true⟩, ⟨⟨1, 3⟩, true⟩] := rfl
  obtain ⟨u, hflags⟩ : ∃ u, (vector .bool [true, false]).broadcastTo [2, 2] = .ok u := ⟨_, rfl⟩
  obtain ⟨y, hy, -, -, hextract, -, -, hdisjoint⟩ := assign_lawful
    (x := ⟨.i64, [2, 3], [1, 2, 3, 4, 5, 6], rfl⟩) (v := scalar .i64 7) hcolumns rfl hflags
  exact ⟨y, hy, hextract, (hdisjoint [.whole, .point 0] _ rfl rfl).1⟩

end Tensor
end ArrayTrace
