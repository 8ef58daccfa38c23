import ArrayTrace.Proofs.Windows
import Mathlib.Data.Set.Basic

/-!
# Overlapping regions

Regions are compared span by span, without looking at elements. For the regions that nodes
access this is what counts: regions that do not overlap share no element, and regions that have
elements overlap only if they share one. A span without positions overlaps every span around it,
so for an empty region the test may say yes although there is nothing to share.

## Main definitions

* `Region.Selected` — the regions that nodes access in arrays of a shape.
* `Region.coords` — the elements of a region.
-/

namespace ArrayTrace

/-- Spans that have positions on an axis of length `d` overlap exactly when they share one. The
later of the two starts is such a position. -/
theorem Span.overlaps_iff_exists {x y : Span} {d i j : Nat} (hi : i < d) (hj : j < d)
    (hx : x.contains i = true) (hy : y.contains j = true) :
    x.overlaps y = true ↔ ∃ k < d, x.contains k = true ∧ y.contains k = true := by
  constructor
  · intro h
    simp only [Span.overlaps, Span.contains, Bool.and_eq_true, decide_eq_true_eq] at h hx hy ⊢
    exact ⟨max x.start y.start, by omega, by omega, by omega⟩
  · rintro ⟨k, -, hxk, hyk⟩
    exact Span.overlaps_of_contains hxk hyk

namespace Region
variable {a b r : Region} {s : Shape} {d : Nat} {x y : Span}

/-- The regions that can be read or assigned in arrays of a shape: the whole array, and what a
selection resolves to. -/
inductive Selected (s : Shape) : Region → Prop
  | full : Selected s (full s)
  | resolve (selection : Selection) (w : Window) : selection.resolve s = .ok w →
      Selected s w.region

/-- The multi-indices of arrays of a shape that lie in a region. -/
def coords (s : Shape) (r : Region) : Set (List Nat) :=
  {ix | s.InBounds ix ∧ r.contains ix = true}

/-- A selected region has one span for each axis, and none reaches beyond the axis. -/
theorem Selected.stop_le (h : Selected s r) :
    List.Forall₂ (fun (x : Span) d => x.stop ≤ d) r s := by
  cases h with
  | full => exact List.forall₂_map_left_iff.2 (List.forall₂_same.2 fun d _ => Nat.le_refl d)
  | resolve _ _ hw =>
    exact List.forall₂_map_left_iff.2
      ((Selection.fits_of_resolve hw).imp fun _ _ hfits => hfits.stop_le)

/-- Regions share an element when they share a position on the first axis and an element of the
other axes. -/
theorem nonempty_inter_coords_cons :
    (coords (d :: s) (x :: a) ∩ coords (d :: s) (y :: b)).Nonempty ↔
      (∃ i < d, x.contains i = true ∧ y.contains i = true) ∧
        (coords s a ∩ coords s b).Nonempty := by
  constructor
  · rintro ⟨ix, ⟨hix, ha⟩, -, hb⟩
    cases ix with
    | nil => exact absurd hix id
    | cons i ix =>
      rw [contains_cons, Bool.and_eq_true] at ha hb
      exact ⟨⟨i, hix.1, ha.1, hb.1⟩, ix, ⟨hix.2, ha.2⟩, hix.2, hb.2⟩
  · rintro ⟨⟨i, hi, hx, hy⟩, ix, ⟨hix, ha⟩, -, hb⟩
    have hxa : contains (x :: a) (i :: ix) = true := by rw [contains_cons, hx, ha]; rfl
    have hyb : contains (y :: b) (i :: ix) = true := by rw [contains_cons, hy, hb]; rfl
    exact ⟨i :: ix, ⟨⟨hi, hix⟩, hxa⟩, ⟨hi, hix⟩, hyb⟩

theorem nonempty_coords_cons : (coords (d :: s) (x :: r)).Nonempty ↔
    (∃ i < d, x.contains i = true) ∧ (coords s r).Nonempty := by
  have h := nonempty_inter_coords_cons (d := d) (s := s) (x := x) (y := x) (a := r) (b := r)
  simpa only [Set.inter_self, and_self] using h

/-- A selected region has elements unless one of its spans has no positions. -/
theorem Selected.nonempty_coords_iff (h : Selected s r) :
    (coords s r).Nonempty ↔ ∀ x ∈ r, x.start < x.stop := by
  have hstop := h.stop_le
  clear h
  induction hstop with
  | nil =>
    have hmem : [] ∈ coords [] [] := ⟨trivial, rfl⟩
    exact ⟨fun _ => nofun, fun _ => ⟨[], hmem⟩⟩
  | @cons x d r s hle _ ih =>
    rw [nonempty_coords_cons, List.forall_mem_cons]
    refine and_congr ?_ ih
    simp only [Span.contains, Bool.and_eq_true, decide_eq_true_eq]
    constructor
    · rintro ⟨i, hi⟩
      omega
    · intro hlt
      exact ⟨x.start, by omega, Nat.le_refl _, hlt⟩

/-- Regions that do not overlap share no element. -/
theorem not_mem_coords_of_not_overlaps (ha : a.length = s.length) (h : a.overlaps b = false) :
    ∀ ix ∈ coords s a, ix ∉ coords s b := by
  rintro ix ⟨hix, hina⟩ ⟨-, hinb⟩
  have hout := contains_eq_false (ha.trans hix.length_eq.symm) hina h
  rw [hout] at hinb
  cases hinb

/-- Regions that have elements overlap exactly when they share one. -/
theorem overlaps_iff_nonempty_inter (ha : a.length = s.length) (hb : b.length = s.length)
    (hane : (coords s a).Nonempty) (hbne : (coords s b).Nonempty) :
    a.overlaps b = true ↔ (coords s a ∩ coords s b).Nonempty := by
  induction s generalizing a b with
  | nil =>
    obtain rfl : a = [] := List.eq_nil_of_length_eq_zero ha
    obtain rfl : b = [] := List.eq_nil_of_length_eq_zero hb
    rw [Set.inter_self]
    exact ⟨fun _ => hane, fun _ => rfl⟩
  | cons d s ih =>
    cases a with
    | nil => cases ha
    | cons x a =>
      cases b with
      | nil => cases hb
      | cons y b =>
        obtain ⟨⟨i, hi, hxi⟩, hane⟩ := nonempty_coords_cons.1 hane
        obtain ⟨⟨j, hj, hyj⟩, hbne⟩ := nonempty_coords_cons.1 hbne
        rw [overlaps_cons, Bool.and_eq_true, Span.overlaps_iff_exists hi hj hxi hyj,
          ih (by simpa using ha) (by simpa using hb) hane hbne, nonempty_inter_coords_cons]

/-- Overlapping is symmetric and never misses a shared element, and between regions that have
elements it is never reported without one. -/
theorem overlaps_exact (ha : Selected s a) (hb : Selected s b) :
    a.overlaps b = b.overlaps a ∧
    (a.overlaps b = false → ∀ ix ∈ coords s a, ix ∉ coords s b) ∧
    ((coords s a).Nonempty → (coords s b).Nonempty →
      (a.overlaps b = true ↔ (coords s a ∩ coords s b).Nonempty)) := by
  have halen := ha.stop_le.length_eq
  have hblen := hb.stop_le.length_eq
  exact ⟨overlaps_comm a b, not_mem_coords_of_not_overlaps halen,
    overlaps_iff_nonempty_inter halen hblen⟩

/-- The first two rows end where the second column of the last two begins, so they share nothing,
while the rows in the middle share an element with it. Without axes there is one element, which
is in every region. -/
theorem overlaps_exact_rows :
    (∀ ix ∈ coords [4, 3] [⟨0, 2⟩, ⟨0, 3⟩], ix ∉ coords [4, 3] [⟨2, 4⟩, ⟨1, 2⟩]) ∧
    (coords [4, 3] [⟨1, 3⟩, ⟨0, 3⟩] ∩ coords [4, 3] [⟨2, 4⟩, ⟨1, 2⟩]).Nonempty ∧
    (coords [] [] ∩ coords [] (full [])).Nonempty := by
  have htop : Selected [4, 3] [⟨0, 2⟩, ⟨0, 3⟩] :=
    .resolve [.range 0 2 1] [⟨⟨0, 2⟩, true⟩, ⟨⟨0, 3⟩, true⟩] rfl
  have hmiddle : Selected [4, 3] [⟨1, 3⟩, ⟨0, 3⟩] :=
    .resolve [.range 1 3 1] [⟨⟨1, 3⟩, true⟩, ⟨⟨0, 3⟩, true⟩] rfl
  have hbottom : Selected [4, 3] [⟨2, 4⟩, ⟨1, 2⟩] :=
    .resolve [.range 2 4 1, .point 1] [⟨⟨2, 4⟩, true⟩, ⟨⟨1, 2⟩, false⟩] rfl
  have hscalar : Selected [] [] := .resolve [] [] rfl
  obtain ⟨-, hdisjoint, -⟩ := overlaps_exact htop hbottom
  obtain ⟨-, -, hshared⟩ := overlaps_exact hmiddle hbottom
  obtain ⟨-, -, hone⟩ := overlaps_exact hscalar .full
  refine ⟨hdisjoint rfl, ?_, ?_⟩
  · exact (hshared (hmiddle.nonempty_coords_iff.2 (by decide))
      (hbottom.nonempty_coords_iff.2 (by decide))).1 rfl
  · exact (hone (hscalar.nonempty_coords_iff.2 nofun)
      (Selected.full.nonempty_coords_iff.2 nofun)).1 rfl

/-- An empty range overlaps the whole axis around it. -/
example : overlaps [⟨1, 1⟩] (full [3]) = true := by decide

end Region
end ArrayTrace
