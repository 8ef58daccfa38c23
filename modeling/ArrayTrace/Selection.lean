import ArrayTrace.Shape

/-!
# Selections and regions

A selection names a part of an array axis by axis: one position, a half-open
range, or the whole axis. Resolving it against a shape gives a window, the
rectangular region it covers together with the axes that survive. Two regions
conflict when their spans meet on every axis.
-/

namespace ArrayTrace

/-- Half-open span of positions along one axis. -/
structure Span where
  start : Nat
  stop : Nat
deriving DecidableEq

namespace Span

/-- Number of positions. -/
def length (s : Span) : Nat := s.stop - s.start

/-- Whether position `i` lies in the span. -/
def contains (s : Span) (i : Nat) : Bool := s.start ≤ i && i < s.stop

/-- Whether each span starts before the other one stops. -/
def overlaps (a b : Span) : Bool := a.start < b.stop && b.start < a.stop

end Span

/-- Rectangular part of an array, one span per axis. -/
abbrev Region := List Span

namespace Region

/-- The whole array. -/
def full (s : Shape) : Region := s.map fun d => ⟨0, d⟩

/-- Whether the spans meet on every axis. -/
def overlaps (a b : Region) : Bool := (a.zip b).all fun (x, y) => x.overlaps y

/-- Lengths of the spans. -/
def dims (r : Region) : Shape := r.map Span.length

/-- Whether a multi-index of the array lies in the region. -/
def contains (r : Region) (ix : List Nat) : Bool :=
  (r.zip ix).all fun (s, i) => s.contains i

end Region

/-- Selection along one axis. Positions are signed so that negative ones can be
refused by name. -/
inductive Selector
  /-- One position; the axis is dropped. -/
  | point (i : Int)
  /-- Half-open range with a step. -/
  | range (start stop step : Int)
  /-- The whole axis. -/
  | whole
deriving DecidableEq

namespace Selector

/-- Written form: `1`, `0:2`, `0:4:2` or `:`. -/
def describe : Selector → String
  | point i => s!"{i}"
  | range a b 1 => s!"{a}:{b}"
  | range a b step => s!"{a}:{b}:{step}"
  | whole => ":"

end Selector

/-- One selector per leading axis; the axes left out are selected whole. -/
abbrev Selection := List Selector

/-- What a selection may ask that arrays do not offer. -/
inductive Unselectable
  | negativePoint (i : Int)
  | step (step : Int)
  | negativeRange (start stop : Int)
  | reversedRange (start stop : Int)
deriving DecidableEq

/-- Why a selection does not fit a shape. -/
inductive SelectionError
  | outOfRange (axis : Nat) (index : Int) (size : Nat)
  | unsupported (axis : Nat) (cause : Unselectable)
deriving DecidableEq

namespace Unselectable

/-- The cause in words. -/
def message : Unselectable → String
  | negativePoint i => s!"negative index {i}"
  | step s => s!"step {s}"
  | negativeRange a b => s!"negative range {a}:{b}"
  | reversedRange a b => s!"reversed range {a}:{b}"

end Unselectable

namespace SelectionError

/-- The error in words. -/
def message : SelectionError → String
  | outOfRange axis index size => s!"Index {index} out of range for axis {axis} of size {size}"
  | unsupported axis cause => s!"Unsupported slice on axis {axis}: {cause.message}"

end SelectionError

/-- A resolved selector: the span it covers, and whether the axis survives. -/
structure AxisWindow where
  span : Span
  kept : Bool
deriving DecidableEq

/-- A selection checked against a shape, one entry per axis. -/
abbrev Window := List AxisWindow

namespace Window

/-- The part of the array the window covers. -/
def region (w : Window) : Region := w.map AxisWindow.span

/-- For each axis whether it survives. -/
def kept (w : Window) : List Bool := w.map AxisWindow.kept

/-- Shape of the selected part: the lengths of the surviving axes. -/
def shape (w : Window) : Shape := (w.filter AxisWindow.kept).map fun a => a.span.length

end Window

namespace Selector

/-- The window of one axis of length `dim`. -/
def resolve (axis dim : Nat) : Selector → Except SelectionError AxisWindow
  | point i =>
    if i < 0 then .error (.unsupported axis (.negativePoint i))
    else if dim ≤ i.toNat then .error (.outOfRange axis i dim)
    else .ok ⟨⟨i.toNat, i.toNat + 1⟩, false⟩
  | range a b step =>
    if step ≠ 1 then .error (.unsupported axis (.step step))
    else if a < 0 ∨ b < 0 then .error (.unsupported axis (.negativeRange a b))
    else if b < a then .error (.unsupported axis (.reversedRange a b))
    else if dim < b.toNat then .error (.outOfRange axis b dim)
    else .ok ⟨⟨a.toNat, b.toNat⟩, true⟩
  | whole => .ok ⟨⟨0, dim⟩, true⟩

end Selector

namespace Selection

/-- Written form, such as `[1, 0:2]`. -/
def describe (s : Selection) : String :=
  "[" ++ ", ".intercalate (s.map Selector.describe) ++ "]"

/-- The windows of the axes from number `axis` on. -/
def resolveFrom (axis : Nat) : Selection → Shape → Except SelectionError Window
  | _, [] => .ok []
  | [], d :: ds => do
    let rest ← resolveFrom (axis + 1) [] ds
    return ⟨⟨0, d⟩, true⟩ :: rest
  | s :: ss, d :: ds => do
    let first ← s.resolve axis d
    let rest ← resolveFrom (axis + 1) ss ds
    return first :: rest

/-- Check a selection against a shape. -/
def resolve (s : Selection) (shape : Shape) : Except SelectionError Window :=
  if shape.length < s.length then
    .error (.outOfRange shape.length (s.length - 1 : Int) 0)
  else s.resolveFrom 0 shape

end Selection

theorem Span.overlaps_comm (a b : Span) : a.overlaps b = b.overlaps a := by
  simp [Span.overlaps, Bool.and_comm]

theorem Region.overlaps_comm (a b : Region) : a.overlaps b = b.overlaps a := by
  induction a generalizing b with
  | nil => cases b <;> rfl
  | cons x xs ih =>
    cases b with
    | nil => rfl
    | cons y ys =>
      have h := ih ys
      simp only [Region.overlaps] at h
      simp [Region.overlaps, Span.overlaps_comm x y, h]

@[simp] theorem Window.length_region (w : Window) : w.region.length = w.length := by
  simp [Window.region]

@[simp] theorem Window.length_kept (w : Window) : w.kept.length = w.length := by
  simp [Window.kept]

end ArrayTrace
