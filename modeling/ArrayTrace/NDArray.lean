import ArrayTrace.Selection

/-!
# Arrays

An array is a shape with its elements in row-major order. How they lie in memory is
left out, and so is whether memory holds them. Every operation that moves elements is
given by the element each multi-index of the result reads, so its law is one equation
about `get`, or is made of such operations.
-/

namespace ArrayTrace

/-- Elements of type `α` in row-major order, as many as the shape asks for. -/
@[ext]
structure NDArray (α : Type) where
  shape : Shape
  data : List α
  length_data : data.length = shape.size

/-- Why elements cannot be arranged as asked. -/
inductive LayoutError
  /-- The result could not be addressed. -/
  | overflow
  /-- Too few elements, or no such axis. -/
  | outOfBounds
  /-- Shapes that do not fit together. -/
  | incompatible
  /-- Nothing to join. -/
  | empty
deriving DecidableEq

/-- The error in words. -/
def LayoutError.message : LayoutError → String
  | overflow => "ShapeError/Overflow: arithmetic overflow"
  | outOfBounds => "ShapeError/OutOfBounds: out of bounds indexing"
  | incompatible => "ShapeError/IncompatibleShape: incompatible shapes"
  | empty => "ShapeError/Unsupported: unsupported operation"

namespace NDArray

variable {α β γ : Type}

/-- The array whose element at each multi-index is given by a function. -/
def ofFn (s : Shape) (f : List Nat → α) : NDArray α :=
  ⟨s, (List.range s.size).map fun k => f (s.coord k), by simp⟩

/-- The element at a multi-index. -/
def get [Inhabited α] (a : NDArray α) (ix : List Nat) : α :=
  a.data.getD (a.shape.offset ix) default

/-- A single element without axes. -/
def scalar (x : α) : NDArray α := ⟨[], [x], rfl⟩

/-- One axis holding the listed elements. -/
def vector (xs : List α) : NDArray α := ⟨[xs.length], xs, by simp⟩

/-- The same element everywhere. -/
def fill (s : Shape) (x : α) : NDArray α := ⟨s, List.replicate s.size x, by simp⟩

/-- The listed elements in a given shape. -/
def ofList (s : Shape) (xs : List α) : Except LayoutError (NDArray α) :=
  if s.addressable then
    if h : xs.length = s.size then .ok ⟨s, xs, h⟩
    else if xs.length < s.size then .error .outOfBounds
    else .error .incompatible
  else .error .overflow

/-- Apply a function to every element. -/
def map (f : α → β) (a : NDArray α) : NDArray β :=
  ⟨a.shape, a.data.map f, by simp [a.length_data]⟩

/-- Combine the elements of two arrays at each multi-index of the first. -/
def zipWith [Inhabited α] [Inhabited β] (f : α → β → γ) (a : NDArray α) (b : NDArray β) :
    NDArray γ :=
  ofFn a.shape fun ix => f (a.get ix) (b.get ix)

/-- Repeat along axes of length 1 and new leading axes to fill a shape. -/
def broadcastTo [Inhabited α] (a : NDArray α) (s : Shape) : NDArray α :=
  ofFn s fun ix => a.get (a.shape.project ix)

/-- Reverse the order of the axes. -/
def transpose [Inhabited α] (a : NDArray α) : NDArray α :=
  ofFn a.shape.reverse fun ix => a.get ix.reverse

/-- The elements of a region. -/
def slice [Inhabited α] (a : NDArray α) (r : Region) : NDArray α :=
  ofFn r.dims fun ix => a.get (r.zipWith (fun s i => s.start + i) ix)

/-- What lies at a position of an axis, which is dropped. -/
def indexAxis [Inhabited α] (a : NDArray α) (axis i : Nat) : NDArray α :=
  ofFn (a.shape.eraseIdx axis) fun ix => a.get (ix.insertIdx axis i)

/-- Drop the axes from number `axis` on that are not kept at their first position, the last
of them first. -/
def dropAxes [Inhabited α] : Nat → List Bool → NDArray α → NDArray α
  | _, [], a => a
  | axis, kept :: rest, a =>
    let a := dropAxes (axis + 1) rest a
    if kept then a else a.indexAxis axis 0

/-- The part a window selects, without the axes it drops. -/
def extract [Inhabited α] (a : NDArray α) (w : Window) : NDArray α :=
  dropAxes 0 w.kept (a.slice w.region)

/-- The same elements in another shape, which must have room for all of them. -/
def reshape (a : NDArray α) (s : Shape) : Except LayoutError (NDArray α) :=
  if h : s.addressable ∧ a.shape.size = s.size then .ok ⟨s, a.data, a.length_data.trans h.2⟩
  else .error .incompatible

/-- The array with a region overwritten by `v`, which has the lengths of the region. -/
def overwrite [Inhabited α] (a : NDArray α) (r : Region) (v : NDArray α) : NDArray α :=
  ofFn a.shape fun ix =>
    if Region.contains r ix then v.get (r.zipWith (fun s i => i - s.start) ix) else a.get ix

/-- Element of the arrays joined along an axis: the axis position is counted off
against one array after the other. -/
def joinedGet [Inhabited α] (axis : Nat) : List (NDArray α) → List Nat → α
  | [], _ => default
  | a :: rest, ix =>
    let i := ix.getD axis 0
    let d := a.shape.getD axis 0
    if i < d then a.get ix else joinedGet axis rest (ix.set axis (i - d))

/-- Join arrays along an existing axis. -/
def concat [Inhabited α] (axis : Nat) (parts : List (NDArray α)) :
    Except LayoutError (NDArray α) :=
  match parts with
  | [] => .error .empty
  | first :: _ =>
    if first.shape.length ≤ axis then .error .outOfBounds
    else if parts.any fun a => a.shape.length ≠ first.shape.length
        ∨ a.shape.set axis 0 ≠ first.shape.set axis 0 then .error .incompatible
    else
      let shape : Shape := first.shape.set axis (Shape.joinedLength axis (parts.map NDArray.shape))
      if shape.addressable then .ok (ofFn shape (joinedGet axis parts))
      else .error .overflow

/-- Join arrays of one shape along a new leading axis. -/
def stack [Inhabited α] (parts : List (NDArray α)) : Except LayoutError (NDArray α) :=
  match parts with
  | [] => .error .empty
  | first :: _ =>
    if parts.any fun a => a.shape ≠ first.shape then .error .incompatible
    else
      let shape : Shape := parts.length :: first.shape
      if shape.addressable then
        .ok (ofFn shape fun ix =>
          match parts[ix.headD 0]? with
          | some a => a.get ix.tail
          | none => default)
      else .error .overflow

/-! ## Elements of the results -/

@[simp] theorem shape_ofFn (s : Shape) (f : List Nat → α) : (ofFn s f).shape = s := rfl

@[simp] theorem shape_map (f : α → β) (a : NDArray α) : (a.map f).shape = a.shape := rfl

@[simp] theorem shape_zipWith [Inhabited α] [Inhabited β] (f : α → β → γ) (a : NDArray α)
    (b : NDArray β) : (a.zipWith f b).shape = a.shape := rfl

@[simp] theorem shape_broadcastTo [Inhabited α] (a : NDArray α) (s : Shape) :
    (a.broadcastTo s).shape = s := rfl

@[simp] theorem shape_transpose [Inhabited α] (a : NDArray α) :
    a.transpose.shape = a.shape.reverse := rfl

@[simp] theorem shape_overwrite [Inhabited α] (a : NDArray α) (r : Region) (v : NDArray α) :
    (a.overwrite r v).shape = a.shape := rfl

theorem get_ofFn [Inhabited α] {s : Shape} {ix : List Nat} (f : List Nat → α)
    (h : s.InBounds ix) : (ofFn s f).get ix = f ix := by
  have hlt := Shape.offset_lt h
  simp [get, ofFn, List.getD_eq_getElem?_getD, List.getElem?_range hlt, Shape.coord_offset h]

/-- Two arrays of one shape are equal when they agree at every multi-index. -/
theorem ext_get [Inhabited α] {a b : NDArray α} (hs : a.shape = b.shape)
    (h : ∀ ix, a.shape.InBounds ix → a.get ix = b.get ix) : a = b := by
  obtain ⟨s, xs, hx⟩ := a
  obtain ⟨t, ys, hy⟩ := b
  obtain rfl : s = t := hs
  refine NDArray.ext rfl (List.ext_getElem (by simp [hx, hy]) fun k h1 h2 => ?_)
  have hk : k < s.size := hx ▸ h1
  have := h (s.coord k) (Shape.coord_inBounds hk)
  simpa [get, Shape.offset_coord hk, List.getD_eq_getElem?_getD, h1, h2] using this

theorem get_map [Inhabited α] [Inhabited β] (f : α → β) (a : NDArray α) {ix : List Nat}
    (h : a.shape.InBounds ix) : (a.map f).get ix = f (a.get ix) := by
  have hlt : a.shape.offset ix < a.data.length := a.length_data ▸ Shape.offset_lt h
  simp [get, map, List.getD_eq_getElem?_getD, hlt]

end NDArray

end ArrayTrace
