import ArrayTrace.Element
import ArrayTrace.NDArray

/-!
# Tensors

A tensor is an array together with the type of its elements. Reading a tensor at
another element type converts every element; repeating it over a larger shape may
be refused.
-/

namespace ArrayTrace

/-- Why a tensor cannot be read or rearranged as asked. -/
inductive TensorError
  | wrongDType (requested had : DType)
  | layout (e : LayoutError)
  | broadcast (src dst : Shape)
deriving DecidableEq

/-- The error in words. -/
def TensorError.message : TensorError → String
  | wrongDType requested had => s!"Requested dtype {requested.name}, but had dtype {had.name}"
  | layout e => e.message
  | broadcast src dst => s!"Cannot broadcast {Shape.describe src} to {Shape.describe dst}"

namespace NDArray

variable {α β γ : Type}

/-- Broadcast to a shape, or refuse. -/
def spread [Inhabited α] (a : NDArray α) (s : Shape) : Except TensorError (NDArray α) :=
  if a.shape.spreadsTo s ∧ s.addressable then .ok (a.broadcastTo s)
  else .error (.broadcast a.shape s)

/-- Combine two arrays elementwise over a shape both broadcast to. -/
def zipSpread [Inhabited α] [Inhabited β] (f : α → β → γ) (a : NDArray α) (b : NDArray β)
    (s : Shape) : Except TensorError (NDArray γ) := do
  let x ← a.spread s
  let y ← b.spread s
  return x.zipWith f y

end NDArray

/-- An array tagged with its element type. -/
structure Tensor where
  dtype : DType
  array : NDArray dtype.Elem

namespace Tensor

/-- Lengths of the axes. -/
def shape (t : Tensor) : Shape := t.array.shape

/-- Static type of the tensor. -/
def type (t : Tensor) : TensorType := ⟨t.shape, t.dtype⟩

/-- The elements converted to another type. -/
def as (t : Tensor) (d : DType) : NDArray d.Elem := t.array.map (DType.convert t.dtype d)

/-- The tensor with its elements converted to another type. -/
def cast (t : Tensor) (d : DType) : Tensor := ⟨d, t.as d⟩

/-- All zeros, or all `false`. -/
def zeros (s : Shape) (d : DType) : Tensor := ⟨d, .fill s d.zero⟩

/-- One element without axes. -/
def scalar (d : DType) (x : d.Elem) : Tensor := ⟨d, .scalar x⟩

/-- Listed elements along one axis. -/
def vector (d : DType) (xs : List d.Elem) : Tensor := ⟨d, .vector xs⟩

/-- Listed elements in a given shape. -/
def ofList (d : DType) (s : Shape) (xs : List d.Elem) : Except LayoutError Tensor :=
  (NDArray.ofList s xs).map (Tensor.mk d)

/-- The elements, if they are of the requested type. -/
def elems (t : Tensor) (d : DType) : Except TensorError (List d.Elem) :=
  if t.dtype = d then .ok (t.as d).data else .error (.wrongDType d t.dtype)

/-- The elements as binary64 numbers. -/
def floats (t : Tensor) : List Float := t.array.data.map t.dtype.toFloat

/-- Broadcast to a shape, or refuse. -/
def broadcastTo (t : Tensor) (s : Shape) : Except TensorError Tensor :=
  (t.array.spread s).map (Tensor.mk t.dtype)

/-- The part a window selects. -/
def extract (t : Tensor) (w : Window) : Tensor := ⟨t.dtype, t.array.extract w⟩

/-- The tensor with the region of a window overwritten by a value, which is converted
to the element type and broadcast to the selected part, whose dropped axes are then put
back. -/
def assign (t : Tensor) (w : Window) (value : Tensor) : Except TensorError Tensor := do
  let v ← (value.as t.dtype).spread w.shape
  let v ← (v.reshape w.region.dims).mapError .layout
  return ⟨t.dtype, t.array.overwrite w.region v⟩

/-- Same element type, same shape, and elements of equal value. -/
def beq (a b : Tensor) : Bool :=
  a.dtype = b.dtype && a.shape = b.shape &&
    (a.array.data.zip (b.as a.dtype).data).all fun (x, y) => a.dtype.beq x y

@[simp] theorem shape_as (t : Tensor) (d : DType) : (t.as d).shape = t.shape := rfl

@[simp] theorem shape_cast (t : Tensor) (d : DType) : (t.cast d).shape = t.shape := rfl

@[simp] theorem as_self (t : Tensor) : t.as t.dtype = t.array := by
  ext1
  · rfl
  · have : DType.convert t.dtype t.dtype = id := funext fun x => DType.convert_self _ x
    simp [as, NDArray.map, this]

@[simp] theorem cast_self (t : Tensor) : t.cast t.dtype = t := by
  simp [cast]

end Tensor

end ArrayTrace
