/-!
# Element types

The four element types of an array, the type two of them widen to, and the
types that arithmetic and floating-point functions are carried out in.
-/

namespace ArrayTrace

/-- Element type of an array. -/
inductive DType
  | f64
  | f32
  | i64
  | bool
deriving DecidableEq

namespace DType

/-- Every element type. -/
def all : List DType := [f64, f32, i64, bool]

/-- Bytes of one stored element. -/
def size : DType → Nat
  | f64 => 8
  | f32 => 4
  | i64 => 8
  | bool => 1

/-- Whether the elements are binary floating-point numbers. -/
def isFloat : DType → Bool
  | f64 | f32 => true
  | i64 | bool => false

/-- Name of the element type in messages and labels. -/
def name : DType → String
  | f64 => "Float64"
  | f32 => "Float32"
  | i64 => "Int64"
  | bool => "Bool"

/-- Element type of the emitted C arrays. -/
def cType : DType → String
  | f64 => "double"
  | f32 => "float"
  | i64 => "int64_t"
  | bool => "uint8_t"

/-- Type of an arithmetic result. Booleans take part in arithmetic as integers. -/
def arithmetic : DType → DType
  | bool => i64
  | d => d

/-- The wider of two floating-point types; anything but `f64` counts as narrow. -/
def widestFloat (a b : DType) : DType :=
  if a = f64 ∨ b = f64 then f64 else f32

/-- Common type of two operands. Two floats give the wider one, a float mixed with
an integer or a Boolean is widened by the preferred float, a Boolean widens to an
integer, and equal types stay as they are. -/
def promote (a b preferred : DType) : DType :=
  if a = b then a
  else if a.isFloat && b.isFloat then f64
  else if a.isFloat then widestFloat a preferred
  else if b.isFloat then widestFloat b preferred
  else i64

/-- Type in which a floating-point function of a value is computed. -/
def floatOr (d preferred : DType) : DType :=
  if d.isFloat then d else preferred

/-- Type in which two operands are compared: double as soon as one of them is a
float, 64-bit integers otherwise. -/
def comparison (a b : DType) : DType :=
  if a.isFloat || b.isFloat then f64 else i64

@[simp] theorem promote_self (a p : DType) : promote a a p = a := by
  simp [promote]

@[simp] theorem arithmetic_ne_bool (d : DType) : d.arithmetic ≠ bool := by
  cases d <;> decide

end DType

end ArrayTrace
