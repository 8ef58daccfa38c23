import ArrayTrace.DType
import ArrayTrace.Precision

/-!
# Elements

The values an array of each element type holds, their conversions, and the
arithmetic that needs care: floored remainders and maxima of floats. Integers
are 64-bit words whose arithmetic wraps around. Conversions from a float go
through binary64 and saturate at the integer bounds; all others go through the
integer, so each of them rounds at most once.
-/

namespace ArrayTrace

/-- Values held by an array of the given element type. -/
@[reducible] def DType.Elem : DType → Type
  | .f64 => Float
  | .f32 => Float32
  | .i64 => Int64
  | .bool => Bool

namespace DType

/-- Zero, or `false`. -/
def zero : (d : DType) → d.Elem
  | f64 => (0.0 : Float)
  | f32 => (0.0 : Float32)
  | i64 => (0 : Int64)
  | bool => false

instance (d : DType) : Inhabited d.Elem := ⟨d.zero⟩

/-- Element for a binary64 number: the nearest float, the truncated and saturated
integer (NaN gives 0), or whether the number differs from zero (NaN does). -/
def ofFloat : (d : DType) → Float → d.Elem
  | f64, x => x
  | f32, x => narrow x
  | i64, x => saturated x
  | bool, x => x != 0.0

/-- Element for an integer: the nearest float, the integer itself, or whether it
differs from zero. -/
def ofInt64 : (d : DType) → Int64 → d.Elem
  | f64, x => x.toFloat
  | f32, x => x.toFloat32
  | i64, x => x
  | bool, x => x != 0

/-- The binary64 number nearest to an element. -/
def toFloat : (d : DType) → d.Elem → Float
  | f64, x => x
  | f32, x => widen x
  | i64, x => x.toFloat
  | bool, x => if x then 1.0 else 0.0

/-- Conversion of an element from one type to another. -/
def convert : (src dst : DType) → src.Elem → dst.Elem
  | f64, f64, x => x
  | f32, f32, x => x
  | i64, i64, x => x
  | bool, bool, x => x
  | f64, dst, x => dst.ofFloat x
  | f32, dst, x => dst.ofFloat (widen x)
  | i64, dst, x => dst.ofInt64 x
  | bool, dst, x => dst.ofInt64 (if x then 1 else 0)

@[simp] theorem convert_self (d : DType) (x : d.Elem) : convert d d x = x := by
  cases d <;> rfl

/-- Equality of elements; floats compare by value, so that a NaN differs from
itself and the two zeros agree. -/
def beq : (d : DType) → d.Elem → d.Elem → Bool
  | f64, x, y => x == y
  | f32, x, y => x == y
  | i64, x, y => x == y
  | bool, x, y => x == y

end DType

/-- Remainder of the floored quotient, which has the sign of the divisor. The
remainder by 0 is 0. -/
def floorMod (a b : Int64) : Int64 :=
  if b = 0 then 0
  else
    let r := a % b
    if r ≠ 0 ∧ (decide (r < 0) ≠ decide (b < 0)) then r + b else r

/-- `a - ⌊a / b⌋ · b`, each operation rounded to binary64. -/
def floorModFloat (a b : Float) : Float := a - (a / b).floor * b

/-- `a - ⌊a / b⌋ · b`, each operation rounded to binary32. -/
def floorModFloat32 (a b : Float32) : Float32 := a - (a / b).floor * b

/-- The larger of two binary64 numbers; a NaN yields to the other operand. -/
def maxFloat (a b : Float) : Float :=
  if a.isNaN then b else if b.isNaN then a else if a < b then b else a

/-- The smaller of two binary64 numbers; a NaN yields to the other operand. -/
def minFloat (a b : Float) : Float :=
  if a.isNaN then b else if b.isNaN then a else if b < a then b else a

/-- The larger of two binary32 numbers; a NaN yields to the other operand. -/
def maxFloat32 (a b : Float32) : Float32 :=
  if a.isNaN then b else if b.isNaN then a else if a < b then b else a

/-- The smaller of two binary32 numbers; a NaN yields to the other operand. -/
def minFloat32 (a b : Float32) : Float32 :=
  if a.isNaN then b else if b.isNaN then a else if b < a then b else a

end ArrayTrace
