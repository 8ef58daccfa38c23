import ArrayTrace.DType

/-!
# Shapes

A shape lists the lengths of an array's axes, outermost first. Elements are kept
in row-major order: `offset` gives the position of a multi-index, `coord` the
multi-index at a position. Broadcasting aligns shapes on their last axes, where
each length must agree with the common one or be 1.

Lengths are unbounded numbers. Whether the positions of an array fit a machine word
is asked where arrays are made.
-/

namespace ArrayTrace

/-- Lengths of the axes, outermost first. -/
abbrev Shape := List Nat

namespace Shape

/-- Number of elements. -/
def size : Shape → Nat
  | [] => 1
  | d :: ds => d * size ds

/-- Row-major position of a multi-index. -/
def offset : Shape → List Nat → Nat
  | _ :: ds, i :: is => i * size ds + offset ds is
  | _, _ => 0

/-- Multi-index at a row-major position. -/
def coord : Shape → Nat → List Nat
  | [], _ => []
  | _ :: ds, k => k / size ds :: coord ds (k % size ds)

/-- One index per axis, each below the axis length. -/
def InBounds : Shape → List Nat → Prop
  | [], [] => True
  | d :: ds, i :: is => i < d ∧ InBounds ds is
  | _, _ => False

instance : (s : Shape) → (ix : List Nat) → Decidable (InBounds s ix)
  | [], [] => .isTrue trivial
  | d :: ds, i :: is =>
    have : Decidable (InBounds ds is) := instDecidableInBounds ds is
    inferInstanceAs (Decidable (i < d ∧ InBounds ds is))
  | [], _ :: _ => .isFalse id
  | _ :: _, [] => .isFalse id

/-- The most elements an array can have along its axes other than those of length 0:
the largest signed 64-bit integer. -/
def maxSize : Nat := 9223372036854775807

/-- Whether arrays of this shape can be addressed: the lengths other than zero
multiply to at most `maxSize`. -/
def addressable (s : Shape) : Bool := size (s.filter (· ≠ 0)) ≤ maxSize

/-- Length of an axis of arrays joined along it. -/
def joinedLength (axis : Nat) (parts : List Shape) : Nat :=
  parts.foldr (fun s n => s.getD axis 0 + n) 0

/-- Written form, such as `[2, 3]`. -/
def describe (s : Shape) : String :=
  "[" ++ ", ".intercalate (s.map Nat.repr) ++ "]"

/-! ## Broadcasting -/

/-- Length that `s` contributes to axis `i` of a common shape of rank `rank`; axes
it lacks count as 1. -/
def alignedDim (rank i : Nat) (s : Shape) : Nat :=
  if i + s.length < rank then 1 else s.getD (i + s.length - rank) 1

/-- Common length of an axis so far and one more length. -/
def mergeDim (common d : Nat) : Option Nat :=
  if d = 1 then some common
  else if common = 1 ∨ common = d then some d
  else none

/-- The least shape all the given ones broadcast to. -/
def broadcast? (shapes : List Shape) : Option Shape :=
  match (shapes.map List.length).max? with
  | none => none
  | some rank => (List.range rank).mapM fun i =>
      (shapes.map (alignedDim rank i)).foldlM mergeDim 1

/-- Whether an array of shape `s` can be repeated along its axes of length 1, and
along new leading axes, to fill the shape `t`. -/
def spreadsTo (s t : Shape) : Bool :=
  s.length ≤ t.length &&
    (s.zip (t.drop (t.length - s.length))).all fun (d, e) => d = e || d = 1

/-- The multi-index of `s` that a multi-index of a wider shape reads: its last
entries, with 0 on the axes of length 1. -/
def project (s : Shape) (ix : List Nat) : List Nat :=
  s.zipWith (fun d i => if d = 1 then 0 else i) (ix.drop (ix.length - s.length))

/-! ## Row-major order -/

@[simp] theorem size_nil : size [] = 1 := rfl

@[simp] theorem size_cons (d : Nat) (ds : Shape) : size (d :: ds) = d * size ds := rfl

@[simp] theorem length_coord (s : Shape) (k : Nat) : (coord s k).length = s.length := by
  induction s generalizing k with
  | nil => rfl
  | cons d ds ih => simp [coord, ih]

theorem InBounds.length_eq {s : Shape} {ix : List Nat} (h : InBounds s ix) :
    ix.length = s.length := by
  induction s generalizing ix with
  | nil => cases ix <;> simp_all [InBounds]
  | cons d ds ih =>
    cases ix with
    | nil => exact absurd h id
    | cons i is => simpa using ih h.2

theorem offset_lt {s : Shape} {ix : List Nat} (h : InBounds s ix) : offset s ix < size s := by
  induction s generalizing ix with
  | nil => cases ix <;> simp_all [InBounds, offset]
  | cons d ds ih =>
    cases ix with
    | nil => exact absurd h id
    | cons i is =>
      have hlt := ih h.2
      calc offset (d :: ds) (i :: is) = i * size ds + offset ds is := rfl
        _ < i * size ds + size ds := by omega
        _ = (i + 1) * size ds := by rw [Nat.add_mul, Nat.one_mul]
        _ ≤ d * size ds := Nat.mul_le_mul_right _ h.1

theorem coord_inBounds {s : Shape} {k : Nat} (h : k < size s) : InBounds s (coord s k) := by
  induction s generalizing k with
  | nil => trivial
  | cons d ds ih =>
    have hpos : 0 < size ds := by
      rcases Nat.eq_zero_or_pos (size ds) with h0 | h0
      · simp [h0] at h
      · exact h0
    exact ⟨(Nat.div_lt_iff_lt_mul hpos).2 h, ih (Nat.mod_lt _ hpos)⟩

theorem offset_coord {s : Shape} {k : Nat} (h : k < size s) : offset s (coord s k) = k := by
  induction s generalizing k with
  | nil => simp [offset] at *; omega
  | cons d ds ih =>
    have hpos : 0 < size ds := by
      rcases Nat.eq_zero_or_pos (size ds) with h0 | h0
      · simp [h0] at h
      · exact h0
    simp only [coord, offset, ih (Nat.mod_lt k hpos)]
    rw [Nat.mul_comm]
    exact Nat.div_add_mod k (size ds)

theorem coord_offset {s : Shape} {ix : List Nat} (h : InBounds s ix) :
    coord s (offset s ix) = ix := by
  induction s generalizing ix with
  | nil => cases ix <;> simp_all [InBounds, coord]
  | cons d ds ih =>
    cases ix with
    | nil => exact absurd h id
    | cons i is =>
      have hlt := offset_lt h.2
      have hpos : 0 < size ds := by omega
      have hdiv : (i * size ds + offset ds is) / size ds = i := by
        rw [Nat.mul_comm, Nat.mul_add_div hpos, Nat.div_eq_of_lt hlt, Nat.add_zero]
      have hmod : (i * size ds + offset ds is) % size ds = offset ds is := by
        rw [Nat.mul_comm, Nat.mul_add_mod, Nat.mod_eq_of_lt hlt]
      simp only [offset, coord, hdiv, hmod, ih h.2]

end Shape

/-- Static shape and element type of a node. -/
structure TensorType where
  shape : Shape
  dtype : DType
deriving DecidableEq

namespace TensorType

/-- Type of a single element without axes. -/
def scalar (d : DType) : TensorType := ⟨[], d⟩

/-- Number of axes. -/
def rank (t : TensorType) : Nat := t.shape.length

/-- Number of elements. -/
def size (t : TensorType) : Nat := t.shape.size

/-- Bytes of the stored elements. -/
def bytes (t : TensorType) : Nat := t.size * t.dtype.size

end TensorType

end ArrayTrace
