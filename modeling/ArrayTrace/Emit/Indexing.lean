import ArrayTrace.C.Stmt
import ArrayTrace.Selection

/-!
# Index expressions

Row-major positions as C expressions over loop counters, and the loops that run the
counters through a shape or a region.
-/

namespace ArrayTrace.Emit

open C

/-- Counter of an axis. -/
def counter (axis : Nat) : String := "i" ++ axis.repr

/-- Counters of the axes of an array, as expressions. -/
def counters (rank : Nat) : List Expr := (List.range rank).map fun axis => .var (counter axis)

/-- Loops through every multi-index of a region. -/
def regionLoops (r : Region) : List Loop :=
  r.zipIdx.map fun (s, axis) => ⟨counter axis, s.start, s.stop⟩

/-- Loops through every multi-index of a shape. -/
def shapeLoops (s : Shape) : List Loop := regionLoops (Region.full s)

/-- Row-major position of indices within a shape, by Horner's rule. -/
def linear : Shape → List Expr → Expr
  | _ :: ds, i :: is =>
    (ds.zip is).foldl (fun e (d, i) => .bin .add (.bin .mul (.paren e) (.num d)) i) i
  | _, _ => .num 0

/-- Indices into an operand that is broadcast against the given output indices: the
last ones, with 0 on axes of length 1. -/
def aligned (s : Shape) (indices : List Expr) : List Expr :=
  s.zipWith (fun d i => if d = 1 then .num 0 else i)
    (indices.drop (indices.length - s.length))

/-- Position in an operand that is broadcast against the given output indices. -/
def broadcastLinear (s : Shape) (indices : List Expr) : Expr := linear s (aligned s indices)

/-- Indices within the selected part of a window, from indices within the array. -/
def relative : Window → List Expr → List Expr
  | a :: w, i :: is =>
    if a.kept then
      (if a.span.start = 0 then i else Expr.group .sub i (.num a.span.start)) :: relative w is
    else relative w is
  | _, _ => []

end ArrayTrace.Emit
