import ArrayTrace.Proofs.Splitting
import Mathlib.Algebra.BigOperators.Intervals
import Mathlib.Algebra.BigOperators.Ring.Finset
import Mathlib.Data.ZMod.Basic

/-!
# Integer algebra modulo a power of two

Sums and products of 64-bit integers wrap around, so each is congruent to the exact one modulo
`2 ^ 64`, and the residues of the results obey the laws of a commutative ring: the order of
additions does not matter, products of matrices are associative, transposing reverses them, and
joining arrays adds up their sums.

## Main definitions

* `residue` — a 64-bit integer modulo `2 ^ 64`.
* `AddTree` — additions in some order and with some brackets.
* `Tensor.int`, `Tensor.total` — the exact integers in a tensor, and their exact sum.
* `Tensor.IsExactProduct` — what a product of integers is.
-/

namespace ArrayTrace

open Finset

/-! ## Residues -/

/-- A 64-bit integer modulo `2 ^ 64`. -/
def residue (x : Int64) : ZMod (2 ^ 64) := (x.toInt : ZMod (2 ^ 64))

theorem residue_eq_intCast_iff {x : Int64} {n : Int} :
    residue x = (n : ZMod (2 ^ 64)) ↔ x.toInt ≡ n [ZMOD 2 ^ 64] := by
  rw [residue, ZMod.intCast_eq_intCast_iff]
  norm_num

theorem residue_injective : Function.Injective residue := by
  intro a b h
  have hmod : a.toInt ≡ b.toInt [ZMOD 2 ^ 64] := residue_eq_intCast_iff.1 h
  have ha := a.toInt_lt
  have ha' := a.le_toInt
  have hb := b.toInt_lt
  have hb' := b.le_toInt
  refine Int64.toInt_inj.1 ?_
  rw [Int.ModEq] at hmod
  omega

theorem intCast_bmod (n : Int) : ((n.bmod (2 ^ 64) : Int) : ZMod (2 ^ 64)) = n := by
  rw [ZMod.intCast_eq_intCast_iff, Int.ModEq]
  exact Int.bmod_emod

@[simp] theorem residue_zero : residue 0 = 0 := by
  rw [residue, Int64.toInt_zero, Int.cast_zero]

@[simp] theorem residue_add (a b : Int64) : residue (a + b) = residue a + residue b := by
  rw [residue, Int64.toInt_add, intCast_bmod, Int.cast_add, residue, residue]

@[simp] theorem residue_mul (a b : Int64) : residue (a * b) = residue a * residue b := by
  rw [residue, Int64.toInt_mul, intCast_bmod, Int.cast_mul, residue, residue]

/-- Adding up from the left. -/
theorem residue_foldl {β : Type} (f : β → Int64) (xs : List β) (z : Int64) :
    residue (xs.foldl (fun acc x => acc + f x) z) =
      residue z + (xs.map fun x => residue (f x)).sum := by
  induction xs generalizing z with
  | nil => simp
  | cons x xs ih => rw [List.foldl_cons, ih, residue_add, List.map_cons, List.sum_cons, add_assoc]

/-! ## The order of additions -/

/-- Additions of some terms in some order and with some brackets. -/
inductive AddTree
  | zero
  | term (x : Int64)
  | add (left right : AddTree)

namespace AddTree

/-- The terms that are added. -/
def terms : AddTree → List Int64
  | zero => []
  | term x => [x]
  | add l r => l.terms ++ r.terms

/-- What the additions result in. -/
def value : AddTree → Int64
  | zero => 0
  | term x => x
  | add l r => l.value + r.value

theorem residue_value (t : AddTree) : residue t.value = (t.terms.map residue).sum := by
  induction t with
  | zero => simp [value, terms]
  | term x => simp [value, terms]
  | add l r ihl ihr => simp [value, terms, ihl, ihr]

/-- Terms have one sum, in whatever order they are added. -/
theorem value_eq {t : AddTree} {xs : List Int64} {v : Int64} (h : t.terms.Perm xs)
    (hv : residue v = (xs.map residue).sum) : t.value = v := by
  refine residue_injective ?_
  rw [t.residue_value, hv]
  exact (h.map residue).sum_eq

end AddTree

/-! ## Sums over multi-indices -/

namespace Shape
variable {M : Type} [AddCommMonoid M] {s t : Shape} {f g : List Nat → M}

/-- The sum over all multi-indices of a shape. -/
def total : Shape → (List Nat → M) → M
  | [], f => f []
  | d :: s, f => ∑ i ∈ range d, total s fun ix => f (i :: ix)

theorem total_congr (h : ∀ ix, s.InBounds ix → f ix = g ix) : s.total f = s.total g := by
  induction s generalizing f g with
  | nil => exact h [] trivial
  | cons d s ih =>
    refine sum_congr rfl fun i hi => ih fun ix hix => h (i :: ix) ⟨?_, hix⟩
    exact mem_range.1 hi

theorem total_zero (s : Shape) : s.total (fun _ => (0 : M)) = 0 := by
  induction s with
  | nil => rfl
  | cons d s ih => simp [total, ih]

theorem total_add (s : Shape) (f g : List Nat → M) :
    s.total (fun ix => f ix + g ix) = s.total f + s.total g := by
  induction s generalizing f g with
  | nil => rfl
  | cons d s ih => simp [total, ih, sum_add_distrib]

theorem total_append (s t : Shape) (f : List Nat → M) :
    (s ++ t : Shape).total f = s.total fun front => t.total fun back => f (front ++ back) := by
  induction s generalizing f with
  | nil => rfl
  | cons d s ih => exact sum_congr rfl fun i _ => ih _

theorem sum_range_mul (d n : Nat) (f : Nat → M) :
    ∑ k ∈ range (d * n), f k = ∑ i ∈ range d, ∑ j ∈ range n, f (i * n + j) := by
  induction d with
  | zero => simp
  | succ d ih => rw [Nat.succ_mul, sum_range_add, sum_range_succ, ih]

/-- The sum over the positions of the elements. -/
theorem total_eq_sum_coord (s : Shape) (f : List Nat → M) :
    s.total f = ∑ k ∈ range s.size, f (s.coord k) := by
  induction s generalizing f with
  | nil => simp [total, coord]
  | cons d s ih =>
    rw [total, size_cons, sum_range_mul]
    refine sum_congr rfl fun i _ => ?_
    rw [ih]
    exact sum_congr rfl fun j hj => by rw [coord_cons d (mem_range.1 hj)]

end Shape

namespace NDArray
variable {α M : Type} [Inhabited α] [AddCommMonoid M] {pre post : Shape}

theorem data_eq_map (a : NDArray α) :
    a.data = (List.range a.shape.size).map fun k => a.get (a.shape.coord k) := by
  refine List.ext_getElem (by simp [a.length_data]) fun k hk hk' => ?_
  have hlt : k < a.shape.size := a.length_data ▸ hk
  simp [get, Shape.offset_coord hlt, List.getD_eq_getElem?_getD, hk]

/-- The sum over the elements of an array. -/
theorem sum_data (a : NDArray α) (φ : α → M) :
    (a.data.map φ).sum = a.shape.total fun ix => φ (a.get ix) := by
  rw [Shape.total_eq_sum_coord, data_eq_map, List.map_map]
  rfl

theorem get_transpose {a : NDArray α} {ix : List Nat} (h : Shape.InBounds a.shape.reverse ix) :
    a.transpose.get ix = a.get ix.reverse := get_ofFn _ h

theorem map_transpose {β : Type} [Inhabited β] (f : α → β) (a : NDArray α) :
    a.transpose.map f = (a.map f).transpose := by
  refine ext_get rfl fun ix hix => ?_
  have hin : Shape.InBounds a.shape.reverse ix := hix
  have hback : a.shape.InBounds ix.reverse := by simpa using hin.reverse
  rw [get_map f _ hin, get_transpose hin, get_transpose (a := a.map f) hin, get_map f a hback]

/-- The sum over joined arrays is that over all of their elements. -/
theorem total_joinedGet (φ : α → M) {parts : List (NDArray α)}
    (h : ∀ p ∈ parts, ∃ e, p.shape = pre ++ e :: post) :
    (pre ++ Shape.joinedLength pre.length (parts.map shape) :: post : Shape).total
        (fun ix => φ (joinedGet pre.length parts ix)) =
      (parts.map fun p => (p.data.map φ).sum).sum := by
  induction parts with
  | nil =>
    rw [Shape.total_append]
    exact Shape.total_zero pre
  | cons p parts ih =>
    obtain ⟨⟨e, he⟩, hparts⟩ := List.forall_mem_cons.1 h
    have hlength : Shape.joinedLength pre.length ((p :: parts).map shape) =
        e + Shape.joinedLength pre.length (parts.map shape) := by
      simp [Shape.joinedLength, he]
    rw [hlength, List.map_cons, List.sum_cons, ← ih hparts, sum_data, he, Shape.total_append,
      Shape.total_append, Shape.total_append, ← Shape.total_add]
    refine Shape.total_congr fun front hfront => ?_
    have hget : ∀ i back, (front ++ i :: back).getD pre.length 0 = i := by
      intro i back
      simp [← hfront.length_eq]
    have hset : ∀ i j back, (front ++ i :: back).set pre.length j = front ++ j :: back := by
      intro i j back
      simp [← hfront.length_eq]
    have hdim : p.shape.getD pre.length 0 = e := by simp [he]
    -- The first `e` positions of the axis read the first array, the others what is left.
    simp only [Shape.total, sum_range_add, joinedGet, hget, hset, hdim]
    refine congrArg₂ (· + ·) (sum_congr rfl fun i hi => ?_) (sum_congr rfl fun i _ => ?_)
    · simp only [if_pos (mem_range.1 hi)]
    · simp only [if_neg (Nat.not_lt.2 (Nat.le_add_right e i)), Nat.add_sub_cancel_left]

/-! ## Products of arrays -/

section
variable {a b c : NDArray Int64} {front back : List Nat} {i j k l m n : Nat}

theorem residue_get_dot (ha : a.shape = pre ++ [k]) (hb : b.shape = k :: post)
    (hfront : pre.InBounds front) (hback : post.InBounds back) :
    residue ((dot 0 a b).get (front ++ back)) =
      ∑ p ∈ range k, residue (a.get (front ++ [p])) * residue (b.get (p :: back)) := by
  have hix : (dot 0 a b).shape.InBounds (front ++ back) :=
    shape_dot ha hb ▸ hfront.append hback
  have hget : (dot 0 a b).get (front ++ back) = dotAt 0 a b (front ++ back) := get_ofFn _ hix
  rw [hget, dotAt_append ha hfront.length_eq, residue_foldl, residue_zero, zero_add]
  simp only [residue_mul]
  rfl

theorem shape_dot_matrix (ha : a.shape = [m, k]) (hb : b.shape = [l, n]) :
    (dot 0 a b).shape = [m, n] := by
  rw [dot, shape_ofFn, ha, hb]
  rfl

theorem residue_get_dot_matrix (ha : a.shape = [m, k]) (hb : b.shape = [k, n]) (hi : i < m)
    (hj : j < n) : residue ((dot 0 a b).get [i, j]) =
      ∑ p ∈ range k, residue (a.get [i, p]) * residue (b.get [p, j]) := by
  have hfront : Shape.InBounds [m] [i] := ⟨hi, trivial⟩
  have hback : Shape.InBounds [n] [j] := ⟨hj, trivial⟩
  have hdot : a.shape = [m] ++ [k] → residue ((dot 0 a b).get ([i] ++ [j])) = _ :=
    fun ha => residue_get_dot ha hb hfront hback
  exact hdot ha

theorem get_transpose_matrix (ha : a.shape = [m, n]) (hi : i < m) (hj : j < n) :
    a.transpose.get [j, i] = a.get [i, j] := by
  have hix : Shape.InBounds a.shape.reverse [j, i] := by
    rw [ha]
    exact ⟨hj, hi, trivial⟩
  exact get_transpose hix

/-- A multi-index of a matrix. -/
theorem exists_of_inBounds_matrix {ix : List Nat} (h : Shape.InBounds [m, n] ix) :
    ∃ i j, ix = [i, j] ∧ i < m ∧ j < n := by
  match ix, h with
  | [i, j], h => exact ⟨i, j, rfl, h.1, h.2.1⟩

/-- Matrices with congruent entries are equal. -/
theorem ext_matrix (ha : a.shape = [m, n]) (hb : b.shape = [m, n])
    (h : ∀ i < m, ∀ j < n, residue (a.get [i, j]) = residue (b.get [i, j])) : a = b := by
  refine ext_get (ha.trans hb.symm) fun ix hix => ?_
  obtain ⟨i, j, rfl, hi, hj⟩ := exists_of_inBounds_matrix (ha ▸ hix)
  exact residue_injective (h i hi j hj)

theorem transpose_dot (ha : a.shape = [m, k]) (hb : b.shape = [k, n]) :
    (dot 0 a b).transpose = dot 0 b.transpose a.transpose := by
  have hshape := shape_dot_matrix ha hb
  have ha' : a.transpose.shape = [k, m] := by rw [shape_transpose, ha]; rfl
  have hb' : b.transpose.shape = [n, k] := by rw [shape_transpose, hb]; rfl
  refine ext_matrix (by rw [shape_transpose, hshape]; rfl) (shape_dot_matrix hb' ha')
    fun j hj i hi => ?_
  rw [get_transpose_matrix hshape hi hj, residue_get_dot_matrix ha hb hi hj,
    residue_get_dot_matrix hb' ha' hj hi]
  refine sum_congr rfl fun p hp => ?_
  have hp : p < k := mem_range.1 hp
  rw [get_transpose_matrix ha hi hp, get_transpose_matrix hb hp hj, mul_comm]

theorem dot_assoc (ha : a.shape = [m, k]) (hb : b.shape = [k, l]) (hc : c.shape = [l, n]) :
    dot 0 (dot 0 a b) c = dot 0 a (dot 0 b c) := by
  have hab := shape_dot_matrix ha hb
  have hbc := shape_dot_matrix hb hc
  refine ext_matrix (shape_dot_matrix hab hc) (shape_dot_matrix ha hbc) fun i hi j hj => ?_
  calc residue ((dot 0 (dot 0 a b) c).get [i, j])
      = ∑ q ∈ range l, ∑ p ∈ range k,
          residue (a.get [i, p]) * residue (b.get [p, q]) * residue (c.get [q, j]) := by
        rw [residue_get_dot_matrix hab hc hi hj]
        refine sum_congr rfl fun q hq => ?_
        rw [residue_get_dot_matrix ha hb hi (mem_range.1 hq), sum_mul]
    _ = ∑ p ∈ range k, ∑ q ∈ range l,
          residue (a.get [i, p]) * residue (b.get [p, q]) * residue (c.get [q, j]) := sum_comm
    _ = residue ((dot 0 a (dot 0 b c)).get [i, j]) := by
        rw [residue_get_dot_matrix ha hbc hi hj]
        refine sum_congr rfl fun p hp => ?_
        rw [residue_get_dot_matrix hb hc (mem_range.1 hp) hj, mul_sum]
        exact sum_congr rfl fun q _ => mul_assoc _ _ _

end

end NDArray

/-! ## Integers in tensors -/

/-- The integer that an element is: 0 or 1 for a Boolean. Floats are converted. -/
def DType.toInt : (d : DType) → d.Elem → Int
  | .i64, x => x.toInt
  | .bool, x => if x then 1 else 0
  | .f64, x => (convert .f64 .i64 x).toInt
  | .f32, x => (convert .f32 .i64 x).toInt

theorem DType.toInt_convert_i64 (d : DType) (x : d.Elem) :
    (convert d .i64 x).toInt = d.toInt x := by
  cases d with
  | bool => cases x <;> rfl
  | _ => rfl

/-- Integers and Booleans are converted to what they stand for, except to truth values. -/
theorem DType.toInt_convert {src dst : DType} (h : src = dst ∨ dst = .i64) (x : src.Elem) :
    dst.toInt (convert src dst x) = src.toInt x := by
  rcases h with rfl | rfl
  · rw [convert_self]
  · exact src.toInt_convert_i64 x

namespace Tensor
variable {x y : Tensor} {ix : List Nat} {k : Nat}

/-- The integer at a row-major position. -/
def intAt (x : Tensor) (k : Nat) : Int := x.dtype.toInt (x.array.data.getD k default)

/-- The integer at a multi-index. -/
def int (x : Tensor) (ix : List Nat) : Int := x.intAt (x.shape.offset ix)

/-- The exact sum of the integers in a tensor. -/
def total (x : Tensor) : Int := (x.array.data.map x.dtype.toInt).sum

theorem residue_get_as (h : x.shape.InBounds ix) :
    residue ((x.as .i64).get ix) = (x.int ix : ZMod (2 ^ 64)) := by
  rw [as, NDArray.get_map _ _ h, residue, DType.toInt_convert_i64]
  rfl

theorem sum_residue_as (x : Tensor) :
    ((x.as .i64).data.map residue).sum = (x.total : ZMod (2 ^ 64)) := by
  rw [total, Int.cast_list_sum, as, NDArray.map, List.map_map, List.map_map]
  refine congrArg List.sum (List.map_congr_left fun e _ => ?_)
  rw [Function.comp_apply, residue, DType.toInt_convert_i64]
  rfl

/-- The sum that evaluation finds. -/
def wrappingSum (x : Tensor) : Int64 := (x.as .i64).data.foldl (fun acc e => acc + e) 0

theorem residue_wrappingSum (x : Tensor) :
    residue x.wrappingSum = (x.total : ZMod (2 ^ 64)) := by
  rw [wrappingSum, residue_foldl fun e => e, residue_zero, zero_add, x.sum_residue_as]

/-- What the product `r` of two tensors is, whose shapes are `pre ++ [k]` and `k :: post`: every
element is congruent to the exact sum of products over the inner axis, also by row-major
positions, and in whatever order the products are added up. -/
structure IsExactProduct (x y : Tensor) (pre : Shape) (k : Nat) (post : Shape)
    (r : NDArray Int64) : Prop where
  left_shape : x.shape = pre ++ [k]
  right_shape : y.shape = k :: post
  shape_eq : r.shape = pre ++ post
  get_modEq : ∀ front back, pre.InBounds front → post.InBounds back →
    (r.get (front ++ back)).toInt ≡
      ∑ p ∈ range k, x.int (front ++ [p]) * y.int (p :: back) [ZMOD 2 ^ 64]
  data_modEq : ∀ i < pre.size, ∀ j < post.size,
    (r.data.getD (i * post.size + j) 0).toInt ≡
      ∑ p ∈ range k, x.intAt (i * k + p) * y.intAt (p * post.size + j) [ZMOD 2 ^ 64]
  value_eq : ∀ front back, pre.InBounds front → post.InBounds back → ∀ t : AddTree,
    t.terms.Perm ((List.range k).map fun p =>
      (x.as .i64).get (front ++ [p]) * (y.as .i64).get (p :: back)) →
    t.value = r.get (front ++ back)

theorem isExactProduct_dot {pre post : Shape} (hx : x.shape = pre ++ [k])
    (hy : y.shape = k :: post) :
    x.IsExactProduct y pre k post (NDArray.dot 0 (x.as .i64) (y.as .i64)) := by
  have hget : ∀ front back, pre.InBounds front → post.InBounds back →
      residue ((NDArray.dot 0 (x.as .i64) (y.as .i64)).get (front ++ back)) =
        ((∑ p ∈ range k, x.int (front ++ [p]) * y.int (p :: back) : Int) : ZMod (2 ^ 64)) := by
    intro front back hfront hback
    rw [NDArray.residue_get_dot hx hy hfront hback, Int.cast_sum]
    refine sum_congr rfl fun p hp => ?_
    have hp : p < k := mem_range.1 hp
    have hleft : x.shape.InBounds (front ++ [p]) :=
      hx ▸ hfront.append (show Shape.InBounds [k] [p] from ⟨hp, trivial⟩)
    have hright : y.shape.InBounds (p :: back) := hy ▸ ⟨hp, hback⟩
    rw [residue_get_as hleft, residue_get_as hright, Int.cast_mul]
  have hshape : (NDArray.dot 0 (x.as .i64) (y.as .i64)).shape = pre ++ post :=
    NDArray.shape_dot hx hy
  refine ⟨hx, hy, hshape, fun front back hfront hback => ?_, fun i hi j hj => ?_,
    fun front back hfront hback t ht => ?_⟩
  · exact residue_eq_intCast_iff.1 (hget front back hfront hback)
  · have hfront := Shape.coord_inBounds hi
    have hback := Shape.coord_inBounds hj
    have hmod := residue_eq_intCast_iff.1 (hget _ _ hfront hback)
    have hleft : ∀ p, x.int (pre.coord i ++ [p]) = x.intAt (i * k + p) := by
      intro p
      rw [int, hx, Shape.offset_append hfront, Shape.offset_coord hi]
      simp [Shape.offset]
    have hright : ∀ p, y.int (p :: post.coord j) = y.intAt (p * post.size + j) := by
      intro p
      rw [int, hy, Shape.offset, Shape.offset_coord hj]
    simp only [hleft, hright] at hmod
    rw [NDArray.get, hshape, Shape.offset_append hfront, Shape.offset_coord hi,
      Shape.offset_coord hj] at hmod
    exact hmod
  · refine AddTree.value_eq ht ?_
    rw [NDArray.residue_get_dot hx hy hfront hback, List.map_map]
    simp only [Function.comp_def, residue_mul]
    rfl

theorem as_transpose (x : Tensor) (d : DType) :
    (⟨x.dtype, x.array.transpose⟩ : Tensor).as d = (x.as d).transpose :=
  NDArray.map_transpose _ _

end Tensor

/-! ## Operations on integers -/

namespace DType
variable {a b : DType}

theorem arithmetic_of_isFloat_eq_false (h : a.isFloat = false) : a.arithmetic = .i64 := by
  cases a <;> first | rfl | cases h

theorem promote_of_integers (ha : a.isFloat = false) (hb : b.isFloat = false) (preferred : DType) :
    promote a b preferred = if a = b then a else .i64 :=
  match a, b, ha, hb with
  | .i64, .i64, _, _ | .i64, .bool, _, _ | .bool, .i64, _, _ | .bool, .bool, _, _ => rfl

end DType

namespace Op
variable {x y z r : Tensor} {args : List Tensor} {preferred : DType} {out : TensorType} {s : Shape}
  {m k l n : Nat}

/-- Integers have a product exactly when it can be addressed. -/
theorem eval_matmul_integers [FloatProduct] (h : matmulShape x.shape y.shape = .ok s) :
    matmul.eval [x, y] ⟨s, .i64⟩ = .ok r ↔ s.addressable = true ∧
      ⟨.i64, NDArray.dot 0 (x.as .i64) (y.as .i64)⟩ = r := by
  rw [eval, evalMatmul, Except.bind_eq_ok]
  constructor
  · rintro ⟨a, ha, hr⟩
    obtain ⟨hs, rfl⟩ := (integerProduct_eq_ok_iff (a := x.as .i64) (b := y.as .i64) h).1 ha
    exact ⟨hs, Except.ok.inj hr⟩
  · rintro ⟨hs, rfl⟩
    exact ⟨_, (integerProduct_eq_ok_iff (a := x.as .i64) (b := y.as .i64) h).2 ⟨hs, rfl⟩, rfl⟩

section
variable (hx : x.dtype.isFloat = false)
include hx

theorem infer_matmul_integers (hy : y.dtype.isFloat = false)
    (h : matmulShape x.shape y.shape = .ok s) :
    matmul.infer [x.type, y.type] preferred = .ok ⟨s, .i64⟩ := by
  have hdtype : (DType.promote x.dtype y.dtype preferred).arithmetic = .i64 :=
    DType.arithmetic_of_isFloat_eq_false (by rw [DType.isFloat_promote, hx, hy]; rfl)
  rw [infer, Tensor.type, Tensor.type, h, hdtype]
  rfl

theorem yields_matmul [FloatProduct] (hy : y.dtype.isFloat = false) (hs : s.addressable = true)
    (h : matmulShape x.shape y.shape = .ok s) :
    matmul.Yields preferred [x, y] ⟨.i64, NDArray.dot 0 (x.as .i64) (y.as .i64)⟩ :=
  ⟨_, infer_matmul_integers hx hy h, (eval_matmul_integers h).2 ⟨hs, rfl⟩⟩

theorem yields_sum [FloatProduct] : sum.Yields preferred [x] (.scalar .i64 x.wrappingSum) := by
  have hdtype := DType.arithmetic_of_isFloat_eq_false hx
  refine ⟨.scalar x.dtype.arithmetic, rfl, ?_⟩
  rw [eval, TensorType.scalar, hdtype]
  rfl

end

theorem yields_transpose [FloatProduct] (h : x.shape = [m, n]) :
    transpose.Yields preferred [x] ⟨x.dtype, x.array.transpose⟩ := by
  refine ⟨⟨x.shape.reverse, x.dtype⟩, ?_, rfl⟩
  have hrank : ¬2 < x.type.rank := by
    rw [TensorType.rank, Tensor.type, h]
    simp
  rw [List.map_singleton, infer, if_neg hrank]
  rfl

/-- Integers and Booleans have the type in common that they all are of, or that of integers. -/
theorem dtype_of_foldl {ts : List TensorType} {d : DType} (hd : d.isFloat = false)
    (h : ∀ t ∈ ts, t.dtype.isFloat = false) :
    ts.foldl (fun acc t => DType.promote acc t.dtype preferred) d = .i64 ∨
      d = ts.foldl (fun acc t => DType.promote acc t.dtype preferred) d ∧
        ∀ t ∈ ts, t.dtype = ts.foldl (fun acc t => DType.promote acc t.dtype preferred) d := by
  induction ts generalizing d with
  | nil => exact .inr ⟨rfl, nofun⟩
  | cons t ts ih =>
    obtain ⟨ht, hts⟩ := List.forall_mem_cons.1 h
    rw [List.foldl_cons, DType.promote_of_integers hd ht]
    by_cases heq : d = t.dtype
    · rw [if_pos heq]
      rcases ih hd hts with hcommon | ⟨hcommon, hrest⟩
      · exact .inl hcommon
      · exact .inr ⟨hcommon, List.forall_mem_cons.2 ⟨heq.symm.trans hcommon, hrest⟩⟩
    · rw [if_neg heq]
      rcases ih (show DType.i64.isFloat = false from rfl) hts with hcommon | ⟨hcommon, -⟩
      · exact .inl hcommon
      · exact .inl hcommon.symm

theorem dtype_of_infer_concat {axis : Nat} (h : ∀ x ∈ args, x.dtype.isFloat = false)
    (hinfer : (concat axis).infer (args.map Tensor.type) preferred = .ok out) :
    ∀ x ∈ args, x.dtype = out.dtype ∨ out.dtype = .i64 := by
  cases args with
  | nil => nofun
  | cons first rest =>
    obtain ⟨s, -, rfl⟩ := infer_concat_eq_ok hinfer
    obtain ⟨hfirst, hrest⟩ := List.forall_mem_cons.1 h
    have hrest : ∀ t ∈ rest.map Tensor.type, t.dtype.isFloat = false :=
      List.forall_mem_map.2 hrest
    rcases dtype_of_foldl hfirst hrest with hcommon | ⟨hcommon, hall⟩
    · exact fun x _ => .inr hcommon
    · exact List.forall_mem_cons.2
        ⟨.inl hcommon, fun x hx => .inl (hall _ (List.mem_map_of_mem hx))⟩

/-- Joining integers keeps their exact sum. -/
theorem total_of_concat [FloatProduct] {axis : Nat} (h : ∀ x ∈ args, x.dtype.isFloat = false)
    (hinfer : (concat axis).infer (args.map Tensor.type) preferred = .ok out)
    (heval : (concat axis).eval args out = .ok r) : r.total = (args.map Tensor.total).sum := by
  obtain ⟨pre, post, rfl, hshape, hparts⟩ := split_of_infer_concat hinfer
  have hdtype := dtype_of_infer_concat h hinfer
  have htype := type_of_eval rfl hinfer heval
  obtain ⟨joined, hjoined, rfl⟩ := eval_concat_eq_ok.1 heval
  have hjoinedShape : joined.shape =
      pre ++ Shape.joinedLength pre.length ((args.map fun x => x.as out.dtype).map NDArray.shape) ::
        post := by
    rw [List.map_map]
    exact (congrArg TensorType.shape htype).trans hshape
  have hparts' : ∀ p ∈ args.map fun x => x.as out.dtype, ∃ e, p.shape = pre ++ e :: post :=
    List.forall_mem_map.2 hparts
  rw [Tensor.total, NDArray.sum_data,
    Shape.total_congr fun ix hix => by rw [NDArray.get_of_concat hjoined hix], hjoinedShape,
    NDArray.total_joinedGet _ hparts', List.map_map]
  refine congrArg List.sum (List.map_congr_left fun x hx => ?_)
  rw [Function.comp_apply, Tensor.as, NDArray.map, List.map_map, Tensor.total]
  exact congrArg List.sum (List.map_congr_left fun e _ => DType.toInt_convert (hdtype x hx) e)

section
variable [FloatProduct]

/-- Transposing reverses a product. -/
theorem yields_transpose_matmul (hx : x.dtype.isFloat = false)
    (hy : y.dtype.isFloat = false) (hxs : x.shape = [m, k]) (hys : y.shape = [k, n])
    (hs : Shape.addressable [m, n] = true) :
    ∃ xy x' y' r, matmul.Yields preferred [x, y] xy ∧ transpose.Yields preferred [xy] r ∧
      transpose.Yields preferred [x] x' ∧ transpose.Yields preferred [y] y' ∧
      matmul.Yields preferred [y', x'] r := by
  have hproduct : matmulShape x.shape y.shape = .ok [m, n] := by simp [matmulShape, hxs, hys]
  let x' : Tensor := ⟨x.dtype, x.array.transpose⟩
  let y' : Tensor := ⟨y.dtype, y.array.transpose⟩
  have hreverse : matmulShape y'.shape x'.shape = .ok [n, m] := by
    rw [show y'.shape = _ from y.array.shape_transpose, show x'.shape = _ from
      x.array.shape_transpose, show x.array.shape = _ from hxs, show y.array.shape = _ from hys]
    simp [matmulShape]
  let r : Tensor := ⟨.i64, (NDArray.dot (0 : Int64) (x.as .i64) (y.as .i64)).transpose⟩
  have hentries : r = ⟨.i64, NDArray.dot 0 (y'.as .i64) (x'.as .i64)⟩ := by
    refine congrArg (Tensor.mk .i64) ?_
    rw [y.as_transpose, x.as_transpose]
    exact NDArray.transpose_dot hxs hys
  refine ⟨_, x', y', r, yields_matmul hx hy hs hproduct,
    yields_transpose (NDArray.shape_dot_matrix hxs hys), yields_transpose hxs,
    yields_transpose hys, ?_⟩
  rw [hentries]
  exact yields_matmul (x := y') (y := x') hy hx (Shape.addressable_reverse [m, n] ▸ hs) hreverse

/-- Products of three matrices do not depend on the brackets. -/
theorem yields_matmul_assoc (hx : x.dtype.isFloat = false)
    (hy : y.dtype.isFloat = false) (hz : z.dtype.isFloat = false) (hxs : x.shape = [m, k])
    (hys : y.shape = [k, l]) (hzs : z.shape = [l, n]) (hxy : Shape.addressable [m, l] = true)
    (hyz : Shape.addressable [k, n] = true) (hs : Shape.addressable [m, n] = true) :
    ∃ xy yz r, matmul.Yields preferred [x, y] xy ∧ matmul.Yields preferred [xy, z] r ∧
      matmul.Yields preferred [y, z] yz ∧ matmul.Yields preferred [x, yz] r := by
  let xy : Tensor := ⟨.i64, NDArray.dot 0 (x.as .i64) (y.as .i64)⟩
  let yz : Tensor := ⟨.i64, NDArray.dot 0 (y.as .i64) (z.as .i64)⟩
  have hxys : xy.shape = [m, l] := NDArray.shape_dot_matrix hxs hys
  have hyzs : yz.shape = [k, n] := NDArray.shape_dot_matrix hys hzs
  have hproduct : ∀ {a b : Tensor} {i j p : Nat}, a.shape = [i, p] → b.shape = [p, j] →
      matmulShape a.shape b.shape = .ok [i, j] := fun ha hb => by simp [matmulShape, ha, hb]
  have hentries : NDArray.dot 0 (xy.as .i64) (z.as .i64) =
      NDArray.dot 0 (x.as .i64) (yz.as .i64) := by
    rw [show xy.as .i64 = xy.array from xy.as_self, show yz.as .i64 = yz.array from yz.as_self]
    exact NDArray.dot_assoc hxs hys hzs
  refine ⟨xy, yz, _, yields_matmul hx hy hxy (hproduct hxs hys),
    yields_matmul (show DType.i64.isFloat = false from rfl) hz hs (hproduct hxys hzs),
    yields_matmul hy hz hyz (hproduct hys hzs), ?_⟩
  rw [hentries]
  exact yields_matmul hx (show DType.i64.isFloat = false from rfl) hs (hproduct hxs hyzs)

/-- The sum of joined arrays is the sum of their sums. -/
theorem yields_sum_of_concat {axis : Nat} (h : ∀ x ∈ args, x.dtype.isFloat = false)
    (hinfer : (concat axis).infer (args.map Tensor.type) preferred = .ok out)
    (heval : (concat axis).eval args out = .ok r) :
    ∃ sums, List.Forall₂ (fun x v => sum.Yields preferred [x] (.scalar .i64 v)) args sums ∧
      sum.Yields preferred [r] (.scalar .i64 (sums.foldl (fun acc v => acc + v) 0)) := by
  have hdtype : r.dtype.isFloat = false := by
    rw [show r.dtype = out.dtype from congrArg TensorType.dtype (type_of_eval rfl hinfer heval)]
    cases args with
    | nil => cases hinfer
    | cons first rest =>
      rcases dtype_of_infer_concat h hinfer first List.mem_cons_self with hfirst | hout
      · rw [← hfirst, h first List.mem_cons_self]
      · rw [hout]
        rfl
  refine ⟨args.map Tensor.wrappingSum, ?_, ?_⟩
  · exact List.forall₂_map_right_iff.2 (List.forall₂_same.2 fun x hx => yields_sum (h x hx))
  · have hsum : r.wrappingSum = (args.map Tensor.wrappingSum).foldl (fun acc v => acc + v) 0 := by
      refine residue_injective ?_
      rw [residue_foldl fun v => v, residue_zero, zero_add, r.residue_wrappingSum,
        total_of_concat h hinfer heval, Int.cast_list_sum, List.map_map, List.map_map]
      exact congrArg List.sum (List.map_congr_left fun x _ => x.residue_wrappingSum.symm)
    rw [← hsum]
    exact yields_sum hdtype

/-- Products and sums of integers and Booleans are the exact ones modulo `2 ^ 64`, in whatever
order terms are added, and there is a product exactly when it can be addressed. So, where the
arrays can be addressed, transposing reverses products of matrices, products of three do not
depend on the brackets, and the sum of joined arrays is the sum of their sums. -/
theorem integer_algebra (preferred : DType) :
    (∀ x y out, (Tensor.dtype x).isFloat = false → (Tensor.dtype y).isFloat = false →
      matmul.infer [x.type, y.type] preferred = .ok out →
      ∃ pre k post r, out = ⟨pre ++ post, .i64⟩ ∧ x.IsExactProduct y pre k post r ∧
        ∀ v, matmul.eval [x, y] out = .ok v ↔ out.shape.addressable = true ∧ ⟨.i64, r⟩ = v) ∧
    (∀ x, (Tensor.dtype x).isFloat = false →
      ∃ v : Int64, sum.Yields preferred [x] (.scalar .i64 v) ∧ v.toInt ≡ x.total [ZMOD 2 ^ 64] ∧
        ∀ t : AddTree, t.terms.Perm (x.as .i64).data → t.value = v) ∧
    (∀ x y m k n, (Tensor.dtype x).isFloat = false → (Tensor.dtype y).isFloat = false →
      x.shape = [m, k] → y.shape = [k, n] → Shape.addressable [m, n] = true →
      ∃ xy x' y' r, matmul.Yields preferred [x, y] xy ∧ transpose.Yields preferred [xy] r ∧
        transpose.Yields preferred [x] x' ∧ transpose.Yields preferred [y] y' ∧
        matmul.Yields preferred [y', x'] r) ∧
    (∀ x y z m k l n, (Tensor.dtype x).isFloat = false → (Tensor.dtype y).isFloat = false →
      (Tensor.dtype z).isFloat = false → x.shape = [m, k] → y.shape = [k, l] → z.shape = [l, n] →
      Shape.addressable [m, l] = true → Shape.addressable [k, n] = true →
      Shape.addressable [m, n] = true →
      ∃ xy yz r, matmul.Yields preferred [x, y] xy ∧ matmul.Yields preferred [xy, z] r ∧
        matmul.Yields preferred [y, z] yz ∧ matmul.Yields preferred [x, yz] r) ∧
    ∀ axis args out, (∀ x ∈ args, (Tensor.dtype x).isFloat = false) →
      (concat axis).infer (args.map Tensor.type) preferred = .ok out →
      (out.shape.addressable = true → ∃ r, (concat axis).eval args out = .ok r) ∧
      ∀ r, (concat axis).eval args out = .ok r →
        ∃ sums, List.Forall₂ (fun x v => sum.Yields preferred [x] (.scalar .i64 v)) args sums ∧
          sum.Yields preferred [r] (.scalar .i64 (sums.foldl (fun acc v => acc + v) 0)) := by
  refine ⟨fun x y out hx hy hinfer => ?_, fun x hx => ?_,
    fun x y m k n hx hy hxs hys => yields_transpose_matmul hx hy hxs hys,
    fun x y z m k l n hx hy hz hxs hys hzs => yields_matmul_assoc hx hy hz hxs hys hzs,
    fun axis args out h hinfer => ⟨fun hout => ?_, fun r => yields_sum_of_concat h hinfer⟩⟩
  · obtain ⟨s, hs, -⟩ := infer_matmul_eq_ok hinfer
    obtain ⟨pre, k, post, hxs, hys, rfl, -⟩ := of_matmulShape hs
    rw [infer_matmul_integers hx hy hs] at hinfer
    obtain rfl := Except.ok.inj hinfer
    exact ⟨pre, k, post, _, rfl, Tensor.isExactProduct_dot hxs hys, fun v =>
      eval_matmul_integers hs⟩
  · refine ⟨x.wrappingSum, yields_sum hx, ?_, fun t ht => ?_⟩
    · exact residue_eq_intCast_iff.1 x.residue_wrappingSum
    · exact AddTree.value_eq ht (x.residue_wrappingSum.trans x.sum_residue_as.symm)
  · obtain ⟨r, hr, -⟩ := exists_eval_of_needsFloat_eq_false rfl hout hinfer
    exact ⟨r, hr⟩

end

/-- Products and sums that overflow, a product over an axis without elements among them. -/
theorem integer_algebra_overflow :
    let a : Tensor := ⟨.i64, [2, 2], [Int64.maxValue, 1, 2, 3], rfl⟩
    let e : Tensor := ⟨.bool, [2, 0], [], rfl⟩
    let f : Tensor := ⟨.i64, [0, 2], [], rfl⟩
    (∃ pre k post r, matmul.eval [a, a] ⟨[2, 2], .i64⟩ = .ok ⟨.i64, r⟩ ∧
      a.IsExactProduct a pre k post r) ∧
    (∃ v : Int64, sum.Yields .f64 [a] (.scalar .i64 v) ∧ v.toInt ≡ 2 ^ 63 + 5 [ZMOD 2 ^ 64]) ∧
    (∃ ae a' e' r, matmul.Yields .f64 [a, e] ae ∧ transpose.Yields .f64 [ae] r ∧
      transpose.Yields .f64 [a] a' ∧ transpose.Yields .f64 [e] e' ∧
      matmul.Yields .f64 [e', a'] r) ∧
    (∃ ef fa r, matmul.Yields .f64 [e, f] ef ∧ matmul.Yields .f64 [ef, a] r ∧
      matmul.Yields .f64 [f, a] fa ∧ matmul.Yields .f64 [e, fa] r) ∧
    ∃ r sums, (concat 1).eval [a, e] ⟨[2, 2], .i64⟩ = .ok r ∧
      List.Forall₂ (fun x v => sum.Yields .f64 [x] (.scalar .i64 v)) [a, e] sums ∧
      sum.Yields .f64 [r] (.scalar .i64 (sums.foldl (fun acc v => acc + v) 0)) := by
  intro a e f
  obtain ⟨hproduct, hsum, htranspose, hassoc, hconcat⟩ := integer_algebra .f64
  obtain ⟨hvalue, hparts⟩ := hconcat 1 [a, e] ⟨[2, 2], .i64⟩ (by decide) rfl
  refine ⟨?_, ?_, htranspose a e 2 2 0 rfl rfl rfl rfl rfl,
    hassoc e f a 2 0 2 2 rfl rfl rfl rfl rfl rfl rfl rfl rfl, ?_⟩
  · obtain ⟨pre, k, post, r, -, hexact, hvalue⟩ := hproduct a a ⟨[2, 2], .i64⟩ rfl rfl rfl
    exact ⟨pre, k, post, r, (hvalue _).2 ⟨rfl, rfl⟩, hexact⟩
  · obtain ⟨v, hv, hmod, -⟩ := hsum a rfl
    exact ⟨v, hv, hmod⟩
  · obtain ⟨r, hr⟩ := hvalue rfl
    obtain ⟨sums, hsums, htotal⟩ := hparts r hr
    exact ⟨r, sums, hr, hsums, htotal⟩

/-- Arrays without elements can have axes too long for their product or their concatenation to be
addressed: it has no value then, though the product in the other brackets and the sums of the
parts have one. -/
theorem not_integer_algebra :
    (¬ ∀ x y z m k l n, (Tensor.dtype x).isFloat = false → (Tensor.dtype y).isFloat = false →
      (Tensor.dtype z).isFloat = false → x.shape = [m, k] → y.shape = [k, l] → z.shape = [l, n] →
      x.shape.addressable = true → y.shape.addressable = true → z.shape.addressable = true →
      ∀ yz r, matmul.Yields .f64 [y, z] yz → matmul.Yields .f64 [x, yz] r →
        ∃ xy, matmul.Yields .f64 [x, y] xy ∧ matmul.Yields .f64 [xy, z] r) ∧
    ¬ ∀ axis args out, (∀ x ∈ args, (Tensor.dtype x).isFloat = false) →
      (∀ x ∈ args, Shape.addressable (Tensor.shape x) = true) →
      (concat axis).infer (args.map Tensor.type) .f64 = .ok out →
      ∃ r sums, (concat axis).eval args out = .ok r ∧
        List.Forall₂ (fun x v => sum.Yields .f64 [x] (.scalar .i64 v)) args sums ∧
        sum.Yields .f64 [r] (.scalar .i64 (sums.foldl (fun acc v => acc + v) 0)) := by
  refine ⟨fun h => ?_, fun h => ?_⟩
  · have hinner : matmul.Yields .f64 [⟨.i64, [0, 4294967296], [], rfl⟩,
        ⟨.i64, [4294967296, 0], [], rfl⟩] _ := yields_matmul (s := [0, 0]) rfl rfl rfl rfl
    obtain ⟨xy, ⟨out, hinfer, heval⟩, -⟩ := h ⟨.i64, [4294967296, 0], [], rfl⟩ _ _ _ _ _ _ rfl rfl
      rfl rfl rfl rfl rfl rfl rfl _ _ hinner (yields_matmul (s := [4294967296, 0]) rfl rfl rfl rfl)
    cases hinfer
    cases ((eval_matmul_integers rfl).1 heval).1
  · obtain ⟨r, sums, hr, -⟩ := h 1 (List.replicate 2 ⟨.i64, [0, 4611686018427387904], [], rfl⟩)
      ⟨[0, 9223372036854775808], .i64⟩ (List.forall_mem_replicate.2 (.inr rfl))
      (List.forall_mem_replicate.2 (.inr rfl)) rfl
    cases hr

end Op

end ArrayTrace
