import ArrayTrace.Op.Eval
import ArrayTrace.Proofs.Windows

/-!
# Products of vectors and matrices

Products of integers are computed from the positions of the terms, row by row, where a vector
counts as one row or one column. The elements are those that the multi-indices of the operands
lead to, and a product has a value exactly when its shape can be addressed.
-/

namespace ArrayTrace

/-- The positions of blocks, one block after the other. -/
theorem flatMap_range_block (outer block : Nat) :
    ((List.range outer).flatMap fun o => (List.range block).map fun j => o * block + j) =
      List.range (outer * block) := by
  induction outer with
  | zero => simp
  | succ outer ih =>
    rw [List.range_succ, List.flatMap_append, ih, Nat.succ_mul, List.range_add]
    simp

/-! ## Positions in blocks -/

namespace Shape
variable {s t : Shape} {o j : Nat}

theorem size_append (s t : Shape) : size (s ++ t) = size s * size t := by
  induction s with
  | nil => simp
  | cons d s ih => rw [List.cons_append, size_cons, size_cons, ih, Nat.mul_assoc]

theorem block_div_mod {n : Nat} (hj : j < n) : (o * n + j) / n = o ∧ (o * n + j) % n = j := by
  rw [Nat.mul_comm, Nat.mul_add_div (by omega), Nat.div_eq_of_lt hj, Nat.mul_add_mod,
    Nat.mod_eq_of_lt hj]
  exact ⟨rfl, rfl⟩

theorem block_lt {m n : Nat} (ho : o < m) (hj : j < n) : o * n + j < m * n := by
  calc o * n + j < o * n + n := Nat.add_lt_add_left hj _
    _ = (o + 1) * n := by rw [Nat.succ_mul]
    _ ≤ m * n := Nat.mul_le_mul_right _ ho

theorem coord_cons (d : Nat) (hj : j < size s) :
    coord (d :: s) (o * size s + j) = o :: coord s j := by
  obtain ⟨hdiv, hmod⟩ := block_div_mod (o := o) hj
  rw [coord, hdiv, hmod]

theorem coord_append (ho : o < size s) (hj : j < size t) :
    coord (s ++ t) (o * size t + j) = coord s o ++ coord t j := by
  induction s generalizing o with
  | nil =>
    obtain rfl : o = 0 := Nat.lt_one_iff.1 ho
    rw [Nat.zero_mul, Nat.zero_add]
    rfl
  | cons d ds ih =>
    have hpos : 0 < size ds := Nat.pos_of_ne_zero fun h => by simp [h] at ho
    have hrest : o % size ds * size t + j < size ds * size t := block_lt (Nat.mod_lt _ hpos) hj
    have hblock : o * size t + j =
        o / size ds * size (ds ++ t) + (o % size ds * size t + j) := by
      rw [size_append, ← Nat.add_assoc, ← Nat.mul_assoc, ← Nat.add_mul, Nat.div_add_mod']
    rw [hblock, List.cons_append, coord_cons d (by rwa [size_append])]
    rw [ih (Nat.mod_lt _ hpos)]
    rfl

theorem offset_append {front back : List Nat} (h : s.InBounds front) :
    (s ++ t : Shape).offset (front ++ back) = s.offset front * t.size + t.offset back := by
  induction s generalizing front with
  | nil =>
    obtain rfl : front = [] := List.eq_nil_of_length_eq_zero h.length_eq
    simp [offset]
  | cons d s ih =>
    cases front with
    | nil => cases h
    | cons i front =>
      rw [List.cons_append, List.cons_append, offset, offset, ih h.2, size_append, Nat.add_mul,
        Nat.mul_assoc, Nat.add_assoc]

theorem size_reverse (s : Shape) : size s.reverse = s.size := by
  induction s with
  | nil => rfl
  | cons d s ih => rw [List.reverse_cons, size_append, ih, size_cons, size_cons, size_nil,
      Nat.mul_one, Nat.mul_comm]

theorem addressable_reverse (s : Shape) : addressable s.reverse = s.addressable := by
  rw [addressable, addressable, List.filter_reverse, size_reverse]

theorem size_le_size_filter (s : Shape) : s.size ≤ size (s.filter (· ≠ 0)) := by
  induction s with
  | nil => exact Nat.le_refl _
  | cons d s ih =>
    by_cases hd : d = 0
    · simp [hd]
    · rw [List.filter_cons_of_pos (by simpa using hd)]
      exact Nat.mul_le_mul_left d ih

/-- An array that can be addressed has no more elements than can be counted. -/
theorem size_le_of_addressable (h : s.addressable = true) : s.size ≤ maxSize := by
  rw [addressable, decide_eq_true_eq] at h
  exact Nat.le_trans (size_le_size_filter s) h

end Shape

/-! ## Products -/

namespace Op
variable {a b s : Shape}

/-- Vectors and matrices with a product share their inner axis. -/
theorem of_matmulShape (h : matmulShape a b = .ok s) :
    ∃ (pre : Shape) (k : Nat) (post : Shape), a = pre ++ [k] ∧ b = k :: post ∧ s = pre ++ post ∧
      leftDims? a = some (pre.size, k) ∧ rightDim? b = some post.size ∧
      a.length ∈ [1, 2] ∧ b.length ∈ [1, 2] := by
  simp only [matmulShape] at h
  split at h
  · split at h <;> cases h
    rename_i hk
    exact ⟨[], _, [], rfl, by rw [hk], rfl, rfl, rfl, by simp, by simp⟩
  · split at h <;> cases h
    rename_i m _ _ hk
    exact ⟨[m], _, [], rfl, by rw [hk], rfl, by simp [leftDims?], rfl, by simp, by simp⟩
  · split at h <;> cases h
    rename_i _ _ n hk
    exact ⟨[], _, [n], rfl, by rw [hk], rfl, rfl, by simp [rightDim?], by simp, by simp⟩
  · split at h <;> cases h
    rename_i m _ _ n hk
    exact ⟨[m], _, [n], rfl, by rw [hk], rfl, by simp [leftDims?], by simp [rightDim?], by simp,
      by simp⟩
  · cases h

/-- The operands of a product have as many elements as rows times columns. -/
theorem dims_of_matmulShape (h : matmulShape a b = .ok s) :
    ∃ m k n, leftDims? a = some (m, k) ∧ rightDim? b = some n ∧
      a.size = m * k ∧ b.size = k * n ∧ s.size = m * n := by
  obtain ⟨pre, k, post, rfl, rfl, rfl, hleft, hright, -⟩ := of_matmulShape h
  refine ⟨_, k, _, hleft, hright, ?_, rfl, Shape.size_append pre post⟩
  rw [Shape.size_append, Shape.size_cons, Shape.size_nil, Nat.mul_one]

end Op

namespace NDArray

/-- Product of vectors and matrices. -/
def dot {α : Type} [Inhabited α] [Add α] [Mul α] (zero : α) (a b : NDArray α) : NDArray α :=
  ofFn (a.shape.dropLast ++ b.shape.tail) (dotAt zero a b)

variable {α : Type} {a b : NDArray Int64} {pre post : Shape} {k : Nat}

theorem shape_dot (ha : a.shape = pre ++ [k]) (hb : b.shape = k :: post) :
    (dot 0 a b).shape = pre ++ post := by
  rw [dot, shape_ofFn, ha, hb, List.dropLast_concat, List.tail_cons]

/-- The element of a product in the row and column that two multi-indices lead to. -/
theorem dotAt_append {front back : List Nat} (ha : a.shape = pre ++ [k])
    (hfront : front.length = pre.length) :
    dotAt 0 a b (front ++ back) = (List.range k).foldl
      (fun acc p => acc + a.get (front ++ [p]) * b.get (p :: back)) 0 := by
  have hrows : a.shape.length - 1 = front.length := by
    rw [ha, List.length_append, List.length_singleton, Nat.add_sub_cancel, hfront]
  rw [dotAt, hrows, ha, List.getLastD_concat]
  simp only [List.take_left, List.drop_left]

/-- The elements of a product, from the positions of the terms. -/
theorem data_dot (ha : a.shape = pre ++ [k]) (hb : b.shape = k :: post) :
    (dot 0 a b).data = (List.range pre.size).flatMap fun i => (List.range post.size).map fun j =>
      (List.range k).foldl
        (fun acc p => acc + a.data.getD (i * k + p) 0 * b.data.getD (p * post.size + j) 0) 0 := by
  have hdata : (dot 0 a b).data =
      (List.range (pre ++ post).size).map fun q => dotAt 0 a b (Shape.coord (pre ++ post) q) := by
    rw [dot, ha, hb, List.dropLast_concat, List.tail_cons]
    rfl
  rw [hdata, Shape.size_append, ← flatMap_range_block, List.map_flatMap]
  refine List.flatMap_congr fun i hi => ?_
  rw [List.map_map]
  refine List.map_congr_left fun j hj => ?_
  rw [List.mem_range] at hi hj
  have hleft : ∀ p, a.get (pre.coord i ++ [p]) = a.data.getD (i * k + p) 0 := fun p => by
    rw [get, ha, Shape.offset_append (Shape.coord_inBounds hi), Shape.offset_coord hi]
    simp [Shape.offset]
    rfl
  have hright : ∀ p, b.get (p :: post.coord j) = b.data.getD (p * post.size + j) 0 := fun p => by
    rw [get, hb, Shape.offset, Shape.offset_coord hj]
    rfl
  rw [Function.comp_apply, Shape.coord_append hi hj, dotAt_append ha (Shape.length_coord _ _)]
  simp only [hleft, hright]

/-- Elements can be put into the shape they come from if it can be addressed. -/
theorem ofList_data_eq_ok_iff {a b : NDArray α} {s : Shape} (h : a.shape = s) :
    ofList s a.data = .ok b ↔ s.addressable = true ∧ a = b := by
  subst h
  rw [ofList]
  split
  · rw [dif_pos a.length_data, Except.ok.injEq]
    exact (and_iff_right ‹_›).symm
  · refine ⟨fun hr => ?_, fun hs => absurd hs.1 ‹_›⟩
    cases hr

end NDArray

namespace Op
variable {a b r : NDArray Int64} {s : Shape}

/-- A product of integers has a value exactly when it can be addressed. -/
theorem integerProduct_eq_ok_iff (h : matmulShape a.shape b.shape = .ok s) :
    integerProduct a b = .ok r ↔ s.addressable = true ∧ NDArray.dot 0 a b = r := by
  obtain ⟨pre, k, post, ha, hb, rfl, hleft, hright, -⟩ := of_matmulShape h
  have hword : Shape.addressable (pre ++ post) = true → ¬UInt64.size ≤ pre.size * post.size := by
    intro hs
    have hle := Shape.size_le_of_addressable hs
    rw [Shape.size_append] at hle
    exact Nat.not_le.2 (Nat.lt_of_le_of_lt hle (by decide))
  rw [integerProduct, h, hleft, hright]
  refine Except.unless_eq_ok.trans ?_
  rw [← NDArray.data_dot ha hb, Except.mapError_eq_ok,
    NDArray.ofList_data_eq_ok_iff (NDArray.shape_dot ha hb)]
  exact and_iff_right_of_imp fun hr => hword hr.1

end Op

end ArrayTrace
