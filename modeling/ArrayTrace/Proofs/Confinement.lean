import ArrayTrace.Proofs.Positions

/-!
# Code of steps stays within its arrays

The code of every step accesses elements of the arrays of its node and of what the node
reads only, at positions below their sizes. For each operation this follows from what
inference has checked about the shapes.
-/

namespace ArrayTrace

namespace Shape

theorem size_take_mul_drop (s : Shape) (k : Nat) : size (s.take k) * size (s.drop k) = size s := by
  rw [← size_append, List.take_append_drop]

theorem size_drop {s : Shape} {axis : Nat} (h : axis < s.length) :
    size (s.drop axis) = s.getD axis 0 * size (s.drop (axis + 1)) := by
  rw [List.drop_eq_getElem_cons h, size_cons, List.getD_eq_getElem?_getD,
    List.getElem?_eq_getElem h, Option.getD_some]

/-- The blocks of parts that agree behind an axis, laid one after the other. -/
theorem sum_size_drop {axis : Nat} {rest : Shape} (parts : List Shape)
    (h : ∀ p ∈ parts, axis < p.length ∧ p.drop (axis + 1) = rest) :
    (parts.map fun p => size (p.drop axis)).sum = joinedLength axis parts * size rest := by
  induction parts with
  | nil => simp [joinedLength]
  | cons p parts ih =>
    obtain ⟨⟨hp, hdrop⟩, hrest⟩ := List.forall_mem_cons.1 h
    have hjoined : joinedLength axis (p :: parts) = p.getD axis 0 + joinedLength axis parts := rfl
    rw [List.map_cons, List.sum_cons, ih hrest, size_drop hp, hdrop, hjoined, Nat.add_mul]

end Shape

/-- Parts joined along an axis agree with the result in front of the axis and behind it. -/
theorem Op.split_of_concatShape {axis : Nat} {first s : Shape} {parts : List Shape}
    (h : concatShape axis first parts = .ok s) :
    ∃ pre post : Shape, pre.length = axis ∧ s = pre ++ Shape.joinedLength axis parts :: post ∧
      ∀ p ∈ parts, ∃ d, p = pre ++ d :: post := by
  simp only [concatShape] at h
  obtain ⟨-, h⟩ := Except.unless_eq_ok.1 h
  obtain ⟨haxis, h⟩ := Except.unless_eq_ok.1 h
  obtain ⟨_, hparts, h⟩ := Except.bind_eq_ok.1 h
  cases h
  rw [not_le] at haxis
  rw [Except.forM_eq_ok] at hparts
  refine ⟨first.take axis, first.drop (axis + 1), List.length_take_of_le haxis.le, ?_,
    fun p hp => ?_⟩
  · rw [List.set_eq_take_append_cons_drop, if_pos haxis]
  · obtain ⟨hlen, hset⟩ := set_eq_of_checkPart (hparts p hp)
    have hp : axis < p.length := hlen ▸ haxis
    rw [List.set_eq_take_append_cons_drop, List.set_eq_take_append_cons_drop, if_pos hp,
      if_pos haxis] at hset
    obtain ⟨htake, hdrop⟩ := List.append_inj hset (by simp [hlen])
    refine ⟨p[axis], ?_⟩
    rw [← htake, ← (List.cons.inj hdrop).2, ← List.drop_eq_getElem_cons hp,
      List.take_append_drop]

/-- Parts joined along an axis have as many blocks as the result, and their blocks fill
those of the result. -/
theorem Op.sizes_of_concatShape {axis : Nat} {first s : Shape} {parts : List Shape}
    (h : concatShape axis first parts = .ok s) :
    (∀ p ∈ parts, p.size = Shape.size (s.take axis) * Shape.size (p.drop axis)) ∧
      (parts.map fun p => Shape.size (p.drop axis)).sum = Shape.size (s.drop axis) := by
  obtain ⟨pre, post, rfl, rfl, hparts⟩ := split_of_concatShape h
  rw [List.take_left, List.drop_left, Shape.size_cons]
  refine ⟨fun p hp => ?_, Shape.sum_size_drop _ fun p hp => ?_⟩
  · obtain ⟨d, rfl⟩ := hparts p hp
    rw [List.drop_left, ← Shape.size_append]
  · obtain ⟨d, rfl⟩ := hparts p hp
    simp

theorem Storage.reserved_label (s : Storage) : Emit.Reserved s.label := by
  obtain ⟨role, name⟩ := s
  cases role <;> exact .inl (by simp [label])

namespace Emit
open C
variable {scope : EmitScope} {ext : Extents} {σ σ' : Names} {n x : Node} {id : NodeId}
  {inputs : List NodeId} {st : Stmt}

theorem buffer?_expr (h : Keeps σ σ') (s : Storage) :
    s.expr.buffer? σ' = s.expr.buffer? σ := by
  have hlabel := h _ s.reserved_label
  have hstate := h "state" (.inr rfl)
  obtain ⟨role, name⟩ := s
  cases role <;> simp [Storage.expr, Expr.buffer?, hlabel, hstate]

/-- The arrays of all values in storage are there, with room for their elements. -/
structure Backed (scope : EmitScope) (ext : Extents) (σ : Names) : Prop where
  buffer : ∀ {id s n}, scope.storage.lookup id = some s → scope.trace.node? id = some n →
    ∃ b e, s.expr.buffer? σ = some b ∧ ext b = some e ∧ n.type.size ≤ e.length ∧
      e.width = n.type.dtype.size

theorem Backed.keeps (hb : Backed scope ext σ) (h : Keeps σ σ') : Backed scope ext σ' where
  buffer := by
    intro id s n hs hn
    rw [buffer?_expr h s]
    exact hb.buffer hs hn

theorem array_eq_ok {a : Expr} (h : scope.array id = .ok a) :
    ∃ s, scope.storage.lookup id = some s ∧ a = s.expr := by
  rw [EmitScope.array] at h
  split at h
  · cases h
    exact ⟨_, ‹_›, rfl⟩
  · cases h

/-- An element of the array of a node, at a position below the node's size. -/
theorem Backed.within_index (hb : Backed scope ext σ) (hn : scope.trace.node? id = some n)
    {a i : Expr} {k : Nat} (ha : scope.array id = .ok a) (hi : i.value? σ = some k)
    (hk : k < n.type.size) : Within ext ((Expr.index a i).accesses σ) := by
  obtain ⟨s, hs, rfl⟩ := array_eq_ok ha
  obtain ⟨b, e, hbuffer, he, hsize, -⟩ := hb.buffer hs hn
  exact Expr.within_index hbuffer he hi (by omega)

/-- An element of the array of a node, at a multi-index within the node's shape. -/
theorem Backed.within_linear (hb : Backed scope ext σ) (hn : scope.trace.node? id = some n)
    {a : Expr} (ha : scope.array id = .ok a) {es : List Expr} {ix : List Nat}
    (hdenote : Denote σ es ix) (hix : n.type.shape.InBounds ix) :
    Within ext ((Expr.index a (linear n.type.shape es)).accesses σ) :=
  hb.within_index hn ha (value?_linear hdenote hix.length_eq) (Shape.offset_lt hix)

/-- An element of the array of a node that spreads to a shape, read at a multi-index within
that shape. -/
theorem Backed.within_broadcast (hb : Backed scope ext σ) (hn : scope.trace.node? id = some n)
    {a : Expr} (ha : scope.array id = .ok a) {es : List Expr} {ix : List Nat} {s : Shape}
    (hdenote : Denote σ es ix) (hix : s.InBounds ix) (hspreads : n.type.shape.spreadsTo s = true) :
    Within ext ((Expr.index a (broadcastLinear n.type.shape es)).accesses σ) :=
  hb.within_linear hn ha (hdenote.aligned _) (hix.project hspreads)

/-! ## Elementwise operations -/

@[simp] theorem accesses_binaryOn (op : BinaryOp) (x y : Expr) (out : DType) :
    (binaryOn op x y out).accesses σ = x.accesses σ ++ y.accesses σ := by
  cases op <;> rfl

@[simp] theorem accesses_mathCall (op : UnaryOp) (x : Expr) (out : DType) :
    (mathCall op x out).accesses σ = x.accesses σ := by
  cases op <;> rfl

@[simp] theorem accesses_unary (op : UnaryOp) (a : Expr × DType) (out : DType) :
    (unary op a out).accesses σ = a.1.accesses σ := by
  cases op <;> simp only [unary] <;> (try split) <;> simp [Expr.accesses]

/-- An elementwise operation accesses what its arguments access. -/
theorem within_operation? {op : Op} {args : List (Expr × DType)} {out : DType} {e : Expr}
    (h : operation? op args out = some e) (hargs : ∀ p ∈ args, Within ext (p.1.accesses σ)) :
    Within ext (e.accesses σ) := by
  rw [operation?.eq_def] at h
  split at h <;> cases h
  · simpa [binary] using hargs
  · simpa using hargs
  · simpa using hargs
  · simpa [choice, Expr.accesses, and_assoc] using hargs

mutual

/-- A kernel accesses its leaves, at positions projected from the indices. -/
theorem within_kernelExpr (hb : Backed scope ext σ) {indices : List Expr} {ix : List Nat}
    {s : Shape} (hdenote : Denote σ indices ix) (hix : s.InBounds ix) :
    ∀ (k : Kernel) {p : Expr × DType}, kernelExpr scope indices k = .ok p →
      (∀ id ∈ k.leaves, ∃ x, scope.trace.node? id = some x ∧ x.type.shape.spreadsTo s = true) →
      Within ext (p.1.accesses σ)
  | .leaf id, p, h, hleaves => by
    obtain ⟨x, hx, hspreads⟩ := hleaves id List.mem_cons_self
    rw [kernelExpr] at h
    replace h := Except.of_bind_eq_ok h (node_of_node? hx)
    obtain ⟨a, ha, h⟩ := Except.bind_eq_ok.1 h
    cases h
    exact hb.within_broadcast hx ha hdenote hix hspreads
  | .apply id op args, p, h, hleaves => by
    rw [kernelExpr] at h
    obtain ⟨n, -, h⟩ := Except.bind_eq_ok.1 h
    obtain ⟨es, hes, h⟩ := Except.bind_eq_ok.1 h
    have hargs := within_kernelExprs hb hdenote hix args hes hleaves
    split at h
    · cases h
      exact within_operation? ‹_› hargs
    · cases h

/-- So do the kernels of a list. -/
theorem within_kernelExprs (hb : Backed scope ext σ) {indices : List Expr} {ix : List Nat}
    {s : Shape} (hdenote : Denote σ indices ix) (hix : s.InBounds ix) :
    ∀ (ks : List Kernel) {ps : List (Expr × DType)}, kernelExprs scope indices ks = .ok ps →
      (∀ id ∈ Kernel.leavesAll ks,
        ∃ x, scope.trace.node? id = some x ∧ x.type.shape.spreadsTo s = true) →
      ∀ p ∈ ps, Within ext (p.1.accesses σ)
  | [], ps, h, _ => by
    cases h
    exact nofun
  | k :: ks, ps, h, hleaves => by
    rw [kernelExprs] at h
    obtain ⟨first, hfirst, h⟩ := Except.bind_eq_ok.1 h
    obtain ⟨rest, hrest, h⟩ := Except.bind_eq_ok.1 h
    cases h
    rw [Kernel.leavesAll, List.forall_mem_append] at hleaves
    exact List.forall_mem_cons.2 ⟨within_kernelExpr hb hdenote hix k hfirst hleaves.1,
      within_kernelExprs hb hdenote hix ks hrest hleaves.2⟩

end

theorem confined_kernel (hb : Backed scope ext σ) (hn : scope.trace.node? id = some n)
    {k : Kernel} (hleaves : ∀ i ∈ k.leaves,
      ∃ x, scope.trace.node? i = some x ∧ x.type.shape.spreadsTo n.type.shape = true)
    (h : kernel scope id k = .ok st) : Stmt.Confined ext σ st := by
  rw [kernel] at h
  replace h := Except.of_bind_eq_ok h (node_of_node? hn)
  obtain ⟨target, htarget, h⟩ := Except.bind_eq_ok.1 h
  obtain ⟨⟨e, d⟩, he, h⟩ := Except.bind_eq_ok.1 h
  obtain ⟨text, -, h⟩ := Except.bind_eq_ok.1 h
  cases h
  refine .comment (confined_nest_shape rfl fun σ' ix hkeeps hix hdenote => ?_)
  have hb' := hb.keeps hkeeps
  refine (Stmt.confined_store (hb'.within_linear hn htarget hdenote hix) ?_).within
  rw [Expr.accesses_convert]
  exact within_kernelExpr hb' hdenote hix k he hleaves

/-! ## Movements -/

theorem confined_transpose (hb : Backed scope ext σ) (hn : scope.trace.node? n.id = some n)
    (hx : scope.trace.node? x.id = some x) (hshape : n.type.shape = x.type.shape.reverse)
    (h : transpose scope n [x.id] = .ok st) : Stmt.Confined ext σ st := by
  rw [transpose] at h
  replace h := Except.of_bind_eq_ok h (operand_eq hx)
  obtain ⟨target, htarget, h⟩ := Except.bind_eq_ok.1 h
  obtain ⟨source, hsource, h⟩ := Except.bind_eq_ok.1 h
  cases h
  refine .comment (confined_nest_shape rfl fun σ' ix hkeeps hix hdenote => ?_)
  have hb' := hb.keeps hkeeps
  have hreverse : n.type.shape.InBounds ix.reverse := hshape ▸ hix.reverse
  exact (Stmt.confined_store (hb'.within_linear hn htarget hdenote.reverse hreverse)
    (hb'.within_linear hx hsource hdenote hix)).within

theorem confined_slice (hb : Backed scope ext σ) (hn : scope.trace.node? n.id = some n)
    (hx : scope.trace.node? x.id = some x) {selection : Selection} {w : Window}
    (hw : selection.resolve x.type.shape = .ok w) (hshape : n.type.shape = w.shape)
    (h : slice scope n selection [x.id] = .ok st) : Stmt.Confined ext σ st := by
  rw [slice] at h
  replace h := Except.of_bind_eq_ok h (operand_eq hx)
  replace h := Except.of_bind_eq_ok h (Except.mapError_eq_ok.2 hw)
  obtain ⟨target, htarget, h⟩ := Except.bind_eq_ok.1 h
  obtain ⟨source, hsource, h⟩ := Except.bind_eq_ok.1 h
  cases h
  refine .comment (confined_nest_window (Selection.fits_of_resolve hw) rfl
    fun σ' ix hkeeps hix hpart hdenote hrelative => ?_)
  have hb' := hb.keeps hkeeps
  exact (Stmt.confined_store (hb'.within_linear hn htarget hrelative (hshape ▸ hpart))
    (hb'.within_linear hx hsource hdenote hix)).within

theorem confined_assign (hb : Backed scope ext σ) (hx : scope.trace.node? x.id = some x)
    {v : Node} (hv : scope.trace.node? v.id = some v) {selection : Selection} {w : Window}
    (hw : selection.resolve x.type.shape = .ok w) (hspreads : v.type.shape.spreadsTo w.shape = true)
    (h : assign scope n x.id selection v.id = .ok st) : Stmt.Confined ext σ st := by
  rw [assign] at h
  replace h := Except.of_bind_eq_ok h (node_of_node? hx)
  replace h := Except.of_bind_eq_ok h (node_of_node? hv)
  replace h := Except.of_bind_eq_ok h (Except.mapError_eq_ok.2 hw)
  obtain ⟨place, hplace, h⟩ := Except.bind_eq_ok.1 h
  obtain ⟨source, hsource, h⟩ := Except.bind_eq_ok.1 h
  cases h
  refine .comment (confined_nest_window (Selection.fits_of_resolve hw) rfl
    fun σ' ix hkeeps hix hpart hdenote hrelative => ?_)
  have hb' := hb.keeps hkeeps
  refine (Stmt.confined_store (hb'.within_linear hx hplace hdenote hix) ?_).within
  rw [Expr.accesses_convert]
  exact hb'.within_broadcast hv hsource hrelative hpart hspreads

/-! ## Sums -/

theorem value?_var {x : String} {k : Nat} (h : σ x = some (.counter k)) :
    (Expr.var x).value? σ = some k := by
  rw [Expr.value?, h]

theorem within_scalar {x : String} (h : σ x = some .scalar) :
    Within ext ((Expr.var x).placeAccesses σ) := by
  rw [Expr.placeAccesses, if_pos h]
  exact within_nil

/-- A number that is summed up by a statement and stored. -/
theorem within_reduction {d : DType} {start place result : Expr} {s : Stmt}
    (hstart : start.accesses σ = [])
    (hs : Stmt.Confined ext (Function.update σ "acc" (some .scalar)) s)
    (hplace : Within ext (place.placeAccesses (Function.update σ "acc" (some .scalar))))
    (hresult : result.accesses (Function.update σ "acc" (some .scalar)) = []) :
    Within ext ((Stmt.all [.declare d "acc" start, s, .store place result]).accesses σ) := by
  simp only [Stmt.all, List.foldr, Stmt.accesses, Stmt.after, hs.after_eq, hstart, hresult,
    List.append_nil, List.nil_append]
  exact within_append.2 ⟨hs.within, hplace⟩

theorem value?_entryPosition {row column : String} {i j width : Nat}
    (hrow : σ row = some (.counter i)) (hcolumn : σ column = some (.counter j)) :
    (Expr.bin .add (.bin .mul (.var row) (.num width)) (.var column)).value? σ =
      some (i * width + j) := by
  have hproduct : (Expr.bin .mul (.var row) (.num width)).value? σ = some (i * width) :=
    Expr.value?_mul (by simp [Expr.level]) (by simp [Expr.level]) (value?_var hrow) rfl
  exact Expr.value?_add (by simp [Expr.level, BinOp.level]) (by simp [Expr.level]) hproduct
    (value?_var hcolumn)

/-- An element of a table of rows. -/
theorem Backed.within_entry (hb : Backed scope ext σ) (hn : scope.trace.node? id = some n)
    {a : Expr} (ha : scope.array id = .ok a) {row column : String} {i j rows width : Nat}
    (hrow : σ row = some (.counter i)) (hcolumn : σ column = some (.counter j)) (hi : i < rows)
    (hj : j < width) (hsize : n.type.size = rows * width) :
    Within ext ((entryAt a row width column).accesses σ) := by
  refine hb.within_index hn ha (value?_entryPosition hrow hcolumn) ?_
  rw [hsize, Nat.mul_comm i]
  exact Nat.mul_add_lt_mul_of_lt_of_lt hi hj

theorem confined_matmul (hb : Backed scope ext σ) (hn : scope.trace.node? n.id = some n)
    (hx : scope.trace.node? x.id = some x) {y : Node} (hy : scope.trace.node? y.id = some y)
    (hshape : Op.matmulShape x.type.shape y.type.shape = .ok n.type.shape)
    (h : matmul scope n [x.id, y.id] = .ok st) : Stmt.Confined ext σ st := by
  obtain ⟨m, k, c, hleft, hright, hsizex, hsizey, hsizen⟩ := Op.dims_of_matmulShape hshape
  rw [matmul] at h
  replace h := Except.of_bind_eq_ok h (operands_eq hx hy)
  simp only [hleft, hright] at h
  obtain ⟨target, htarget, h⟩ := Except.bind_eq_ok.1 h
  obtain ⟨left, ha, h⟩ := Except.bind_eq_ok.1 h
  obtain ⟨right, hb', h⟩ := Except.bind_eq_ok.1 h
  cases h
  refine .comment (Stmt.confined_loop fun i _ hi => (Stmt.confined_loop fun j _ hj => ?_).within)
  have hkeeps : Keeps σ (Function.update (Function.update (Function.update σ "i"
      (some (.counter i))) "j" (some (.counter j))) "acc" (some .scalar)) :=
    (((Keeps.refl σ).update (by decide) _).update (by decide) _).update (by decide) _
  refine within_reduction rfl (Stmt.confined_loop fun p _ hp => ?_)
    ((hb.keeps hkeeps).within_entry hn htarget (by simp) (by simp) hi hj hsizen) rfl
  · have hinner := hb.keeps (hkeeps.update (x := "p") (by decide) (some (.counter p)))
    refine within_append.2 ⟨within_scalar (by simp), within_append.2 ⟨?_, ?_⟩⟩
    · rw [Expr.accesses_convert]
      exact hinner.within_entry hx ha (by simp) (by simp) hi hp hsizex
    · rw [Expr.accesses_convert]
      exact hinner.within_entry hy hb' (by simp) (by simp) hp hj hsizey

theorem confined_cross (hb : Backed scope ext σ) (hn : scope.trace.node? n.id = some n)
    (hx : scope.trace.node? x.id = some x) {y : Node} (hy : scope.trace.node? y.id = some y)
    (hsizex : x.type.size = 3) (hsizey : y.type.size = 3) (hsizen : n.type.size = 3)
    (h : cross scope n [x.id, y.id] = .ok st) : Stmt.Confined ext σ st := by
  rw [cross] at h
  replace h := Except.of_bind_eq_ok h (operands_eq hx hy)
  obtain ⟨target, htarget, h⟩ := Except.bind_eq_ok.1 h
  obtain ⟨left, ha, h⟩ := Except.bind_eq_ok.1 h
  obtain ⟨right, hb', h⟩ := Except.bind_eq_ok.1 h
  cases h
  have htarget' : ∀ k < 3, Within ext ((Expr.index target (.num k)).accesses σ) :=
    fun k hk => hb.within_index hn htarget rfl (by omega)
  have hleft : ∀ k < 3, Within ext ((Expr.index left (.num k)).accesses σ) :=
    fun k hk => hb.within_index hx ha rfl (by omega)
  have hright : ∀ k < 3, Within ext ((Expr.index right (.num k)).accesses σ) :=
    fun k hk => hb.within_index hy hb' rfl (by omega)
  have hterm : ∀ j < 3, ∀ k < 3, Within ext
      ((Expr.bin .mul ((Expr.index left (.num j)).convert x.type.dtype n.type.dtype)
        ((Expr.index right (.num k)).convert y.type.dtype n.type.dtype)).accesses σ) := by
    intro j hj k hk
    rw [Expr.accesses, Expr.accesses_convert, Expr.accesses_convert]
    exact within_append.2 ⟨hleft j hj, hright k hk⟩
  refine .comment (Stmt.confined_all ?_)
  simp only [List.forall_mem_cons]
  exact ⟨Stmt.confined_store (htarget' 0 (by decide))
      (within_append.2 ⟨hterm 1 (by decide) 2 (by decide), hterm 2 (by decide) 1 (by decide)⟩),
    Stmt.confined_store (htarget' 1 (by decide))
      (within_append.2 ⟨hterm 2 (by decide) 0 (by decide), hterm 0 (by decide) 2 (by decide)⟩),
    Stmt.confined_store (htarget' 2 (by decide))
      (within_append.2 ⟨hterm 0 (by decide) 1 (by decide), hterm 1 (by decide) 0 (by decide)⟩),
    fun _ h => absurd h List.not_mem_nil⟩

/-- All elements of an array one after the other. -/
theorem Backed.within_counter (hb : Backed scope ext σ) (hx : scope.trace.node? id = some x)
    {a : Expr} (ha : scope.array id = .ok a) {name : String} {k : Nat}
    (hname : σ name = some (.counter k)) (hk : k < x.type.size) :
    Within ext ((Expr.index a (.var name)).accesses σ) :=
  hb.within_index hx ha (value?_var hname) hk

theorem confined_sum (hb : Backed scope ext σ) (hn : scope.trace.node? n.id = some n)
    (hx : scope.trace.node? x.id = some x) (hsize : n.type.size = 1)
    (h : sum scope n [x.id] = .ok st) : Stmt.Confined ext σ st := by
  rw [sum] at h
  replace h := Except.of_bind_eq_ok h (operand_eq hx)
  obtain ⟨target, htarget, h⟩ := Except.bind_eq_ok.1 h
  obtain ⟨source, hsource, h⟩ := Except.bind_eq_ok.1 h
  cases h
  have hkeeps : Keeps σ (Function.update σ "acc" (some .scalar)) :=
    (Keeps.refl σ).update (by decide) _
  refine .comment ⟨within_reduction rfl (Stmt.confined_loopLine fun j _ hj => ?_)
    ((hb.keeps hkeeps).within_index hn htarget rfl (by omega)) rfl, rfl⟩
  have hinner := hb.keeps (hkeeps.update (x := "j") (by decide) (some (.counter j)))
  refine within_append.2 ⟨within_scalar (by simp), ?_⟩
  rw [Expr.accesses_convert]
  exact hinner.within_counter hx hsource (by simp) hj

theorem confined_norm (hb : Backed scope ext σ) (hn : scope.trace.node? n.id = some n)
    (hx : scope.trace.node? x.id = some x) (hsize : n.type.size = 1) {order : NormOrder}
    (h : norm scope n order [x.id] = .ok st) : Stmt.Confined ext σ st := by
  rw [norm] at h
  replace h := Except.of_bind_eq_ok h (operand_eq hx)
  obtain ⟨target, htarget, h⟩ := Except.bind_eq_ok.1 h
  obtain ⟨source, hsource, h⟩ := Except.bind_eq_ok.1 h
  cases h
  have hkeeps : Keeps σ (Function.update σ "acc" (some .scalar)) :=
    (Keeps.refl σ).update (by decide) _
  refine .comment ⟨within_reduction rfl (Stmt.confined_loop fun j _ hj => within_append.2 ⟨?_, ?_⟩)
    ((hb.keeps hkeeps).within_index hn htarget rfl (by omega)) ?_, rfl⟩
  · have hinner := hb.keeps (hkeeps.update (x := "j") (by decide) (some (.counter j)))
    rw [Stmt.accesses, Expr.accesses_convert]
    exact hinner.within_counter hx hsource (by simp) hj
  · cases order <;> simp [Stmt.accesses, Expr.accesses, Expr.placeAccesses, Stmt.after]
  · rw [Expr.accesses_convert]
    cases order <;> rfl

/-! ## Joined arrays -/

theorem value?_blockPosition {outBlock start o j : Nat} (ho : σ "o" = some (.counter o))
    (hj : σ "j" = some (.counter j)) :
    (Expr.bin .add (.bin .add (.bin .mul (.var "o") (.num outBlock)) (.num start))
      (.var "j")).value? σ = some (o * outBlock + start + j) := by
  have hblock : (Expr.bin .mul (.var "o") (.num outBlock)).value? σ = some (o * outBlock) :=
    Expr.value?_mul (by simp [Expr.level]) (by simp [Expr.level]) (value?_var ho) rfl
  have hstart := Expr.value?_add (y := .num start) (by simp [Expr.level, BinOp.level])
    (by simp [Expr.level]) hblock rfl
  exact Expr.value?_add (by simp [Expr.level, BinOp.level]) (by simp [Expr.level]) hstart
    (value?_var hj)

/-- A part of a concatenation is copied block by block, from position `start` of every block
of the result on. -/
theorem confined_copyBlocks (hb : Backed scope ext σ) (hn : scope.trace.node? n.id = some n)
    (hx : scope.trace.node? id = some x) {target source : Expr}
    (htarget : scope.array n.id = .ok target) (hsource : scope.array id = .ok source)
    {outer outBlock start block : Nat} (hsizen : n.type.size = outer * outBlock)
    (hsizex : x.type.size = outer * block) (hroom : start + block ≤ outBlock) :
    Stmt.Confined ext σ (copyBlocks target outer outBlock start block
      ((entryAt source "o" block "j").convert x.type.dtype n.type.dtype)) := by
  refine Stmt.confined_loopLine fun o _ ho => (Stmt.confined_loopLine fun j _ hj => ?_).within
  have hinner := hb.keeps ((((Keeps.refl σ).update (x := "o") (by decide)
    (some (.counter o))).update (x := "j") (by decide) (some (.counter j))))
  refine within_append.2 ⟨hinner.within_index (k := o * outBlock + start + j) hn htarget ?_ ?_, ?_⟩
  · exact value?_blockPosition (by simp) (by simp)
  · have hj : start + j < outBlock := lt_of_lt_of_le (Nat.add_lt_add_left hj start) hroom
    rw [hsizen, Nat.add_assoc, Nat.mul_comm o]
    exact Nat.mul_add_lt_mul_of_lt_of_lt ho hj
  · rw [Expr.accesses_convert]
    exact hinner.within_entry hx hsource (by simp) (by simp) ho hj hsizex

theorem confined_concatParts (hb : Backed scope ext σ) (hn : scope.trace.node? n.id = some n)
    {target : Expr} (htarget : scope.array n.id = .ok target) {axis start : Nat}
    {parts : List Node}
    (hparts : List.Forall₂ (fun id x => scope.trace.node? id = some x) inputs parts)
    (hsize : ∀ x ∈ parts, x.type.size =
      Shape.size (n.type.shape.take axis) * Shape.size (x.type.shape.drop axis))
    (hroom : start + (parts.map fun x => Shape.size (x.type.shape.drop axis)).sum ≤
      Shape.size (n.type.shape.drop axis))
    {r : List String × List Stmt} (h : concatParts scope n target axis start inputs = .ok r) :
    ∀ s ∈ r.2, Stmt.Confined ext σ s := by
  induction hparts generalizing start r with
  | nil =>
    cases h
    exact nofun
  | @cons id x inputs parts hx _ ih =>
    rw [concatParts] at h
    replace h := Except.of_bind_eq_ok h (node_of_node? hx)
    obtain ⟨source, hsource, h⟩ := Except.bind_eq_ok.1 h
    obtain ⟨rest, hrest, h⟩ := Except.bind_eq_ok.1 h
    cases h
    obtain ⟨hsizex, hsize⟩ := List.forall_mem_cons.1 hsize
    rw [List.map_cons, List.sum_cons] at hroom
    have hsizen : n.type.size = Shape.size (n.type.shape.take axis) *
        Shape.size (n.type.shape.drop axis) := (Shape.size_take_mul_drop _ _).symm
    exact List.forall_mem_cons.2
      ⟨confined_copyBlocks hb hn hx htarget hsource hsizen hsizex (by omega),
        ih hsize (by omega) hrest⟩

theorem confined_stackParts (hb : Backed scope ext σ) (hn : scope.trace.node? n.id = some n)
    {target : Expr} (htarget : scope.array n.id = .ok target) {k m : Nat} {parts : List Node}
    (hparts : List.Forall₂ (fun id x => scope.trace.node? id = some x) inputs parts)
    (hsize : ∀ x ∈ parts, x.type.size = m) (hroom : (k + parts.length) * m ≤ n.type.size)
    {r : List String × List Stmt} (h : stackParts scope n target k inputs = .ok r) :
    ∀ s ∈ r.2, Stmt.Confined ext σ s := by
  induction hparts generalizing k r with
  | nil =>
    cases h
    exact nofun
  | @cons id x inputs parts hx _ ih =>
    rw [stackParts] at h
    replace h := Except.of_bind_eq_ok h (node_of_node? hx)
    obtain ⟨source, hsource, h⟩ := Except.bind_eq_ok.1 h
    obtain ⟨rest, hrest, h⟩ := Except.bind_eq_ok.1 h
    cases h
    obtain ⟨hsizex, hsize⟩ := List.forall_mem_cons.1 hsize
    rw [List.length_cons] at hroom
    refine List.forall_mem_cons.2 ⟨Stmt.confined_loopLine fun j _ hj => ?_,
      ih hsize (by rwa [Nat.add_right_comm]) hrest⟩
    have hinner := hb.keeps ((Keeps.refl σ).update (x := "j") (by decide) (some (.counter j)))
    refine within_append.2 ⟨hinner.within_index (k := k * x.type.size + j) hn htarget ?_ ?_, ?_⟩
    · exact Expr.value?_add (by simp [Expr.level]) (by simp [Expr.level]) rfl
        (value?_var (by simp))
    · refine lt_of_lt_of_le ?_ hroom
      rw [Nat.mul_comm k, ← hsizex]
      exact Nat.mul_add_lt_mul_of_lt_of_lt (Nat.lt_add_of_pos_right parts.length.succ_pos) hj
    · rw [Expr.accesses_convert]
      exact hinner.within_counter hx hsource (by simp) hj

theorem confined_concat (hb : Backed scope ext σ) (hn : scope.trace.node? n.id = some n)
    {axis : Nat} {parts : List Node}
    (hparts : List.Forall₂ (fun id x => scope.trace.node? id = some x) inputs parts)
    {first : Shape}
    (hshape : Op.concatShape axis first (parts.map fun x => x.type.shape) = .ok n.type.shape)
    (h : concat scope n axis inputs = .ok st) : Stmt.Confined ext σ st := by
  rw [concat] at h
  obtain ⟨target, htarget, h⟩ := Except.bind_eq_ok.1 h
  obtain ⟨r, hr, h⟩ := Except.bind_eq_ok.1 h
  cases h
  obtain ⟨hsize, hsum⟩ := Op.sizes_of_concatShape hshape
  rw [List.map_map] at hsum
  exact .comment (Stmt.confined_all (confined_concatParts hb hn htarget hparts
    (fun x hx => hsize _ (List.mem_map_of_mem hx)) (by rw [Nat.zero_add]; exact hsum.le) hr))

theorem confined_stack (hb : Backed scope ext σ) (hn : scope.trace.node? n.id = some n)
    {parts : List Node}
    (hparts : List.Forall₂ (fun id x => scope.trace.node? id = some x) inputs parts) {m : Nat}
    (hsize : ∀ x ∈ parts, x.type.size = m) (hsizen : n.type.size = parts.length * m)
    (h : stack scope n inputs = .ok st) : Stmt.Confined ext σ st := by
  rw [stack] at h
  obtain ⟨target, htarget, h⟩ := Except.bind_eq_ok.1 h
  obtain ⟨r, hr, h⟩ := Except.bind_eq_ok.1 h
  cases h
  exact .comment (Stmt.confined_all (confined_stackParts hb hn htarget hparts hsize
    (by rw [Nat.zero_add]; exact hsizen.ge) hr))

/-! ## Operations and steps -/

/-- The code of an operation on checked operands. -/
theorem confined_emitApply {op : Op} (ht : scope.trace.WellFormed) (hb : Backed scope ext σ)
    (hmem : n ∈ scope.trace.nodes) (hk : n.kind = .apply op inputs)
    (h : Trace.emitApply scope n op inputs = .ok st) : Stmt.Confined ext σ st := by
  have hn := ht.node?_id hmem
  have hkernel : n.isElementwise = true →
      kernel scope n.id (.apply n.id op (inputs.map Kernel.leaf)) = .ok st →
      Stmt.Confined ext σ st := by
    intro helementwise h
    refine confined_kernel hb hn (fun i hi => ?_) h
    rw [Kernel.leaves, Kernel.leavesAll_map] at hi
    obtain ⟨i', hi', hi⟩ := List.mem_flatMap.1 hi
    obtain rfl := List.mem_singleton.1 hi
    exact ht.spreadsTo_of_input hmem helementwise (show i ∈ n.inputs by rwa [Node.inputs, hk])
  cases op with
  | binary b => exact hkernel (by simp [Node.isElementwise, hk, Op.isElementwise]) h
  | unary u => exact hkernel (by simp [Node.isElementwise, hk, Op.isElementwise]) h
  | cast d => exact hkernel (by simp [Node.isElementwise, hk, Op.isElementwise]) h
  | choose => exact hkernel (by simp [Node.isElementwise, hk, Op.isElementwise]) h
  | matmul =>
    obtain ⟨x, y, rfl, hx, hy, hinfer⟩ := ht.operandPair hmem hk rfl
    obtain ⟨s, hs, htype⟩ := Op.infer_matmul_eq_ok hinfer
    have hshape : n.type.shape = s := by rw [htype]
    exact confined_matmul hb hn hx hy (hshape ▸ hs) h
  | cross =>
    obtain ⟨x, y, rfl, hx, hy, hinfer⟩ := ht.operandPair hmem hk rfl
    obtain ⟨hshapex, hshapey, htype⟩ := Op.infer_cross_eq_ok hinfer
    exact confined_cross hb hn hx hy (congrArg Shape.size hshapex) (congrArg Shape.size hshapey)
      (congrArg TensorType.size htype) h
  | transpose =>
    obtain ⟨x, rfl, hx, hinfer⟩ := ht.operand hmem hk rfl
    exact confined_transpose hb hn hx
      (congrArg TensorType.shape (Op.infer_transpose_eq_ok hinfer)) h
  | slice selection =>
    obtain ⟨x, rfl, hx, hinfer⟩ := ht.operand hmem hk rfl
    obtain ⟨w, hw, htype⟩ := Op.infer_slice_eq_ok hinfer
    exact confined_slice hb hn hx hw (congrArg TensorType.shape htype) h
  | concat axis =>
    obtain ⟨operands, hops, hinfer⟩ := ht.operands hmem hk
    cases hops with
    | nil => cases hinfer
    | cons hx hrest =>
      obtain ⟨s, hs, htype⟩ := Op.infer_concat_eq_ok hinfer
      have hshape : n.type.shape = s := by rw [htype]
      rw [← hshape, ← List.map_cons, List.map_map] at hs
      exact confined_concat hb hn (.cons hx hrest) hs h
  | stack =>
    obtain ⟨operands, hops, hinfer⟩ := ht.operands hmem hk
    cases hops with
    | nil => cases hinfer
    | @cons _ x _ rest hx hrest =>
      obtain ⟨hshapes, htype⟩ := Op.infer_stack_eq_ok hinfer
      refine confined_stack hb hn (.cons hx hrest) (m := x.type.size)
        (List.forall_mem_cons.2 ⟨rfl, fun y hy => ?_⟩) ?_ h
      · exact congrArg Shape.size (hshapes _ (List.mem_map_of_mem hy))
      · simp [htype, TensorType.size]
  | sum =>
    obtain ⟨x, rfl, hx, hinfer⟩ := ht.operand hmem hk rfl
    exact confined_sum hb hn hx (congrArg TensorType.size (Except.ok.inj hinfer).symm) h
  | norm order =>
    obtain ⟨x, rfl, hx, hinfer⟩ := ht.operand hmem hk rfl
    exact confined_norm hb hn hx (congrArg TensorType.size (Op.infer_norm_eq_ok hinfer)) h

/-- The code of a step that computes one node. -/
theorem confined_single (ht : scope.trace.WellFormed) (hb : Backed scope ext σ)
    (h : Trace.emitStep scope (.single id) = .ok st) : Stmt.Confined ext σ st := by
  rw [Trace.emitStep] at h
  obtain ⟨n, hn, h⟩ := Except.bind_eq_ok.1 h
  have hnode := Trace.node_eq_ok.1 (Except.mapError_eq_ok.1 hn)
  have hmem := Trace.mem_of_node? hnode
  split at h
  · cases h
    exact Stmt.confined_skip
  · cases h
    exact Stmt.confined_skip
  · cases h
    exact Stmt.confined_skip
  · exact confined_emitApply ht hb hmem ‹_› h
  · obtain ⟨x, v, w, hx, hv, -, hw, -, hspreads⟩ := ht.spreadsTo_of_assign hmem ‹_›
    obtain rfl := ht.id_of_node? hx
    obtain rfl := ht.id_of_node? hv
    exact confined_assign hb hx hv hw hspreads h

end Emit

/-! ## The steps of a plan -/

namespace Trace
variable {t : Trace} {s : Schedule}

/-- The code of every step of the plans of a schedule stays within the arrays. -/
theorem confined_emitStep (ht : t.Reachable) (hs : t.Scheduled s) {fuse : Bool} {step : Step}
    (hstep : step ∈ (t.planOf s fuse).steps) {storage : List (NodeId × Storage)}
    {ext : C.Extents} {σ : C.Names} (hb : Emit.Backed ⟨t, storage⟩ ext σ) {st : C.Stmt}
    (h : emitStep ⟨t, storage⟩ step = .ok st) : C.Stmt.Confined ext σ st := by
  have hwf := ht.wellFormed
  cases fuse with
  | false =>
    obtain ⟨id, -, rfl⟩ := List.mem_map.1 hstep
    exact Emit.confined_single hwf hb h
  | true =>
    obtain ⟨id, hid, rfl⟩ := List.mem_map.1 hstep
    obtain ⟨hmem, -⟩ := mem_roots.1 hid
    split at h
    · rename_i hfused
      obtain ⟨n, hn⟩ := exists_node_of_contains (hs.known hmem)
      obtain rfl := hwf.id_of_node? hn
      have helementwise : n.isElementwise = true := by
        simpa [isElementwise, hn] using (Bool.and_eq_true_iff.1 hfused).1
      exact Emit.confined_kernel hb hn
        (fun i hi => spreadsTo_of_leaf ht hs hmem (mem_of_node? hn) helementwise hi) h
    · exact Emit.confined_single hwf hb h

end Trace
end ArrayTrace
