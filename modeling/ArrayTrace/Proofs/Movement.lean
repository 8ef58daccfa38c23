import ArrayTrace.Proofs.Rearrangement
import ArrayTrace.Proofs.Transfers

/-!
# Code that moves elements

The code of a transpose, a slice or of joined arrays writes every element of its array once,
and each time takes the element of an operand that the value of the operation has there. The
code of an assignment does so for the elements of its region.
-/

namespace ArrayTrace
open C

/-- The array of the value of a node, where some names are in scope. -/
def EmitScope.buffer? (scope : EmitScope) (σ : Names) (id : NodeId) : Option Buffer :=
  (scope.array id).toOption.bind fun a => a.buffer? σ

theorem EmitScope.buffer?_eq_some {scope : EmitScope} {σ : Names} {id : NodeId} {b : Buffer} :
    scope.buffer? σ id = some b ↔
      ∃ s, scope.storage.lookup id = some s ∧ s.expr.buffer? σ = some b := by
  rw [buffer?, array]
  cases scope.storage.lookup id <;> simp [Except.toOption]

namespace Emit
variable {scope : EmitScope} {σ σ' : Names} {n x : Node} {id : NodeId} {inputs : List NodeId}
  {st : Stmt} {b β : Buffer} {a : Expr}

theorem buffer?_of_keeps (ha : scope.array id = .ok a) (hb : scope.buffer? σ id = some b)
    (h : Keeps σ σ') : a.buffer? σ' = some b := by
  obtain ⟨s, -, rfl⟩ := array_eq_ok ha
  rw [EmitScope.buffer?, ha] at hb
  rw [buffer?_expr h s]
  exact hb

/-- Transfers that carry out an operation: to every place of an array one, with the element of
an operand that the value of the operation has at this place, and whose conversion is defined. -/
structure Moves [FloatProduct] (scope : EmitScope) (σ : Names) (n : Node) (op : Op)
    (operands : List Node) (b : Buffer) (ts : List Transfer) : Prop where
  places_perm : (ts.map Transfer.place).Perm (List.range n.type.size)
  target_eq : ∀ τ ∈ ts, τ.target = b
  delivers : ∀ τ ∈ ts, ∃ (i : Nat) (x : Node), operands[i]? = some x ∧
    scope.buffer? σ x.id = some τ.source ∧
    ∀ (args : List Tensor) (r : Tensor), args.map Tensor.type = operands.map Node.type →
      r.type = n.type → op.eval args n.type = .ok r →
      ∃ y : Tensor, args[i]? = some y ∧ τ.origin < y.type.size ∧
        r.element? τ.place = (y.element? τ.origin).bind fun v => τ.casts.foldlM Scalar.to? v

/-- One operand, read at a multi-index for every multi-index of the value. -/
theorem moves_of_indices [FloatProduct] {op : Op} {js : List (List Nat)} {g : List Nat → List Nat}
    (hβ : scope.buffer? σ x.id = some β) (hnodup : js.Nodup)
    (hinj : ∀ ix ∈ js, ∀ ix' ∈ js, g ix = g ix' → ix = ix')
    (hsurj : ∀ ix, (∃ jx ∈ js, g jx = ix) ↔ n.type.shape.InBounds ix)
    (hjs : ∀ jx ∈ js, x.type.shape.InBounds jx)
    (hget : ∀ (y r : Tensor), y.type = x.type → op.eval [y] n.type = .ok r →
      ∀ jx ∈ js, r.get (g jx) = y.get jx) :
    Moves scope σ n op [x] b
      (js.map fun jx => ⟨b, n.type.shape.offset (g jx), β, x.type.shape.offset jx, []⟩) where
  places_perm := by
    have hperm := Shape.perm_offsets (s := n.type.shape) (p := fun _ => true) hnodup hinj
      fun ix => by rw [hsurj ix, eq_self, and_true]
    rw [List.filter_true] at hperm
    rw [List.map_map]
    exact hperm
  target_eq := by
    intro τ hτ
    obtain ⟨jx, -, rfl⟩ := List.mem_map.1 hτ
    rfl
  delivers := by
    intro τ hτ
    obtain ⟨jx, hjx, rfl⟩ := List.mem_map.1 hτ
    refine ⟨0, x, rfl, hβ, fun args r hargs htype hr => ?_⟩
    obtain ⟨y, rfl, hy⟩ : ∃ y, args = [y] ∧ y.type = x.type := by
      simpa [List.map_eq_singleton_iff] using hargs
    have hshape : r.shape = n.type.shape := congrArg TensorType.shape htype
    have hyx : y.shape = x.type.shape := congrArg TensorType.shape hy
    have hbounds : y.shape.InBounds jx := hyx ▸ hjs jx hjx
    have hplace : r.shape.InBounds (g jx) := hshape ▸ (hsurj _).1 ⟨jx, hjx, rfl⟩
    rw [← hshape, ← hyx]
    refine ⟨y, rfl, Shape.offset_lt hbounds, ?_⟩
    have helement := Tensor.element?_offset_eq (f := id) hplace hbounds (hget y r hy hr jx hjx)
    rw [helement]
    cases y.element? (y.shape.offset jx) <;> rfl

theorem moves_transpose [FloatProduct] (hx : scope.trace.node? x.id = some x)
    (hshape : n.type.shape = x.type.shape.reverse) (hb : scope.buffer? σ n.id = some b)
    (hβ : scope.buffer? σ x.id = some β) (h : transpose scope n [x.id] = .ok st) :
    ∃ ts, st.transfers? σ = some ts ∧ Moves scope σ n .transpose [x] b ts := by
  rw [transpose] at h
  replace h := Except.of_bind_eq_ok h (operand_eq hx)
  obtain ⟨target, htarget, h⟩ := Except.bind_eq_ok.1 h
  obtain ⟨source, hsource, h⟩ := Except.bind_eq_ok.1 h
  cases h
  have hrank : (Region.full x.type.shape).length = x.type.shape.length := List.length_map _
  refine ⟨_, (Stmt.transfers?_comment _ _).trans
      (transfers?_nest fun σ' ix hkeeps hix hdenote => ?_),
    moves_of_indices (g := List.reverse) hβ (Region.nodup_indices _)
      (fun _ _ _ _ => List.reverse_injective.eq_iff.1) (fun ix => ?_)
      (fun _ => Region.mem_indices_full.1) fun y r hy hr jx hjx => ?_⟩
  · rw [hrank] at hdenote
    rw [Region.mem_indices_full] at hix
    have hreverse : n.type.shape.InBounds ix.reverse := hshape ▸ hix.reverse
    exact Stmt.transfers?_store (buffer?_of_keeps htarget hb hkeeps)
      (value?_linear hdenote.reverse hreverse.length_eq)
      (Expr.origin?_index (buffer?_of_keeps hsource hβ hkeeps)
        (value?_linear hdenote hix.length_eq))
  · rw [hshape]
    constructor
    · rintro ⟨jx, hjx, rfl⟩
      exact (Region.mem_indices_full.1 hjx).reverse
    · intro hix
      have hreverse := hix.reverse
      rw [List.reverse_reverse] at hreverse
      exact ⟨ix.reverse, Region.mem_indices_full.2 hreverse, List.reverse_reverse ix⟩
  · cases hr
    have hyx : y.array.shape = x.type.shape := congrArg TensorType.shape hy
    have hbounds : y.array.shape.InBounds jx := hyx ▸ Region.mem_indices_full.1 hjx
    have hget := NDArray.get_ofFn (fun ix => y.array.get ix.reverse) hbounds.reverse
    rw [List.reverse_reverse] at hget
    exact congrArg (Scalar.mk y.dtype) hget

/-- The multi-indices of the region of a window. -/
theorem mem_indices_window {w : Window} {s : Shape} (hfits : w.Fits s) {ix : List Nat}
    (hix : ix ∈ Region.indices w.region) :
    ix.length = w.length ∧ w.region.contains ix = true ∧ s.InBounds ix := by
  obtain ⟨hlen, hcontains⟩ := Region.mem_indices.1 hix
  rw [Window.length_region] at hlen
  exact ⟨hlen, hcontains, hfits.inBounds hlen hcontains⟩

theorem moves_slice [FloatProduct] (hx : scope.trace.node? x.id = some x) {selection : Selection}
    {w : Window} (hw : selection.resolve x.type.shape = .ok w) (hshape : n.type.shape = w.shape)
    (hb : scope.buffer? σ n.id = some b) (hβ : scope.buffer? σ x.id = some β)
    (h : slice scope n selection [x.id] = .ok st) :
    ∃ ts, st.transfers? σ = some ts ∧ Moves scope σ n (.slice selection) [x] b ts := by
  rw [slice] at h
  replace h := Except.of_bind_eq_ok h (operand_eq hx)
  replace h := Except.of_bind_eq_ok h (Except.mapError_eq_ok.2 hw)
  obtain ⟨target, htarget, h⟩ := Except.bind_eq_ok.1 h
  obtain ⟨source, hsource, h⟩ := Except.bind_eq_ok.1 h
  cases h
  have hfits := Selection.fits_of_resolve hw
  have hrank : w.region.length = x.type.shape.length := by
    rw [Window.length_region, hfits.length_eq]
  refine ⟨_, (Stmt.transfers?_comment _ _).trans
      (transfers?_nest fun σ' ix hkeeps hix hdenote => ?_),
    moves_of_indices (g := w.relative) hβ (Region.nodup_indices _) (fun ix hix jx hjx he => ?_)
      (fun ix => ?_) (fun _ hix => (mem_indices_window hfits hix).2.2) fun y r hy hr jx hjx => ?_⟩
  · rw [hrank] at hdenote
    obtain ⟨hlen, hcontains, hbounds⟩ := mem_indices_window hfits hix
    have hpart : n.type.shape.InBounds (w.relative ix) :=
      hshape ▸ hfits.inBounds_relative hlen hcontains
    exact Stmt.transfers?_store (buffer?_of_keeps htarget hb hkeeps)
      (value?_linear (hdenote.relative hcontains) hpart.length_eq)
      (Expr.origin?_index (buffer?_of_keeps hsource hβ hkeeps)
        (value?_linear hdenote hbounds.length_eq))
  · obtain ⟨hlen, hcontains, -⟩ := mem_indices_window hfits hix
    obtain ⟨hlen', hcontains', -⟩ := mem_indices_window hfits hjx
    rw [← hfits.source_relative hlen hcontains, he, hfits.source_relative hlen' hcontains']
  · rw [hshape]
    constructor
    · rintro ⟨jx, hjx, rfl⟩
      obtain ⟨hlen, hcontains, -⟩ := mem_indices_window hfits hjx
      exact hfits.inBounds_relative hlen hcontains
    · intro hix
      obtain ⟨hbounds, hcontains⟩ := hfits.source_mem hix
      refine ⟨w.source ix, Region.mem_indices.2 ⟨?_, ?_⟩, hfits.relative_source hix⟩
      · rw [hrank, hbounds.length_eq]
      · rwa [← Window.contains_eq]
  · have hyx : y.shape = x.type.shape := congrArg TensorType.shape hy
    have hr : r = y.extract w := by
      rw [← hyx] at hw
      simpa [Op.eval, hw, Except.mapError, bind, Except.bind, pure, Except.pure] using hr.symm
    subst hr
    obtain ⟨hlen, hcontains, -⟩ := mem_indices_window hfits hjx
    have hfits' : w.Fits y.shape := hyx ▸ hfits
    have hget := NDArray.get_extract hfits' (hfits.inBounds_relative hlen hcontains)
    rw [hfits.source_relative hlen hcontains] at hget
    exact congrArg (Scalar.mk y.dtype) hget

/-! ## Joined arrays -/

/-- One of several arrays that are joined: how many of its elements go to each block of the
result, and what they are converted to. -/
structure Part where
  source : Buffer
  block : Nat
  casts : List DType

/-- The array of an operand as a part of a result with elements of type `d`. -/
def partOf (β : NodeId → Buffer) (block : Node → Nat) (d : DType) (x : Node) : Part :=
  ⟨β x.id, block x, casts x.type.dtype d⟩

/-- Transfers that copy one part, to position `start` of each of `outer` blocks of the result. -/
def Part.transfers (b : Buffer) (outer outBlock start : Nat) (q : Part) : List Transfer :=
  (List.range outer).flatMap fun o => (List.range q.block).map fun j =>
    ⟨b, o * outBlock + start + j, q.source, o * q.block + j, q.casts⟩

/-- Transfers that copy parts, from position `start` of each block on. -/
def joinTransfers (b : Buffer) (outer outBlock : Nat) : Nat → List Part → List Transfer
  | _, [] => []
  | start, q :: rest =>
    q.transfers b outer outBlock start ++ joinTransfers b outer outBlock (start + q.block) rest

section
variable {outer outBlock start : Nat} {parts : List Part}

/-- Parts fill a stretch of every block. -/
theorem perm_place_joinTransfers (b : Buffer) (outer outBlock start : Nat) (parts : List Part) :
    ((joinTransfers b outer outBlock start parts).map Transfer.place).Perm
      ((List.range outer).flatMap fun o => (List.range (parts.map Part.block).sum).map fun j =>
        o * outBlock + start + j) := by
  induction parts generalizing start with
  | nil => simp [joinTransfers]
  | cons q parts ih =>
    have hfirst : (q.transfers b outer outBlock start).map Transfer.place =
        (List.range outer).flatMap fun o => (List.range q.block).map fun j =>
          o * outBlock + start + j := by
      simp [Part.transfers, List.map_flatMap, Function.comp_def]
    have hblock : ∀ o, (List.range ((q :: parts).map Part.block).sum).map
        (fun j => o * outBlock + start + j) =
          (List.range q.block).map (fun j => o * outBlock + start + j) ++
            (List.range (parts.map Part.block).sum).map fun j =>
              o * outBlock + (start + q.block) + j := by
      intro o
      rw [List.map_cons, List.sum_cons, List.range_add, List.map_append, List.map_map]
      simp only [Function.comp_def, Nat.add_assoc]
    simp only [hblock]
    rw [joinTransfers, List.map_append, hfirst]
    exact (List.Perm.append_left _ (ih _)).trans (List.flatMap_append_perm _ _ _)

theorem exists_of_mem_joinTransfers {τ : Transfer}
    (hτ : τ ∈ joinTransfers b outer outBlock start parts) :
    ∃ i q o j, parts[i]? = some q ∧ o < outer ∧ j < q.block ∧
      ((parts.take i).map Part.block).sum + j < (parts.map Part.block).sum ∧
      τ = ⟨b, o * outBlock + (start + ((parts.take i).map Part.block).sum + j), q.source,
        o * q.block + j, q.casts⟩ := by
  induction parts generalizing start with
  | nil => cases hτ
  | cons p parts ih =>
    rcases List.mem_append.1 hτ with hτ | hτ
    · obtain ⟨o, ho, hτ⟩ := List.mem_flatMap.1 hτ
      obtain ⟨j, hj, rfl⟩ := List.mem_map.1 hτ
      rw [List.mem_range] at ho hj
      refine ⟨0, p, o, j, rfl, ho, hj, ?_, by simp [Nat.add_assoc]⟩
      simpa using lt_of_lt_of_le hj (Nat.le_add_right _ _)
    · obtain ⟨i, q, o, j, hq, ho, hj, hroom, rfl⟩ := ih hτ
      refine ⟨i + 1, q, o, j, hq, ho, hj, ?_, by simp [Nat.add_assoc]⟩
      simpa [Nat.add_assoc] using hroom

end

/-- Joined arrays, where the elements of a result in the block of an operand are those of the
operand, and floats are not converted to integers. -/
theorem moves_of_join [FloatProduct] {op : Op} {operands : List Node} {β : NodeId → Buffer}
    {block : Node → Nat} {outer outBlock : Nat}
    (hβ : ∀ x ∈ operands, scope.buffer? σ x.id = some (β x.id))
    (hfloat : ∀ x ∈ operands, x.type.dtype.isFloat = true → n.type.dtype ≠ .i64)
    (hsize : n.type.size = outer * outBlock) (hsum : (operands.map block).sum = outBlock)
    (hsizes : ∀ x ∈ operands, x.type.size = outer * block x)
    (hget : ∀ (args : List Tensor) (r : Tensor), args.map Tensor.type = operands.map Node.type →
      r.type = n.type → op.eval args n.type = .ok r →
      ∀ {i x y o j}, operands[i]? = some x → args[i]? = some y → y.type = x.type → o < outer →
        j < block x → ((operands.take i).map block).sum + j < outBlock →
          r.get (r.shape.coord (o * outBlock + (((operands.take i).map block).sum + j))) =
            (y.get (y.shape.coord (o * block x + j))).to n.type.dtype) :
    Moves scope σ n op operands b
      (joinTransfers b outer outBlock 0 (operands.map (partOf β block n.type.dtype))) := by
  have hblocks : (Part.block ∘ partOf β block n.type.dtype) = block := rfl
  have hperm : ((joinTransfers b outer outBlock 0 (operands.map
      (partOf β block n.type.dtype))).map Transfer.place).Perm (List.range n.type.size) := by
    have hperm := perm_place_joinTransfers b outer outBlock 0
      (operands.map (partOf β block n.type.dtype))
    rw [List.map_map, hblocks, hsum] at hperm
    rwa [hsize, ← flatMap_range_block]
  refine ⟨hperm, fun τ hτ => ?_, fun τ hτ => ?_⟩
  · obtain ⟨i, q, o, j, -, -, -, -, rfl⟩ := exists_of_mem_joinTransfers hτ
    rfl
  · have hplace := List.mem_range.1 (hperm.mem_iff.1 (List.mem_map_of_mem hτ))
    obtain ⟨i, q, o, j, hq, ho, hj, hroom, rfl⟩ := exists_of_mem_joinTransfers hτ
    rw [List.getElem?_map, Option.map_eq_some_iff] at hq
    obtain ⟨x, hx, rfl⟩ := hq
    rw [← List.map_take, List.map_map, List.map_map, hblocks, hsum] at hroom
    rw [Nat.zero_add, ← List.map_take, List.map_map, hblocks] at hplace ⊢
    have hmem := List.mem_of_getElem? hx
    refine ⟨i, x, hx, hβ x hmem, fun args r hargs htype hr => ?_⟩
    obtain ⟨y, hy, hyx⟩ : ∃ y, args[i]? = some y ∧ y.type = x.type := by
      have hi := congrArg (·[i]?) hargs
      simp only [List.getElem?_map, hx, Option.map_some] at hi
      exact Option.map_eq_some_iff.1 hi
    dsimp only [partOf] at hj hplace ⊢
    have horigin : o * block x + j < y.type.size := by
      rw [hyx, hsizes x hmem]
      exact Shape.block_lt ho hj
    refine ⟨y, hy, horigin, ?_⟩
    have hdtype : y.dtype = x.type.dtype := congrArg TensorType.dtype hyx
    rw [Tensor.element?_eq (by rwa [htype]), Tensor.element?_eq horigin, Option.bind_some,
      hget args r hargs htype hr hx hy hyx ho hj hroom, foldlM_casts hdtype,
      Scalar.to?_of_not_truncates fun h => hfloat x hmem (hdtype ▸ h)]

theorem transfers?_copyBlocks {target source : Expr} (htarget : scope.array n.id = .ok target)
    (hb : scope.buffer? σ n.id = some b) (hsource : scope.array id = .ok source) {q : Part}
    (hq : scope.buffer? σ id = some q.source) (outer outBlock start : Nat) {src dst : DType}
    (hcasts : q.casts = casts src dst) :
    (copyBlocks target outer outBlock start q.block
      ((entryAt source "o" q.block "j").convert src dst)).transfers? σ =
        some (q.transfers b outer outBlock start) := by
  have hbody : ∀ o j, (Stmt.store (.index target (.bin .add
      (.bin .add (.bin .mul (.var "o") (.num outBlock)) (.num start)) (.var "j")))
      ((entryAt source "o" q.block "j").convert src dst)).transfers?
        (Function.update (Function.update σ "o" (some (.counter o))) "j" (some (.counter j))) =
          some [⟨b, o * outBlock + start + j, q.source, o * q.block + j, q.casts⟩] := by
    intro o j
    have hkeeps := ((Keeps.refl σ).update (x := "o") (by decide)
      (some (.counter o))).update (x := "j") (by decide) (some (.counter j))
    rw [hcasts]
    exact Stmt.transfers?_store (buffer?_of_keeps htarget hb hkeeps)
      (value?_blockPosition (by simp) (by simp))
      (Expr.origin?_convert (Expr.origin?_index (buffer?_of_keeps hsource hq hkeeps)
        (value?_entryPosition (by simp) (by simp))) src dst)
  rw [copyBlocks, Stmt.transfers?_loopLine fun o _ _ => Stmt.transfers?_loopLine
    fun j _ _ => hbody o j]
  simp [Part.transfers, List.range_eq_range', List.map_eq_flatMap]

section
variable {operands : List Node} {β : NodeId → Buffer} {target : Expr} {r : List String × List Stmt}

theorem transfers?_concatParts {axis start : Nat} (htarget : scope.array n.id = .ok target)
    (hb : scope.buffer? σ n.id = some b)
    (hx : ∀ x ∈ operands, scope.trace.node? x.id = some x)
    (hβ : ∀ x ∈ operands, scope.buffer? σ x.id = some (β x.id))
    (h : concatParts scope n target axis start (operands.map Node.id) = .ok r) :
    (Stmt.all r.2).transfers? σ = some (joinTransfers b (Shape.size (n.type.shape.take axis))
      (Shape.size (n.type.shape.drop axis)) start
      (operands.map (partOf β (fun x => Shape.size (x.type.shape.drop axis)) n.type.dtype))) := by
  induction operands generalizing start r with
  | nil =>
    cases h
    rfl
  | cons x operands ih =>
    obtain ⟨hx, hrest⟩ := List.forall_mem_cons.1 hx
    obtain ⟨hβx, hβ⟩ := List.forall_mem_cons.1 hβ
    rw [List.map_cons, concatParts] at h
    replace h := Except.of_bind_eq_ok h (node_of_node? hx)
    obtain ⟨source, hsource, h⟩ := Except.bind_eq_ok.1 h
    obtain ⟨r, hr, h⟩ := Except.bind_eq_ok.1 h
    cases h
    have hcopy := transfers?_copyBlocks htarget hb hsource
      (q := partOf β (fun x => Shape.size (x.type.shape.drop axis)) n.type.dtype x) hβx
      (Shape.size (n.type.shape.take axis)) (Shape.size (n.type.shape.drop axis)) start rfl
    exact Stmt.transfers?_all_cons hcopy rfl (ih hrest hβ hr)

/-- The parts of a stack have one block each, and all the same size. -/
theorem transfers?_stackParts (outBlock : Nat) {k m : Nat}
    (htarget : scope.array n.id = .ok target)
    (hb : scope.buffer? σ n.id = some b)
    (hx : ∀ x ∈ operands, scope.trace.node? x.id = some x)
    (hβ : ∀ x ∈ operands, scope.buffer? σ x.id = some (β x.id))
    (hsize : ∀ x ∈ operands, x.type.size = m)
    (h : stackParts scope n target k (operands.map Node.id) = .ok r) :
    (Stmt.all r.2).transfers? σ = some (joinTransfers b 1 outBlock (k * m)
      (operands.map (partOf β (fun x => x.type.size) n.type.dtype))) := by
  induction operands generalizing k r with
  | nil =>
    cases h
    rfl
  | cons x operands ih =>
    obtain ⟨hx, hrest⟩ := List.forall_mem_cons.1 hx
    obtain ⟨hβx, hβ⟩ := List.forall_mem_cons.1 hβ
    obtain ⟨rfl, hsize⟩ := List.forall_mem_cons.1 hsize
    rw [List.map_cons, stackParts] at h
    replace h := Except.of_bind_eq_ok h (node_of_node? hx)
    obtain ⟨source, hsource, h⟩ := Except.bind_eq_ok.1 h
    obtain ⟨r, hr, h⟩ := Except.bind_eq_ok.1 h
    cases h
    have hbody : ∀ j, (Stmt.store (.index target (.bin .add (.num (k * x.type.size)) (.var "j")))
        ((Expr.index source (.var "j")).convert x.type.dtype n.type.dtype)).transfers?
          (Function.update σ "j" (some (.counter j))) =
            some [⟨b, k * x.type.size + j, β x.id, j, casts x.type.dtype n.type.dtype⟩] := by
      intro j
      have hkeeps := (Keeps.refl σ).update (x := "j") (by decide) (some (.counter j))
      exact Stmt.transfers?_store (buffer?_of_keeps htarget hb hkeeps)
        (Expr.value?_add (by simp [Expr.level]) (by simp [Expr.level]) rfl (value?_var (by simp)))
        (Expr.origin?_convert (Expr.origin?_index (buffer?_of_keeps hsource hβx hkeeps)
          (value?_var (by simp))) _ _)
    have hloop := Stmt.transfers?_loopLine (l := ⟨"j", 0, x.type.size⟩) fun j _ _ => hbody j
    have hrest := ih hrest hβ hsize hr
    rw [Nat.add_mul, Nat.one_mul] at hrest
    refine (Stmt.transfers?_all_cons hloop rfl hrest).trans ?_
    simp [joinTransfers, Part.transfers, partOf, List.range_eq_range', List.map_eq_flatMap]

end

theorem moves_concat [FloatProduct] {operands : List Node} {β : NodeId → Buffer} {axis : Nat}
    {first : Shape} (hx : ∀ x ∈ operands, scope.trace.node? x.id = some x)
    (hfloat : ∀ x ∈ operands, x.type.dtype.isFloat = true → n.type.dtype ≠ .i64)
    (hshape : Op.concatShape axis first (operands.map fun x => x.type.shape) = .ok n.type.shape)
    (hb : scope.buffer? σ n.id = some b) (hβ : ∀ x ∈ operands, scope.buffer? σ x.id = some (β x.id))
    (h : concat scope n axis (operands.map Node.id) = .ok st) :
    ∃ ts, st.transfers? σ = some ts ∧ Moves scope σ n (.concat axis) operands b ts := by
  rw [concat] at h
  obtain ⟨target, htarget, h⟩ := Except.bind_eq_ok.1 h
  obtain ⟨copies, hcopies, h⟩ := Except.bind_eq_ok.1 h
  cases h
  obtain ⟨hsizes, hsum⟩ := Op.sizes_of_concatShape hshape
  rw [List.map_map] at hsum
  refine ⟨_, (Stmt.transfers?_comment _ _).trans
      (transfers?_concatParts htarget hb hx hβ hcopies),
    moves_of_join hβ hfloat (Shape.size_take_mul_drop _ _).symm hsum
      (fun x hx => hsizes _ (List.mem_map_of_mem hx)) ?_⟩
  intro args r hargs htype hr i x y o j hx hy hyx ho hj hroom
  have hyshape : y.shape = x.type.shape := congrArg TensorType.shape hyx
  have hshapes : args.map Tensor.shape = operands.map fun x => x.type.shape := by
    simpa [Function.comp_def, Tensor.type] using congrArg (List.map TensorType.shape) hargs
  have hstart : ((operands.take i).map fun x => Shape.size (x.type.shape.drop axis)).sum =
      ((args.take i).map fun x => Shape.size (x.shape.drop axis)).sum := by
    have hsizes := congrArg
      (fun ss => ((ss.take i).map fun s => Shape.size (s.drop axis)).sum) hshapes
    simpa [← List.map_take, Function.comp_def] using hsizes.symm
  rw [hstart] at hroom ⊢
  rw [← hyshape] at hj ⊢
  exact Op.get_of_eval_concat (hshapes ▸ hshape) htype hr hy ho hj hroom

theorem moves_stack [FloatProduct] {x : Node} {rest : List Node} {β : NodeId → Buffer}
    (hx : ∀ y ∈ x :: rest, scope.trace.node? y.id = some y)
    (hfloat : ∀ y ∈ x :: rest, y.type.dtype.isFloat = true → n.type.dtype ≠ .i64)
    (hshapes : ∀ y ∈ rest, y.type.shape = x.type.shape)
    (hshape : n.type.shape = (rest.length + 1) :: x.type.shape)
    (hb : scope.buffer? σ n.id = some b)
    (hβ : ∀ y ∈ x :: rest, scope.buffer? σ y.id = some (β y.id))
    (h : stack scope n ((x :: rest).map Node.id) = .ok st) :
    ∃ ts, st.transfers? σ = some ts ∧ Moves scope σ n .stack (x :: rest) b ts := by
  have hshapes : ∀ y ∈ x :: rest, y.type.shape = x.type.shape :=
    List.forall_mem_cons.2 ⟨rfl, hshapes⟩
  have hsizes : ∀ y ∈ x :: rest, y.type.size = x.type.size :=
    fun y hy => congrArg Shape.size (hshapes y hy)
  have hsum : ∀ ys ⊆ x :: rest, (ys.map fun y => y.type.size).sum = ys.length * x.type.size := by
    intro ys hys
    rw [List.map_congr_left fun y hy => hsizes y (hys hy)]
    simp
  have hsize : n.type.size = ((x :: rest).map fun y => y.type.size).sum := by
    rw [hsum _ (List.Subset.refl _), TensorType.size, hshape]
    rfl
  rw [stack] at h
  obtain ⟨target, htarget, h⟩ := Except.bind_eq_ok.1 h
  obtain ⟨copies, hcopies, h⟩ := Except.bind_eq_ok.1 h
  cases h
  have hcopies := transfers?_stackParts n.type.size htarget hb hx hβ hsizes hcopies
  rw [Nat.zero_mul] at hcopies
  refine ⟨_, (Stmt.transfers?_comment _ _).trans hcopies,
    moves_of_join hβ hfloat (Nat.one_mul _).symm hsize.symm (fun _ _ => (Nat.one_mul _).symm) ?_⟩
  intro args r hargs htype hr i z y o j hz hy hyz ho hj hroom
  have hyshape : y.shape = x.type.shape :=
    (congrArg TensorType.shape hyz).trans (hshapes z (List.mem_of_getElem? hz))
  have hj : j < y.type.size := by
    rw [hyz]
    exact hj
  have hlen : args.length = rest.length + 1 := by simpa using congrArg List.length hargs
  have hstart : (((x :: rest).take i).map fun y => y.type.size).sum = i * y.shape.size := by
    have hi := (List.getElem?_eq_some_iff.1 hz).1
    rw [hsum _ (List.take_subset _ _), List.length_take_of_le hi.le, hyshape]
    rfl
  obtain rfl : o = 0 := Nat.lt_one_iff.1 ho
  rw [hstart, Nat.zero_mul, Nat.zero_mul, Nat.zero_add, Nat.zero_add]
  exact Op.get_of_eval_stack (by rw [hshape, hlen, hyshape]) htype hr hy hj

end Emit
end ArrayTrace
