import ArrayTrace.Proofs.Movement
import ArrayTrace.Proofs.Pointwise
import ArrayTrace.Proofs.Progress

/-!
# Code that overwrites

Code that moves elements writes what executing its node leaves, and nothing else, unless it is
an assignment of floats to integers, whose conversions need not be defined. An assignment may
read the array that it assigns into, since a value that spreads to a part of an array of its own
shape is read where the part is written.
-/

namespace ArrayTrace
open C

/-- The positions that a node writes in its array: those of the region that it overwrites, or all
of them. -/
def Node.places (n : Node) : List Nat :=
  (List.range n.type.size).filter fun k =>
    n.write?.all fun access => access.2.contains (n.type.shape.coord k)

theorem Node.places_of_apply {n : Node} {op : Op} {inputs : List NodeId}
    (hk : n.kind = .apply op inputs) : n.places = List.range n.type.size := by
  simp [places, write?, hk]

theorem Node.places_of_assign {n : Node} {target value : NodeId} {selection : Selection}
    {w : Window} (hk : n.kind = .assign target selection value)
    (hw : selection.resolve n.type.shape = .ok w) :
    n.places = (List.range n.type.size).filter fun k =>
      w.region.contains (n.type.shape.coord k) := by
  simp [places, write?, hk, hw, Except.toOption]

/-- Whether the code of the node only moves elements. -/
def Node.isMovement (n : Node) : Bool :=
  match n.kind with
  | .apply op _ => op.isMovement
  | .assign .. => true
  | _ => false

theorem Node.of_isMovement {n : Node} (h : n.isMovement = true) :
    n.isState = false ∧ n.isPlaceholder = false ∧ n.isElementwise = false := by
  obtain ⟨_, _, _, kind⟩ := n
  cases kind with
  | apply op inputs => cases op <;> first | exact ⟨rfl, rfl, rfl⟩ | cases h
  | assign => exact ⟨rfl, rfl, rfl⟩
  | _ => cases h

/-- An assignment of floats to integers. -/
def Trace.Truncates (t : Trace) (n : Node) : Prop :=
  ∃ target selection value x, n.kind = .assign target selection value ∧
    t.node? value = some x ∧ x.type.dtype.isFloat = true ∧ n.type.dtype = .i64

theorem Tensor.get_of_assign {x v r : Tensor} {w : Window} {ix : List Nat}
    (h : x.assign w v = .ok r) (hfits : w.Fits x.shape) (hix : x.shape.InBounds ix) :
    r.get ix = if w.contains ix then (v.get (v.shape.project (w.relative ix))).to x.dtype
      else x.get ix := by
  obtain ⟨v', hv', rfl⟩ := (assign_eq_ok_iff hfits).1 h
  obtain ⟨hspreads, rfl⟩ := NDArray.of_spread_eq_ok hv'
  have hget := NDArray.get_assign (w := w) (v := (v.as x.dtype).broadcastTo w.shape)
    (show x.array.shape.InBounds ix from hix)
  by_cases hcontains : w.contains ix
  · rw [if_pos hcontains] at hget ⊢
    rw [Window.contains_eq] at hcontains
    have hpart : w.shape.InBounds (w.relative ix) :=
      hfits.inBounds_relative (hix.length_eq.trans hfits.length_eq.symm) hcontains
    rw [NDArray.get_broadcastTo hpart, Tensor.shape_as] at hget
    rw [Tensor.get_as _ (show v.shape.InBounds _ from hpart.project hspreads)] at hget
    exact congrArg (Scalar.mk x.dtype) hget
  · rw [if_neg hcontains] at hget ⊢
    exact congrArg (Scalar.mk x.dtype) hget

/-- Elements of the region that is assigned are those of the value, which spreads over it. -/
theorem Tensor.element?_of_assign_region {x v r : Tensor} {w : Window} {ix : List Nat}
    (h : x.assign w v = .ok r) (hfits : w.Fits x.shape) (hix : x.shape.InBounds ix)
    (hpart : v.shape.InBounds (v.shape.project (w.relative ix)))
    (hin : w.region.contains ix = true) :
    r.element? (x.shape.offset ix) =
      (v.element? (v.shape.offset (v.shape.project (w.relative ix)))).map fun y =>
        y.to x.dtype := by
  have hshape : r.shape = x.shape := congrArg TensorType.shape (type_of_assign h)
  have hget := get_of_assign h hfits hix
  rw [if_pos (by rwa [Window.contains_eq])] at hget
  rw [← hshape] at hix ⊢
  exact element?_offset_eq hix hpart hget

/-- Elements outside of the region that is assigned stay. -/
theorem Tensor.element?_of_assign {x v r : Tensor} {w : Window} {k : Nat}
    (h : x.assign w v = .ok r) (hfits : w.Fits x.shape) (hk : k < x.type.size)
    (hout : w.region.contains (x.shape.coord k) = false) : r.element? k = x.element? k := by
  have htype := type_of_assign h
  have hshape : r.shape = x.shape := congrArg TensorType.shape htype
  rw [element?_eq (htype ▸ hk), element?_eq hk, hshape,
    get_of_assign h hfits (Shape.coord_inBounds hk), Window.contains_eq, hout,
    if_neg Bool.false_ne_true]

/-- The value of an input that has been evaluated, in the array where it is kept. -/
theorem Trace.Filled.exists_home {t : Trace} {K : Set NodeId} {μ : Memory} {id : NodeId} {x : Node}
    (h : t.Filled K μ) (ht : t.WellFormed) (hx : t.node? id = some x) (hid : id ∈ K) :
    ∃ y, μ (t.home id) = some y ∧ y.type = x.type := by
  rw [home_of_node? ht hx]
  exact h x (mem_of_node? hx) (ht.id_of_node? hx ▸ hid)

namespace Emit
variable {scope : EmitScope} {σ : Names} {n x v : Node} {inputs : List NodeId} {st : Stmt}
  {b β : Buffer} {ts : List Transfer} {op : Op} {operands : List Node} {states μ ν : Memory}

/-- Transfers that write what executing a node leaves in its array, or what C leaves undefined.
Where they read this array, they read what they overwrite. -/
structure Executes [FloatProduct] (scope : EmitScope) (σ : Names) (n : Node) (b : Buffer)
    (ts : List Transfer) : Prop where
  target_eq : ∀ τ ∈ ts, τ.target = b
  places_perm : (ts.map Transfer.place).Perm n.places
  origin_eq : ∀ τ ∈ ts, τ.source = b → τ.origin = τ.place
  outcome : ∀ (states μ : Memory) (o : Option Tensor),
    scope.trace.Filled {i | i ∈ n.inputs} μ → scope.trace.outcome states μ n = some o →
    ∃ r, o = some r ∧ r.type = n.type ∧
      (∀ τ ∈ ts, ∃ id y, scope.buffer? σ id = some τ.source ∧
        μ (scope.trace.home id) = some y ∧ τ.origin < y.type.size ∧ ∀ written,
          (y.element? τ.origin).bind (fun v => τ.casts.foldlM Scalar.to? v) = written →
          (written = none → scope.trace.Truncates n) ∧
            ∀ v, written = some v → r.element? τ.place = some v) ∧
      ∀ k < n.type.size, k ∉ n.places →
        ∃ y, μ n.dest = some y ∧ y.type = n.type ∧ r.element? k = y.element? k

variable [FloatProduct]

theorem Executes.nodup_places (h : Executes scope σ n b ts) : (ts.map Transfer.place).Nodup :=
  h.places_perm.nodup_iff.2 (List.nodup_range.filter _)

theorem Executes.undisturbed (h : Executes scope σ n b ts) : Undisturbed ts where
  nodup := List.Nodup.of_map Prod.snd (by rw [List.map_map]; exact h.nodup_places)
  eq_of_reads := by
    intro τ hτ υ hυ htarget hplace
    have horigin := h.origin_eq τ hτ (htarget.symm.trans (h.target_eq υ hυ))
    exact List.inj_on_of_nodup_map h.nodup_places hυ hτ (hplace.trans horigin)

/-- An operation writes its own array, which none of its operands is kept in. -/
theorem Moves.executes (ht : scope.trace.WellFormed) (hk : n.kind = .apply op inputs)
    (hop : op.isMovement = true) (hinputs : inputs = operands.map Node.id)
    (hoperands : ∀ x ∈ operands, scope.trace.node? x.id = some x)
    (hinfer : op.infer (operands.map Node.type) scope.trace.config.floatDType = .ok n.type)
    (hapart : ∀ x ∈ operands, scope.buffer? σ x.id ≠ some b)
    (h : Moves scope σ n op operands b ts) : Executes scope σ n b ts where
  target_eq := h.target_eq
  places_perm := by
    rw [Node.places_of_apply hk]
    exact h.places_perm
  origin_eq := by
    intro τ hτ hsource
    obtain ⟨i, x, hx, hbuffer, -⟩ := h.delivers τ hτ
    exact absurd (hsource ▸ hbuffer) (hapart x (List.mem_of_getElem? hx))
  outcome := by
    intro states μ o hfilled ho
    subst hinputs
    have hops : List.Forall₂ (fun id x => scope.trace.node? id = some x) (operands.map Node.id)
        operands := List.forall₂_map_left_iff.2 (List.forall₂_same.2 hoperands)
    simp only [Trace.outcome, hk] at ho
    obtain ⟨args, hargs, htypes⟩ := Trace.exists_args (μ := μ) hops fun i hi x hx =>
      hfilled.exists_home ht hx (by rwa [Set.mem_ofPred_eq, Node.inputs, hk])
    rw [hargs] at ho
    obtain ⟨r, hr, rfl⟩ : ∃ r, op.eval args n.type = .ok r ∧ some r = o := by
      simpa [Option.bind_eq_some_iff, toOption_eq_some] using ho
    have htype : r.type = n.type := Op.type_of_eval hop (htypes ▸ hinfer) hr
    refine ⟨r, rfl, htype, fun τ hτ => ?_, fun k hlt hout => absurd (List.mem_range.2 hlt) ?_⟩
    · obtain ⟨i, x, hx, hbuffer, hdeliver⟩ := h.delivers τ hτ
      obtain ⟨y, hy, horigin, helement⟩ := hdeliver args r htypes htype hr
      have hread := List.forall₂_map_left_iff.1 (mapM_eq_some.1 hargs)
      have hmem : (x, y) ∈ operands.zip args :=
        List.mem_iff_getElem?.2 ⟨i, List.getElem?_zip_eq_some.2 ⟨hx, hy⟩⟩
      refine ⟨x.id, y, hbuffer, List.forall₂_zip hread hmem, horigin, ?_⟩
      have hplace : τ.place < r.type.size := by
        rw [htype]
        exact List.mem_range.1 (h.places_perm.mem_iff.1 (List.mem_map_of_mem hτ))
      rintro _ rfl
      rw [← helement, Tensor.element?_eq hplace]
      refine ⟨fun hnone => ?_, fun _ => id⟩
      cases hnone
    · rwa [Node.places_of_apply hk] at hout

/-- Transfers of an assignment. -/
def assignTransfers (b β : Buffer) (x v : Node) (w : Window) : List Transfer :=
  (Region.indices w.region).map fun ix =>
    ⟨b, x.type.shape.offset ix, β, v.type.shape.offset (v.type.shape.project (w.relative ix)),
      casts v.type.dtype x.type.dtype⟩

omit [FloatProduct] in
theorem transfers?_assign (hx : scope.trace.node? x.id = some x)
    (hv : scope.trace.node? v.id = some v) {selection : Selection} {w : Window}
    (hw : selection.resolve x.type.shape = .ok w) (hspreads : v.type.shape.spreadsTo w.shape = true)
    (hb : scope.buffer? σ x.id = some b) (hβ : scope.buffer? σ v.id = some β)
    (h : assign scope n x.id selection v.id = .ok st) :
    st.transfers? σ = some (assignTransfers b β x v w) := by
  rw [assign] at h
  replace h := Except.of_bind_eq_ok h (node_of_node? hx)
  replace h := Except.of_bind_eq_ok h (node_of_node? hv)
  replace h := Except.of_bind_eq_ok h (Except.mapError_eq_ok.2 hw)
  obtain ⟨place, hplace, h⟩ := Except.bind_eq_ok.1 h
  obtain ⟨source, hsource, h⟩ := Except.bind_eq_ok.1 h
  cases h
  have hfits := Selection.fits_of_resolve hw
  refine (Stmt.transfers?_comment _ _).trans (transfers?_nest fun σ' ix hkeeps hix hdenote => ?_)
  obtain ⟨hlen, hcontains, hbounds⟩ := mem_indices_window hfits hix
  rw [Window.length_region, hfits.length_eq] at hdenote
  exact Stmt.transfers?_store (buffer?_of_keeps hplace hb hkeeps)
    (value?_linear hdenote hbounds.length_eq)
    (Expr.origin?_convert (Expr.origin?_index (buffer?_of_keeps hsource hβ hkeeps)
      (value?_broadcastLinear (hdenote.relative hcontains)
        (hfits.inBounds_relative hlen hcontains) hspreads)) _ _)

omit [FloatProduct] in
/-- What an assignment converts its value to is what an evaluation does, or undefined. -/
theorem to_of_casts {target value : NodeId} {selection : Selection}
    (hk : n.kind = .assign target selection value) (hv : scope.trace.node? value = some v)
    {y : Scalar} (hy : y.dtype = v.type.dtype) {written : Option Scalar}
    (h : (casts v.type.dtype n.type.dtype).foldlM Scalar.to? y = written) :
    (written = none → scope.trace.Truncates n) ∧
      ∀ u, written = some u → y.to n.type.dtype = u := by
  rw [foldlM_casts hy] at h
  subst h
  refine ⟨fun hnone => ?_, fun u hu => Scalar.to_of_to? hu⟩
  by_contra htruncates
  rw [Scalar.to?_of_not_truncates fun hfloat hint => htruncates
    ⟨target, selection, value, v, hk, hv, hy ▸ hfloat, hint⟩] at hnone
  cases hnone

/-- An assignment writes the region that it selects. Its value may be kept in the array that is
assigned into if it has the same shape. -/
theorem executes_assign (ht : scope.trace.WellFormed) {target value : NodeId}
    {selection : Selection} (hk : n.kind = .assign target selection value)
    (hx : scope.trace.node? target = some x) (hv : scope.trace.node? value = some v)
    (htype : x.type = n.type) {w : Window} (hw : selection.resolve x.type.shape = .ok w)
    (hspreads : v.type.shape.spreadsTo w.shape = true)
    (hβ : scope.buffer? σ value = some β) (hsame : β = b → v.type.shape = x.type.shape)
    (hhome : scope.trace.home target = target) :
    Executes scope σ n b (assignTransfers b β x v w) where
  target_eq := by
    intro τ hτ
    obtain ⟨ix, -, rfl⟩ := List.mem_map.1 hτ
    rfl
  places_perm := by
    have hfits := Selection.fits_of_resolve hw
    rw [Node.places_of_assign hk (htype ▸ hw), assignTransfers, List.map_map, ← htype]
    refine Shape.perm_offsets (g := id) (Region.nodup_indices w.region) (fun _ _ _ _ h => h)
      fun ix => ⟨?_, fun ⟨hbounds, hcontains⟩ => ⟨ix, Region.mem_indices.2 ⟨?_, hcontains⟩, rfl⟩⟩
    · rintro ⟨ix, hix, rfl⟩
      obtain ⟨-, hcontains, hbounds⟩ := mem_indices_window hfits hix
      exact ⟨hbounds, hcontains⟩
    · rw [Window.length_region, hfits.length_eq, hbounds.length_eq]
  origin_eq := by
    intro τ hτ hsource
    obtain ⟨ix, hix, rfl⟩ := List.mem_map.1 hτ
    obtain ⟨hlen, hcontains, -⟩ := mem_indices_window (Selection.fits_of_resolve hw) hix
    have hshape := hsame hsource
    rw [hshape] at hspreads
    have hproject := (Selection.fits_of_resolve hw).project_relative hspreads hlen hcontains
    simp only [hshape, hproject]
  outcome := by
    intro states μ o hfilled ho
    have hinputs : n.inputs = [target, value] := by rw [Node.inputs, hk]
    obtain ⟨current, hcurrent, hxtype⟩ := hfilled.exists_home ht hx (by simp [hinputs])
    obtain ⟨source, hsource, hvtype⟩ := hfilled.exists_home ht hv (by simp [hinputs])
    have hxshape : current.shape = x.type.shape := congrArg TensorType.shape hxtype
    have hvshape : source.shape = v.type.shape := congrArg TensorType.shape hvtype
    rw [hhome] at hcurrent
    have hwindow : selection.resolve current.shape = .ok w := hxshape ▸ hw
    obtain ⟨r, hr, rfl⟩ : ∃ r, current.assign w source = .ok r ∧ some r = o := by
      simpa [Trace.outcome, hk, hcurrent, hsource, toOption_eq_some.2 hwindow,
        Option.bind_eq_some_iff, toOption_eq_some] using ho
    have hrtype : r.type = n.type := (Tensor.type_of_assign hr).trans (hxtype.trans htype)
    have hfits : w.Fits current.shape := Selection.fits_of_resolve hwindow
    refine ⟨r, rfl, hrtype, fun τ hτ => ?_, fun k hlt hout => ?_⟩
    · obtain ⟨ix, hix, rfl⟩ := List.mem_map.1 hτ
      obtain ⟨hlen, hcontains, hbounds⟩ := mem_indices_window hfits hix
      have hpart : source.shape.InBounds (source.shape.project (w.relative ix)) :=
        (hfits.inBounds_relative hlen hcontains).project (hvshape ▸ hspreads)
      have helement := Tensor.element?_of_assign_region hr hfits hbounds hpart hcontains
      have hdtype : current.dtype = x.type.dtype := congrArg TensorType.dtype hxtype
      rw [hxshape, hvshape, hdtype] at helement
      have horigin : v.type.shape.offset (v.type.shape.project (w.relative ix)) <
          source.type.size := hvshape ▸ Shape.offset_lt hpart
      refine ⟨value, source, hβ, hsource, horigin, ?_⟩
      obtain ⟨y, hy⟩ : ∃ y, source.element?
          (v.type.shape.offset (v.type.shape.project (w.relative ix))) = some y :=
        ⟨_, Tensor.element?_eq horigin⟩
      have hydtype : y.dtype = v.type.dtype :=
        (Tensor.dtype_of_element? hy).trans (congrArg TensorType.dtype hvtype)
      rw [hy, Option.map_some] at helement
      rw [hy, Option.bind_some, helement, htype]
      intro written hwritten
      obtain ⟨hnone, hsome⟩ := to_of_casts hk hv hydtype hwritten
      exact ⟨hnone, fun u hu => congrArg some (hsome u hu)⟩
    · have hnshape : current.shape = n.type.shape := hxshape.trans (congrArg TensorType.shape htype)
      have hcontains : w.region.contains (current.shape.coord k) = false := by
        rw [Node.places_of_assign hk (htype ▸ hw), List.mem_filter, ← hnshape] at hout
        simpa [hlt] using hout
      have hdest : μ n.dest = some current := by rwa [Node.dest, Node.target?, hk]
      refine ⟨current, hdest, hxtype.trans htype, ?_⟩
      exact Tensor.element?_of_assign hr hfits (by rwa [hxtype, htype]) hcontains

end Emit
end ArrayTrace
