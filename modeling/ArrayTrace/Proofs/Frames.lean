import ArrayTrace.Proofs.Soundness
import ArrayTrace.Proofs.Totality

/-!
# What calls change

A step stores into one array: its own, or the one that its node assigns into. An assignment
changes the elements of its region only. So what a call leaves in a variable differs from
what was there in the regions of the executed assignments at most, and in the region of the
last one it is the assigned value, as it was when that assignment was executed.

## Main definitions

* `NDArray.EqOn` — arrays of one shape that agree at certain positions.
* `Step.dest` — the array that a step stores into.
* `Program.Spares` — positions that no assignment into an array covers.
* `Program.ComesTo` — the values that a run holds when it comes to a step.
* `Program.CallEffect` — what a call does to a variable.
-/

namespace ArrayTrace

/-! ## Arrays that agree in part -/

/-- Arrays of one shape that agree at the positions with a property. -/
structure NDArray.EqOn {α : Type} [Inhabited α] (P : List Nat → Prop) (a b : NDArray α) : Prop where
  shape_eq : b.shape = a.shape
  get_eq : ∀ ix, a.shape.InBounds ix → P ix → b.get ix = a.get ix

namespace NDArray.EqOn
variable {α : Type} [Inhabited α] {P : List Nat → Prop} {a b c v : NDArray α} {w : Window}

theorem refl (P : List Nat → Prop) (a : NDArray α) : EqOn P a a := ⟨rfl, fun _ _ _ => rfl⟩

theorem trans (h : EqOn P a b) (h' : EqOn P b c) : EqOn P a c where
  shape_eq := h'.shape_eq.trans h.shape_eq
  get_eq ix hix hP := (h'.get_eq ix (h.shape_eq ▸ hix) hP).trans (h.get_eq ix hix hP)

/-- An assignment keeps what lies outside of its region. -/
theorem assign (h : ∀ ix, P ix → w.region.contains ix = false) : EqOn P a (a.assign w v) where
  shape_eq := rfl
  get_eq ix hix hP := by
    rw [get_assign hix, Window.contains_eq, h ix hP]
    rfl

theorem eq (h : EqOn P a b) (hP : ∀ ix, P ix) : b = a :=
  ext_get h.shape_eq fun ix hix => h.get_eq ix (h.shape_eq ▸ hix) (hP ix)

end NDArray.EqOn

/-! ## Steps -/

/-- The array that a step stores into. -/
def Step.dest (p : Program) : Step → NodeId
  | single id => p.storage id
  | fused root _ => root

namespace Program
variable {p : Program} {states values values' : Store} {n : Node} {id : NodeId} {step : Step}
  {steps : List Step}

theorem evalStep_single_eq_ok [FloatProduct] :
    p.evalStep states values (.single id) = .ok values' ↔
      ∃ n, p.node? id = some n ∧ p.evalNode states values n = .ok values' := by
  rw [evalStep, Except.bind_eq_ok]
  simp only [node_eq_ok]

theorem lookup_eq_ok {v : Tensor} : lookup values id = .ok v ↔ values.get? id = some v := by
  rw [lookup]
  cases values.get? id <;> simp

section
variable [FloatProduct]

/-- What an assignment that succeeds has stored. -/
theorem evalNode_assign {target value : NodeId} {selection : Selection}
    (hkind : n.kind = .assign target selection value)
    (h : p.evalNode states values n = .ok values') :
    ∃ (current : Tensor) (window : Window) (source : Tensor),
      values.get? target = some current ∧ selection.resolve current.shape = .ok window ∧
      p.read values value = .ok source ∧ source.shape.spreadsTo window.shape = true ∧
      values' = values.insert target ⟨current.dtype, current.array.assign window
        ((source.as current.dtype).broadcastTo window.shape)⟩ := by
  simp only [evalNode, hkind] at h
  obtain ⟨current, hcurrent, h⟩ := Except.bind_eq_ok.1 h
  obtain ⟨window, hwindow, h⟩ := Except.bind_eq_ok.1 h
  obtain ⟨source, hsource, h⟩ := Except.bind_eq_ok.1 h
  obtain ⟨stored, hstored, h⟩ := Except.bind_eq_ok.1 h
  have hwindow := Except.mapError_eq_ok.1 hwindow
  have hfits : window.Fits current.shape := Selection.fits_of_resolve hwindow
  obtain ⟨spread, hspread, rfl⟩ :=
    (Tensor.assign_eq_ok_iff hfits).1 (Except.mapError_eq_ok.1 hstored)
  obtain ⟨hspreads, rfl⟩ := NDArray.of_spread_eq_ok hspread
  cases h
  exact ⟨current, window, source, lookup_eq_ok.1 hcurrent, hwindow, hsource, hspreads, rfl⟩

/-- Evaluating a variable loads it. -/
theorem evalNode_state (hstate : n.isState = true)
    (h : p.evalNode states values n = .ok values') :
    values'.get? n.id = states.get? n.id := by
  cases hkind : n.kind with
  | state initial =>
    simp only [evalNode, hkind] at h
    obtain ⟨v, hv, h⟩ := Except.bind_eq_ok.1 h
    cases h
    rw [Store.get?_insert_self, lookup_eq_ok.1 hv]
  | _ => simp [Node.isState, hkind] at hstate

/-- A node stores one value at most, in the array that its value goes to. -/
theorem exists_insert_of_evalNode (h : p.evalNode states values n = .ok values') :
    values' = values ∨ ∃ v, values' = values.insert n.dest v := by
  cases hkind : n.kind with
  | placeholder =>
    simp only [evalNode, hkind] at h
    cases h
    exact .inl rfl
  | state initial =>
    simp only [evalNode, hkind] at h
    obtain ⟨v, -, h⟩ := Except.bind_eq_ok.1 h
    cases h
    exact .inr ⟨v, by simp [Node.dest, Node.target?, hkind]⟩
  | constant value =>
    simp only [evalNode, hkind] at h
    cases h
    exact .inr ⟨value, by simp [Node.dest, Node.target?, hkind]⟩
  | apply op inputs =>
    simp only [evalNode, hkind] at h
    obtain ⟨_, -, h⟩ := Except.bind_eq_ok.1 h
    obtain ⟨v, -, h⟩ := Except.bind_eq_ok.1 h
    cases h
    exact .inr ⟨v, by simp [Node.dest, Node.target?, hkind]⟩
  | assign target selection value =>
    obtain ⟨_, _, _, -, -, -, -, rfl⟩ := evalNode_assign hkind h
    have hdest : n.dest = target := by simp [Node.dest, Node.target?, hkind]
    exact .inr ⟨_, by rw [hdest]⟩

end

theorem storage_eq_dest (h : p.node? id = some n) : p.storage id = n.dest := by
  rw [storage, h, Node.dest, id_of_node? h]
  rfl

/-- A step stores into one array. -/
theorem get?_of_evalStep [FloatProduct] (h : p.evalStep states values step = .ok values')
    (hid : id ≠ step.dest p) : values'.get? id = values.get? id := by
  cases step with
  | single i =>
    obtain ⟨n, hn, heval⟩ := evalStep_single_eq_ok.1 h
    rcases exists_insert_of_evalNode heval with rfl | ⟨v, rfl⟩
    · rfl
    · exact Store.get?_insert_of_ne _ _ (storage_eq_dest hn ▸ hid)
  | fused root kernel =>
    obtain ⟨v, -, h⟩ := Except.bind_eq_ok.1 h
    cases h
    exact Store.get?_insert_of_ne _ _ hid

theorem get?_of_evalSteps [FloatProduct] (h : steps.foldlM (p.evalStep states) values = .ok values')
    (hid : ∀ step ∈ steps, id ≠ step.dest p) : values'.get? id = values.get? id := by
  induction steps generalizing values with
  | nil =>
    cases h
    rfl
  | cons step steps ih =>
    obtain ⟨hstep, hrest⟩ := List.forall_mem_cons.1 hid
    rw [List.foldlM_cons] at h
    obtain ⟨next, hnext, h⟩ := Except.bind_eq_ok.1 h
    rw [ih h hrest, get?_of_evalStep hnext hstep]

/-! ## Elements that assignments spare -/

/-- Whether no assignment of the program into an array covers a position. -/
def Spares (p : Program) (root : NodeId) (ix : List Nat) : Prop :=
  ∀ a ∈ p.nodes, ∀ r, a.write? = some (root, r) → r.contains ix = false

section
variable [FloatProduct] {d : DType} {old : NDArray d.Elem}

/-- A step that is not the one of an array itself leaves its spared elements alone. -/
theorem exists_eqOn_of_evalStep (h : p.evalStep states values step = .ok values')
    (hold : values.get? id = some ⟨d, old⟩) (hroot : step.root ≠ id)
    (hshape : ∀ a ∈ p.nodes, a.target? = some id → a.type.shape = old.shape) :
    ∃ new : NDArray d.Elem, values'.get? id = some ⟨d, new⟩ ∧ old.EqOn (p.Spares id) new := by
  by_cases hid : id = step.dest p
  · -- the step of another node stores here, so it is an assignment
    cases step with
    | fused root kernel => exact absurd hid.symm hroot
    | single i =>
      obtain ⟨a, ha, heval⟩ := evalStep_single_eq_ok.1 h
      have hmem := mem_of_node? ha
      cases hkind : a.kind with
      | assign target selection value =>
        have htarget : a.target? = some target := by simp [Node.target?, hkind]
        obtain rfl : id = target := by
          rw [hid, Step.dest, storage, ha, Option.bind_some, htarget, Option.getD_some]
        obtain ⟨_, window, source, hcurrent, hwindow, -, -, rfl⟩ := evalNode_assign hkind heval
        rw [hold] at hcurrent
        cases hcurrent
        refine ⟨_, Store.get?_insert_self _ _ _, .assign fun ix hspared => ?_⟩
        refine hspared a hmem window.region ?_
        have hwindow : selection.resolve old.shape = .ok window := hwindow
        simp [Node.write?, hkind, hshape a hmem htarget, hwindow, Except.toOption]
      | _ =>
        refine absurd ?_ hroot
        rw [hid, Step.dest, storage, ha]
        simp [Node.target?, hkind, Step.root]
  · exact ⟨old, (get?_of_evalStep h hid).trans hold, .refl _ old⟩

/-- Steps that are not the one of an array itself leave its spared elements alone. -/
theorem exists_eqOn_of_evalSteps (h : steps.foldlM (p.evalStep states) values = .ok values')
    (hold : values.get? id = some ⟨d, old⟩) (hroot : ∀ step ∈ steps, step.root ≠ id)
    (hshape : ∀ a ∈ p.nodes, a.target? = some id → a.type.shape = old.shape) :
    ∃ new : NDArray d.Elem, values'.get? id = some ⟨d, new⟩ ∧ old.EqOn (p.Spares id) new := by
  induction steps generalizing values old with
  | nil =>
    cases h
    exact ⟨old, hold, .refl _ old⟩
  | cons step steps ih =>
    obtain ⟨hstep, hrest⟩ := List.forall_mem_cons.1 hroot
    rw [List.foldlM_cons] at h
    obtain ⟨next, hnext, h⟩ := Except.bind_eq_ok.1 h
    obtain ⟨mid, hmid, heq⟩ := exists_eqOn_of_evalStep hnext hold hstep hshape
    obtain ⟨new, hnew, heq'⟩ := ih h hmid hrest fun a ha htarget =>
      (hshape a ha htarget).trans heq.shape_eq.symm
    exact ⟨new, hnew, heq.trans heq'⟩

end

/-! ## The effect of a call -/

/-- A run on arguments comes to a step with these values. -/
def ComesTo [FloatProduct] (p : Program) (states : Store) (args : List Tensor) (step : Step)
    (values : Store) : Prop :=
  ∃ bound before after, p.bindArguments args = .ok bound ∧
    p.plan.steps = before ++ step :: after ∧
    before.foldlM (p.evalStep states) bound = .ok values

/-- What a call on arguments does to a variable. -/
structure CallEffect [FloatProduct] (p : Program) (states : Store) (args : List Tensor) (n : Node)
    (old new : NDArray n.type.dtype.Elem) : Prop where
  shape_eq : old.shape = n.type.shape ∧ new.shape = n.type.shape
  /-- A variable that no node assigns into stays as it is. -/
  unassigned : (∀ a ∈ p.nodes, a.target? ≠ some n.id) → new = old
  /-- An element in none of the assigned regions stays as it is. -/
  spared : ∀ ix, n.type.shape.InBounds ix → p.Spares n.id ix → new.get ix = old.get ix
  /-- The region of the last assignment holds the value assigned, converted to the element
  type and repeated over the region, as it was when the run came to that assignment. -/
  last : ∀ a ∈ p.nodes, a.target? = some n.id →
    (∀ b ∈ p.nodes, b.target? = some n.id → b.id.index ≤ a.id.index) →
    ∃ (selection : Selection) (value : NodeId) (window : Window) (values : Store)
      (source : Tensor), a.kind = .assign n.id selection value ∧
      selection.resolve n.type.shape = .ok window ∧
      p.ComesTo states args (.single a.id) values ∧ p.read values value = .ok source ∧
      source.shape.spreadsTo window.shape = true ∧
      ∀ ix, n.type.shape.InBounds ix → window.region.contains ix = true → new.get ix =
        ((source.as n.type.dtype).broadcastTo window.shape).get (window.relative ix)

end Program

theorem Tensor.exists_array {v : Tensor} {d : DType} (h : v.dtype = d) :
    ∃ x : NDArray d.Elem, v = ⟨d, x⟩ := by
  subst h
  exact ⟨v.array, rfl⟩

namespace Trace
variable {t : Trace} {s : Schedule} {p : Program} {options : CompileOptions} {m m' : Machine}
  {n a : Node} {id : NodeId} {step : Step} {pre post : List Step} {states bound values : Store}
  {args results : List Tensor} {outputs : List NodeId}

namespace Compiled
variable (hp : t.Compiled s options p) (ht : t.Reachable) (hs : t.Scheduled s)
include hp hs

theorem before_of_later (h : p.plan.steps = pre ++ step :: post) :
    ∀ other ∈ post, step.root.before other.root = true := by
  have hascending := ascending_roots_planOf hs options.fuse
  rw [← hp.plan_eq, Plan.roots, h, List.map_append, List.map_cons] at hascending
  intro other hother
  exact (List.pairwise_cons.1 (List.pairwise_append.1 hascending).2.1).1 other.root
    (List.mem_map_of_mem hother)

include ht

/-- The step of a node that is no elementwise operation splits a run. -/
theorem exists_split [FloatProduct] (hn : n ∈ p.nodes) (h : n.isElementwise = false)
    (hrun : p.plan.steps.foldlM (p.evalStep states) bound = .ok values) :
    ∃ pre post before after, p.plan.steps = pre ++ .single n.id :: post ∧
      pre.foldlM (p.evalStep states) bound = .ok before ∧
      p.evalNode states before n = .ok after ∧
      post.foldlM (p.evalStep states) after = .ok values := by
  obtain ⟨hmem, hid⟩ := (hp.mem_nodes ht.wellFormed).1 hn
  have hnode := ht.wellFormed.node?_id hmem
  have helementwise : t.isElementwise n.id = false := by simp [isElementwise, hnode, h]
  have hstep := single_mem_planOf hs hid helementwise options.fuse
  rw [← hp.plan_eq] at hstep
  obtain ⟨pre, post, hsplit⟩ := List.append_of_mem hstep
  rw [hsplit] at hrun
  obtain ⟨before, after, hpre, heval, hpost⟩ := Except.foldlM_append_cons_eq_ok.1 hrun
  obtain ⟨n', hn', heval⟩ := Program.evalStep_single_eq_ok.1 heval
  rw [hp.node?_eq ht.wellFormed hs hid, hnode] at hn'
  cases hn'
  exact ⟨pre, post, before, after, hsplit, hpre, heval, hpost⟩

/-- Once a variable is loaded, a run changes assigned elements of it only. -/
theorem exists_eqOn [FloatProduct] (hn : n ∈ p.nodes) (hstate : n.isState = true)
    {old : NDArray n.type.dtype.Elem} (hold : states.get? n.id = some ⟨n.type.dtype, old⟩)
    (hshape : old.shape = n.type.shape)
    (hrun : p.plan.steps.foldlM (p.evalStep states) bound = .ok values) :
    ∃ new : NDArray n.type.dtype.Elem,
      values.get? n.id = some ⟨n.type.dtype, new⟩ ∧ old.EqOn (p.Spares n.id) new := by
  have hwf := ht.wellFormed
  have helementwise : n.isElementwise = false := by
    cases hkind : n.kind <;> simp_all [Node.isState, Node.isElementwise]
  obtain ⟨pre, post, before, after, hsplit, -, heval, hpost⟩ :=
    hp.exists_split ht hs hn helementwise hrun
  have hloaded := (Program.evalNode_state hstate heval).trans hold
  refine Program.exists_eqOn_of_evalSteps hpost hloaded (fun step hstep he => ?_)
    fun a ha htarget => ?_
  · have hbefore := hp.before_of_later hs hsplit step hstep
    rw [he] at hbefore
    simp [Step.root, NodeId.before_irrefl] at hbefore
  · obtain ⟨y, hy, -, htype⟩ := isStorage_of_target hwf (hp.mem_trace hwf a ha) htarget
    rw [hwf.node?_id (hp.mem_trace hwf n hn)] at hy
    cases hy
    rw [← htype, hshape]

/-- No step behind the last assignment into an array stores into it. -/
theorem dest_ne_of_later (ha : a ∈ p.nodes) (htarget : a.target? = some id)
    (hlast : ∀ b ∈ p.nodes, b.target? = some id → b.id.index ≤ a.id.index)
    (h : p.plan.steps = pre ++ .single a.id :: post) : ∀ step ∈ post, id ≠ step.dest p := by
  have hwf := ht.wellFormed
  have hmem := hp.mem_trace hwf a ha
  obtain ⟨hknown, hlt⟩ := hwf.input_known hmem id (input_of_target htarget)
  -- the array is older than the assignment
  have hnot : ¬ a.id.before id = true := fun hbefore =>
    Nat.lt_asymm hlt ((before_iff_index_lt (hwf.contains_id hmem) hknown).1 hbefore)
  intro step hstep he
  have hbefore : a.id.before step.root = true := hp.before_of_later hs h step hstep
  cases step with
  | fused root kernel => exact hnot (he ▸ hbefore)
  | single i =>
    cases hb : p.node? i with
    | none =>
      have hi : id = i := by simpa [Step.dest, Program.storage, hb] using he
      exact hnot (hi ▸ hbefore)
    | some b =>
      have hbmem := Program.mem_of_node? hb
      obtain rfl := Program.id_of_node? hb
      cases hbtarget : b.target? with
      | none =>
        have hi : id = b.id := by simpa [Step.dest, Program.storage, hb, hbtarget] using he
        exact hnot (hi ▸ hbefore)
      | some root =>
        obtain rfl : id = root := by simpa [Step.dest, Program.storage, hb, hbtarget] using he
        have hle := hlast b hbmem hbtarget
        have hlt := (before_iff_index_lt (hwf.contains_id hmem)
          (hwf.contains_id (hp.mem_trace hwf b hbmem))).1 hbefore
        omega

/-- What the last assignment into an array stores is there at the end. -/
theorem exists_last [FloatProduct] (ha : a ∈ p.nodes) (htarget : a.target? = some id)
    (hlast : ∀ b ∈ p.nodes, b.target? = some id → b.id.index ≤ a.id.index)
    (hbound : p.bindArguments args = .ok bound)
    (hrun : p.plan.steps.foldlM (p.evalStep states) bound = .ok values) :
    ∃ (selection : Selection) (value : NodeId) (window : Window) (before : Store)
      (source current : Tensor), a.kind = .assign id selection value ∧
      selection.resolve current.shape = .ok window ∧
      p.ComesTo states args (.single a.id) before ∧ p.read before value = .ok source ∧
      source.shape.spreadsTo window.shape = true ∧
      values.get? id = some ⟨current.dtype, current.array.assign window
        ((source.as current.dtype).broadcastTo window.shape)⟩ := by
  have hwf := ht.wellFormed
  cases hkind : a.kind with
  | assign target selection value =>
    obtain rfl : target = id := by simpa [Node.target?, hkind] using htarget
    have helementwise : a.isElementwise = false := by simp [Node.isElementwise, hkind]
    obtain ⟨pre, post, before, after, hsplit, hpre, heval, hpost⟩ :=
      hp.exists_split ht hs ha helementwise hrun
    obtain ⟨current, window, source, -, hwindow, hsource, hspreads, rfl⟩ :=
      Program.evalNode_assign hkind heval
    refine ⟨selection, value, window, before, source, current, rfl, hwindow,
      ⟨bound, pre, post, hbound, hsplit, hpre⟩, hsource, hspreads, ?_⟩
    rw [Program.get?_of_evalSteps hpost (hp.dest_ne_of_later ht hs ha htarget hlast hsplit),
      Store.get?_insert_self]
  | _ => simp [Node.target?, hkind] at htarget

/-- What a run of the steps does to a variable. -/
theorem callEffect [FloatProduct] (hn : n ∈ p.nodes) (hstate : n.isState = true)
    {old : NDArray n.type.dtype.Elem} (hold : states.get? n.id = some ⟨n.type.dtype, old⟩)
    (hshape : old.shape = n.type.shape) (hbound : p.bindArguments args = .ok bound)
    (hrun : p.plan.steps.foldlM (p.evalStep states) bound = .ok values) :
    ∃ new : NDArray n.type.dtype.Elem, values.get? n.id = some ⟨n.type.dtype, new⟩ ∧
      p.CallEffect states args n old new := by
  obtain ⟨new, hnew, heq⟩ := hp.exists_eqOn ht hs hn hstate hold hshape hrun
  have hnewshape := heq.shape_eq.trans hshape
  refine ⟨new, hnew, ⟨hshape, hnewshape⟩, fun hnone => ?_, fun ix hix => ?_,
    fun a ha htarget hlast => ?_⟩
  · refine heq.eq fun ix a ha r hwrite => ?_
    exact absurd (Node.write?_eq_some hwrite) (hnone a ha)
  · exact heq.get_eq ix (hshape ▸ hix)
  · obtain ⟨selection, value, window, before, source, ⟨d, current⟩, hkind, hwindow, hcomes,
      hsource, hspreads, hstored⟩ := hp.exists_last ht hs ha htarget hlast hbound hrun
    rw [hnew, Option.some.injEq] at hstored
    cases hstored
    have hcurrent : Tensor.shape ⟨n.type.dtype, current⟩ = n.type.shape := hnewshape
    rw [hcurrent] at hwindow
    refine ⟨selection, value, window, before, source, hkind, hwindow, hcomes, hsource, hspreads,
      fun ix hix hcontains => ?_⟩
    have hin : current.shape.InBounds ix := hnewshape.symm ▸ hix
    rw [NDArray.get_assign hin, Window.contains_eq, hcontains]
    rfl

end Compiled

/-- What a call that succeeds has run, and what it keeps in the variables. -/
theorem exists_run_of_call [FloatProduct] (h : m.call args = .ok (results, m')) :
    ∃ bound values, m.program.bindArguments args = .ok bound ∧
      m.program.plan.steps.foldlM (m.program.evalStep m.states) bound = .ok values ∧
      ∀ id, m'.states.get? id =
        (m.states.get? id).map fun old => (values.get? id).getD old := by
  obtain ⟨_, -, h⟩ := Except.bind_eq_ok.1 h
  obtain ⟨values, hrun, h⟩ := Except.bind_eq_ok.1 h
  obtain ⟨_, -, h⟩ := Except.bind_eq_ok.1 h
  cases h
  obtain ⟨bound, hbound, hsteps⟩ := Except.bind_eq_ok.1 hrun
  exact ⟨bound, values, hbound, hsteps, get?_map_entries m.states values⟩

/-- Whatever has been done with a machine of a compiled program, a call changes the variables
in the regions of the scheduled assignments only, and the region of the last one holds its
value. -/
theorem Reachable.call_frame [FloatProduct] (ht : t.Reachable)
    (hp : t.compile outputs options = .ok p) (uses : List Use)
    (hcall : (uses.foldl Machine.after p.start).call args = .ok (results, m'))
    (hn : n ∈ p.nodes) (hstate : n.isState = true) :
    ∃ old new : NDArray n.type.dtype.Elem,
      (uses.foldl Machine.after p.start).get n.name = .ok ⟨n.type.dtype, old⟩ ∧
      m'.get n.name = .ok ⟨n.type.dtype, new⟩ ∧
      p.CallEffect (uses.foldl Machine.after p.start).states args n old new := by
  obtain ⟨-, houtputs, -, hcompiled⟩ := ht.of_compile_eq_ok hp
  have hwf := ht.wellFormed
  have hs := ht.scheduled_needed houtputs
  have hsound := (Sound.start hwf hcompiled).uses ht hs uses
  have hsound' := hsound.call ht hs hcall
  have hprogram : (uses.foldl Machine.after p.start).program = p :=
    Machine.program_uses p.start uses
  have hprogram' : m'.program = p := (program_of_call hcall).trans hprogram
  generalize uses.foldl Machine.after p.start = m at *
  subst hprogram
  obtain ⟨v, hv⟩ := Option.ne_none_iff_exists'.1
    ((hsound.holds.ne_none_iff n.id).2 ⟨n, hn, rfl, hstate⟩)
  have htype := hsound.holds.type_eq n hn hstate v hv
  obtain ⟨old, rfl⟩ := Tensor.exists_array (congrArg TensorType.dtype htype)
  obtain ⟨bound, values, hbound, hrun, hafter⟩ := exists_run_of_call hcall
  obtain ⟨new, hnew, heffect⟩ := hcompiled.callEffect ht hs hn hstate hv
    (congrArg TensorType.shape htype) hbound hrun
  refine ⟨old, new, hcompiled.get_eq_ok hwf hn hstate hv,
    hsound'.compiled.get_eq_ok hwf (hprogram' ▸ hn) hstate ?_, heffect⟩
  rw [hafter, hv, hnew]
  rfl

/-- A variable of three elements. The first two are overwritten by an expression over the
input, and then the second one by itself. -/
def layered : Trace :=
  [Call.placeholder "x" [2] .i64, .state "level" (.vector .i64 [7, 8, 9]),
    .apply (.unary .neg) [⟨0, 0⟩], .apply (.unary .neg) [⟨0, 2⟩],
    .assign ⟨0, 1⟩ [.range 0 2 1] ⟨0, 3⟩, .apply (.slice [.range 1 2 1]) [⟨0, 4⟩],
    .assign ⟨0, 1⟩ [.range 1 2 1] ⟨0, 5⟩].foldl Trace.after { id := 0 }

/-- The third element stays as it was set. -/
theorem call_frame_layered :
    let n : Node := ⟨⟨0, 1⟩, "level", ⟨[3], .i64⟩, .state (.vector .i64 [7, 8, 9])⟩
    let uses := [Use.set "level" (.vector .i64 [1, 2, 3])]
    ∃ p results m', ∃ old new : NDArray DType.i64.Elem,
      layered.compile [⟨0, 6⟩] { fuse := true } = .ok p ∧
      (uses.foldl Machine.after p.start).call [.vector .i64 [4, 5]] = .ok (results, m') ∧
      (uses.foldl Machine.after p.start).get "level" = .ok ⟨.i64, old⟩ ∧
      m'.get "level" = .ok ⟨.i64, new⟩ ∧ new.get [2] = old.get [2] ∧
      p.CallEffect (uses.foldl Machine.after p.start).states [.vector .i64 [4, 5]] n old new := by
  intro n uses
  have ht : layered.Reachable := .calls (.start 0 {}) _
  have houtputs : ∀ o ∈ [(⟨0, 6⟩ : NodeId)], layered.contains o = true := by decide
  have hs := ht.scheduled_needed houtputs
  have hnode : layered.node? n.id = some n := rfl
  have hneeded : n.id ∈ layered.needed [⟨0, 6⟩] := by decide
  obtain ⟨p, hp, hcompiled⟩ := ht.compile_eq_ok houtputs { fuse := true } rfl (by decide)
  have hn : n ∈ p.nodes := (hcompiled.mem_nodes ht.wellFormed).2 ⟨mem_of_node? hnode, hneeded⟩
  have hsound := (Sound.start ht.wellFormed hcompiled).uses ht hs uses
  have hargs : (uses.foldl Machine.after p.start).signature.checkArguments
      [.vector .i64 [4, 5]] = .ok () :=
    (checkArguments_eq_ok hsound.compiled.parameters_eq).2 (.cons rfl .nil)
  obtain ⟨results, m', hcall, -⟩ := hsound.exists_call_eq_ok ht hs ⟨rfl, by decide⟩ hargs
  obtain ⟨old, new, hold, hnew, heffect⟩ := ht.call_frame hp uses hcall hn rfl
  have hspared : p.Spares n.id [2] := fun a ha r hwrite => by
    have hall : ∀ a ∈ layered.nodes, a.write?.all (fun w => !w.2.contains [2]) = true := by
      decide
    simpa [hwrite] using hall a (hcompiled.mem_trace ht.wellFormed a ha)
  exact ⟨p, results, m', old, new, hp, hcall, hold, hnew,
    heffect.spared [2] ⟨by decide, trivial⟩ hspared, heffect⟩

end Trace
end ArrayTrace
