import ArrayTrace.Proofs.Calls
import ArrayTrace.Proofs.Recording

/-!
# The representation of traces

Seven calls change a trace under construction: its nodes, the names they take, the
counters of generated names, what nodes wait for, the access logs and the marked outputs.
`Represented` is what every sequence of them leaves true, refused calls included, and
`represented_recordAll` adds what does not depend on the sequence: nodes and what they wait
for never change once recorded, and a refused call might as well not have been made.
-/

namespace ArrayTrace

/-! ## Generated names are identifiers -/

theorem isIdentifier_append {s r : String} (hs : isIdentifier s)
    (hr : ∀ c ∈ r.toList, (c.isAlphanum || c = '_') = true) : isIdentifier (s ++ r) := by
  simp only [isIdentifier, String.toList_append] at hs ⊢
  cases hlist : s.toList with
  | nil => simp [hlist] at hs
  | cons c cs =>
    simp only [hlist, List.cons_append, List.all_append, Bool.and_eq_true, List.all_eq_true]
      at hs ⊢
    exact ⟨hs.1, hs.2, hr⟩

theorem isIdentifier_numbered {stem : String} (h : isIdentifier stem) (k : Nat) :
    isIdentifier (Trace.numbered stem k) := by
  refine isIdentifier_append (isIdentifier_append h (by simp)) fun c hc => ?_
  simp [Char.isAlphanum, Trace.isDigit_of_mem_repr hc]

theorem Op.isIdentifier_stem (op : Op) : isIdentifier op.stem := by
  cases op with
  | binary op => cases op <;> decide
  | unary op => cases op <;> decide
  | _ => simp only [Op.stem]; decide

namespace Trace
variable {t t' : Trace} {n x : Node} {id : NodeId} {c : Call}

/-! ## What a call adds -/

/-- What `t'` has beyond `t` are nodes of identifiers and marks of nodes of `t`. -/
structure Grows (t t' : Trace) : Prop where
  named : ∀ n ∈ t'.nodes, n ∈ t.nodes ∨ isIdentifier n.name
  marked : ∀ id ∈ t'.outputs, id ∈ t.outputs ∨ t.contains id

theorem isIdentifier_of_checkName {name : String} (h : t.checkName name = .ok ()) :
    isIdentifier name := by
  by_contra hname
  rw [checkName, if_pos (by simpa using hname)] at h
  cases h

theorem grows_push {u : Trace} {name : String} {type : TensorType} {kind : NodeKind}
    {ws : List NodeId} (hu : t.Relogged u) (houtputs : u.outputs = t.outputs)
    (hname : isIdentifier name) : t.Grows (u.push name type kind ws).2 where
  named := by
    intro n hn
    have hnodes : Trace.nodes (u.push name type kind ws).2 =
        t.nodes ++ [⟨u.nextId, name, type, kind⟩] := by
      rw [← hu.nodes_eq]
      simp [push, nodes]
    rw [hnodes, List.mem_append, List.mem_singleton] at hn
    rcases hn with hn | rfl
    · exact .inl hn
    · exact .inr hname
  marked := fun id hid => .inl (houtputs ▸ hid)

theorem outputs_recordReads (reader : NodeId) (rs : List (NodeId × Region)) :
    (t.recordReads reader rs).2.outputs = t.outputs := by
  induction rs generalizing t with
  | nil => rfl
  | cons r rs ih => exact ih

/-- A node of a name that the caller gives. -/
theorem grows_named {name : String} {type : TensorType} {kind : NodeKind} {r : NodeId × Trace}
    (h : (do t.checkName name; return t.push name type kind []) = .ok r) : t.Grows r.2 := by
  obtain ⟨_, hname, h⟩ := Except.bind_eq_ok.1 h
  cases h
  exact grows_push (.refl t) rfl (isIdentifier_of_checkName hname)

/-- A call that succeeds gives its node an identifier and marks nodes of the trace. -/
theorem grows_perform (h : t.perform c = .ok t') : t.Grows t' := by
  cases c with
  | placeholder name shape dtype =>
    obtain ⟨r, hr, rfl⟩ := Except.map_eq_ok.1 h
    exact grows_named hr
  | state name initial =>
    obtain ⟨r, hr, rfl⟩ := Except.map_eq_ok.1 h
    exact grows_named hr
  | constant name value =>
    obtain ⟨r, hr, rfl⟩ := Except.map_eq_ok.1 h
    exact grows_named hr
  | literal value =>
    cases h
    exact grows_push (relogged_setCounter _ _) rfl (isIdentifier_numbered (by decide) _)
  | apply op inputs =>
    obtain ⟨r, hr, rfl⟩ := Except.map_eq_ok.1 h
    obtain ⟨_, -, hr⟩ := Except.bind_eq_ok.1 hr
    obtain ⟨_, -, hr⟩ := Except.bind_eq_ok.1 hr
    cases hr
    exact grows_push ((relogged_recordReads _ _).trans (relogged_setCounter _ _))
      (outputs_recordReads _ _) (isIdentifier_numbered op.isIdentifier_stem _)
  | assign target selection value =>
    obtain ⟨r, hr, rfl⟩ := Except.map_eq_ok.1 h
    obtain ⟨_, -, hr⟩ := Except.bind_eq_ok.1 hr
    obtain ⟨_, -, hr⟩ := Except.bind_eq_ok.1 hr
    obtain ⟨-, hr⟩ := Except.unless_eq_ok.1 hr
    obtain ⟨_, -, hr⟩ := Except.bind_eq_ok.1 hr
    obtain ⟨-, hr⟩ := Except.unless_eq_ok.1 hr
    cases hr
    exact grows_push (((relogged_recordReads _ _).trans (relogged_setLog _ _)).trans
      (relogged_setCounter _ _)) (outputs_recordReads _ _) (isIdentifier_numbered (by decide) _)
  | markOutputs outputs =>
    obtain ⟨_, hknown, h⟩ := Except.bind_eq_ok.1 h
    cases h
    refine ⟨fun n hn => .inl hn, fun id hid => .inr ?_⟩
    obtain ⟨n, hn, -⟩ := Except.map_eq_ok.1 (Except.forM_eq_ok.1 hknown id hid)
    exact contains_of_node? (node_eq_ok.1 hn)

/-! ## What stays as it is -/

/-- `t'` has the nodes of `t`, with what they wait for. -/
structure Preserves (t t' : Trace) : Prop where
  id_eq : t'.id = t.id
  config_eq : t'.config = t.config
  node?_eq : ∀ {id}, t.contains id → t'.node? id = t.node? id
  control_eq : ∀ {id}, t.contains id → t'.control id = t.control id

theorem Preserves.refl (t : Trace) : t.Preserves t := ⟨rfl, rfl, fun _ => rfl, fun _ => rfl⟩

theorem Preserves.contains_mono (h : t.Preserves t') (hid : t.contains id) : t'.contains id := by
  rw [contains, h.node?_eq hid]
  exact hid

theorem Preserves.trans {u : Trace} (h : t.Preserves t') (h' : t'.Preserves u) :
    t.Preserves u where
  id_eq := h'.id_eq.trans h.id_eq
  config_eq := h'.config_eq.trans h.config_eq
  node?_eq := fun hid => (h'.node?_eq (h.contains_mono hid)).trans (h.node?_eq hid)
  control_eq := fun hid => (h'.control_eq (h.contains_mono hid)).trans (h.control_eq hid)

theorem Adds.preserves (h : t.Adds t' n) : t.Preserves t' where
  id_eq := h.id_eq
  config_eq := h.config_eq
  node?_eq := h.node?_of_contains
  control_eq := fun hid => h.control_of_ne fun he => h.not_contains_new (he ▸ hid)

theorem Reachable.preserves_after (ht : t.Reachable) (c : Call) : t.Preserves (t.after c) := by
  rw [after]
  split
  · rename_i t' hperform
    rcases perform_cases ht.wellFormed.targetsKnown hperform with ⟨n, hn⟩ | ⟨outputs, -, rfl⟩
    · exact hn.preserves
    · exact ⟨rfl, rfl, fun _ => rfl, fun _ => rfl⟩
  · exact .refl t

theorem Reachable.preserves_calls (ht : t.Reachable) (cs : List Call) :
    t.Preserves (cs.foldl after t) := by
  induction cs generalizing t with
  | nil => exact .refl t
  | cons c cs ih => exact (ht.preserves_after c).trans (ih (ht.call c))

/-! ## The invariant -/

/-- The trace that calls made one after the other leave behind. -/
def recordAll (t : Trace) (cs : List Call) : Trace :=
  cs.foldl (fun t c => (c.record.exec t).2) t

theorem recordAll_eq (cs : List Call) : t.recordAll cs = cs.foldl after t := by
  simp only [recordAll, exec_record]

/-- What holds of a trace whatever calls were made to build it. Nodes are numbered in
creation order and refer backwards only, each as the builder has checked it; names tell
them apart, and marked outputs exist. -/
structure Represented (t : Trace) : Prop extends WellFormed t where
  isIdentifier_name : ∀ {n : Node}, n ∈ t.nodes → isIdentifier n.name
  find?_eq_some : ∀ {name : String} {id : NodeId},
    t.find? name = some id ↔ ∃ n, t.node? id = some n ∧ n.name = name
  control_known : ∀ {n : Node}, n ∈ t.nodes →
    ∀ x ∈ t.control n.id, t.contains x ∧ x.index < n.id.index
  control_ascending : ∀ id, NodeId.Ascending (t.control id)
  outputs_known : ∀ id ∈ t.outputs, t.contains id

theorem WellFormed.find?_eq_some (ht : t.WellFormed) {name : String} :
    t.find? name = some id ↔ ∃ n, t.node? id = some n ∧ n.name = name := by
  rw [find?, Option.map_eq_some_iff]
  constructor
  · rintro ⟨n, hn, rfl⟩
    exact ⟨n, ht.node?_id (List.mem_of_find?_eq_some hn), by simpa using List.find?_some hn⟩
  · rintro ⟨n, hn, rfl⟩
    exact ⟨n, find?_name ht (fun _ hx => hx) (mem_of_node? hn), ht.id_of_node? hn⟩

theorem Reachable.control_ascending (ht : t.Reachable) (id : NodeId) :
    NodeId.Ascending (t.control id) := by
  refine (ht.induction (motive := fun t => ∀ id, NodeId.Ascending (t.control id))
    (fun _ _ _ => ?_) (fun {t t' n} _ ih hadds id => ?_) fun _ ih => ih).2 id
  · simp [control, entry?, NodeId.Ascending]
  · by_cases hid : id = n.id
    · subst hid
      rw [hadds.control_self]
      exact (NodeId.ascending_sorted _).filter _
    · rw [hadds.control_of_ne hid]
      exact ih id

theorem Reachable.named_and_marked (ht : t.Reachable) :
    (∀ n ∈ t.nodes, isIdentifier n.name) ∧ ∀ id ∈ t.outputs, t.contains id := by
  induction ht with
  | start id config => simp [nodes]
  | @call t ht c ih =>
    have hkept := ht.preserves_after c
    cases hperform : t.perform c with
    | error e =>
      rw [after, hperform]
      exact ih
    | ok t' =>
      have hgrows := grows_perform hperform
      rw [after, hperform] at hkept ⊢
      refine ⟨fun n hn => (hgrows.named n hn).elim (ih.1 n) fun h => h, fun id hid => ?_⟩
      exact hkept.contains_mono ((hgrows.marked id hid).elim (ih.2 id) fun h => h)

theorem Reachable.represented (ht : t.Reachable) : t.Represented where
  toWellFormed := ht.wellFormed
  isIdentifier_name := fun hn => ht.named_and_marked.1 _ hn
  find?_eq_some := ht.wellFormed.find?_eq_some
  control_known := fun _ _ hx => ht.predecessor_lt (List.mem_append_right _ hx)
  control_ascending := ht.control_ascending
  outputs_known := ht.named_and_marked.2

/-- Whatever calls have been made, the trace is represented well and further calls
preserve its nodes. A call that is refused leaves the trace as it was, so that all later
calls do what they do without it. -/
theorem represented_recordAll (id : Nat) (config : TraceConfig) (cs : List Call) :
    let t := recordAll { id, config } cs
    t.id = id ∧ t.config = config ∧ t.Represented ∧
      (∀ cs', t.Preserves (t.recordAll cs')) ∧
      ∀ c e, (c.record.exec t).1 = .error e →
        (c.record.exec t).2 = t ∧ ∀ cs', t.recordAll (c :: cs') = t.recordAll cs' := by
  intro t
  have hstart := Reachable.start id config
  have ht : t.Reachable := by
    simp only [t, recordAll_eq]
    exact hstart.calls cs
  have hkept : Preserves { id, config } t := by
    simp only [t, recordAll_eq]
    exact hstart.preserves_calls cs
  refine ⟨hkept.id_eq, hkept.config_eq, ht.represented, fun cs' => ?_, fun c e hrefused => ?_⟩
  · rw [recordAll_eq]
    exact ht.preserves_calls cs'
  · have hafter : (c.record.exec t).2 = t := by
      rw [exec_record] at hrefused ⊢
      cases hperform : t.perform c with
      | ok u => simp [hperform, Except.map] at hrefused
      | error e' => simp [after, hperform]
    refine ⟨hafter, fun cs' => ?_⟩
    simp only [recordAll, List.foldl_cons, hafter]

/-- An operation over a node of another trace is refused, and the next call is answered
as if nothing had been tried. -/
theorem represented_recordAll_foreign :
    let t := recordAll { id := 0 } [.placeholder "x" [2] .f64]
    let c := Call.apply (.unary .neg) [⟨1, 0⟩]
    (c.record.exec t).1 = .error (.unknownNode ⟨1, 0⟩) ∧
      t.recordAll [c, .apply (.unary .neg) [⟨0, 0⟩]] =
        t.recordAll [.apply (.unary .neg) [⟨0, 0⟩]] := by
  intro t c
  have hrefused : (c.record.exec t).1 = .error (.unknownNode ⟨1, 0⟩) := rfl
  obtain ⟨-, -, -, -, hatomic⟩ :=
    represented_recordAll 0 {} [.placeholder "x" [2] .f64]
  exact ⟨hrefused, (hatomic c _ hrefused).2 _⟩

end Trace
end ArrayTrace
