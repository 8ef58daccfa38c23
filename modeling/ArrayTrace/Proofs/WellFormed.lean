import ArrayTrace.Proofs.Construction

/-!
# Well-formed traces

Every trace that calls can build numbers its nodes in creation order, refers backwards
only, names its nodes apart, and holds nodes that the builder has checked. A node keeps
what it reads, and what has been checked of it, when further nodes are recorded.
-/

namespace ArrayTrace

theorem Node.target?_of_isStorage {n : Node} (h : n.isStorage = true) : n.target? = none := by
  obtain ⟨_, _, _, kind⟩ := n
  cases kind <;> first | rfl | cases h

namespace Trace
variable {t t' : Trace} {n x : Node} {id root m : NodeId}

/-- What holds of the nodes of every reachable trace. -/
structure WellFormed (t : Trace) : Prop where
  id_of_getElem? : ∀ {i : Nat} {n : Node}, t.nodes[i]? = some n → n.id = ⟨t.id, i⟩
  admits : ∀ {n : Node}, n ∈ t.nodes → t.Admits n
  input_known : ∀ {n : Node}, n ∈ t.nodes →
    ∀ x ∈ n.inputs, t.contains x ∧ x.index < n.id.index
  names_nodup : (t.nodes.map Node.name).Nodup

/-! ## Nodes by id -/

theorem WellFormed.node?_id (h : t.WellFormed) (hn : n ∈ t.nodes) : t.node? n.id = some n := by
  obtain ⟨i, hi⟩ := List.mem_iff_getElem?.1 hn
  simp [node?_eq, h.id_of_getElem? hi, hi]

theorem WellFormed.id_of_node? (h : t.WellFormed) (hn : t.node? id = some n) : n.id = id := by
  rw [node?_eq] at hn
  split at hn
  · rename_i hc
    rw [h.id_of_getElem? hn, ← hc]
  · cases hn

theorem WellFormed.contains_id (h : t.WellFormed) (hn : n ∈ t.nodes) : t.contains n.id :=
  contains_of_node? (h.node?_id hn)

theorem exists_node_of_contains (h : t.contains id) : ∃ n, t.node? id = some n :=
  Option.isSome_iff_exists.1 h

theorem WellFormed.eq_of_id_eq (h : t.WellFormed) (hn : n ∈ t.nodes) (hx : x ∈ t.nodes)
    (hid : n.id = x.id) : n = x := by
  have := h.node?_id hn
  rw [hid, h.node?_id hx] at this
  exact (Option.some.inj this).symm

/-- Ids of one trace are told apart by their numbers. -/
theorem eq_of_index_eq (h : t.contains id) (h' : t.contains m) (hi : id.index = m.index) :
    id = m := by
  have hc := (contains_iff.1 h).1
  have hc' := (contains_iff.1 h').1
  cases id
  cases m
  simp_all

theorem WellFormed.eq_of_index (h : t.WellFormed) (hn : n ∈ t.nodes) (hx : x ∈ t.nodes)
    (hi : n.id.index = x.id.index) : n = x :=
  h.eq_of_id_eq hn hx (eq_of_index_eq (h.contains_id hn) (h.contains_id hx) hi)

theorem inputs_of_node? (h : t.node? id = some n) : t.inputs id = n.inputs := by
  simp [inputs, h]

theorem WellFormed.input_lt (h : t.WellFormed) {x : NodeId} (hx : x ∈ t.inputs id) :
    t.contains x ∧ x.index < id.index := by
  cases hn : t.node? id with
  | none => simp [inputs, hn] at hx
  | some n =>
    rw [inputs_of_node? hn] at hx
    have := h.input_known (mem_of_node? hn) x hx
    rwa [h.id_of_node? hn] at this

theorem storage?_eq_some :
    t.storage? id = some root ↔
      ∃ n, t.node? id = some n ∧ (n.isStorage ∧ root = id ∨ n.target? = some root) := by
  rw [storage?, Option.bind_eq_some_iff]
  refine exists_congr fun n => and_congr_right fun _ => ?_
  by_cases hs : n.isStorage
  · simp [hs, Node.target?_of_isStorage hs, eq_comm]
  · simp [hs]

/-! ## Recording a node keeps what was there -/

namespace Adds

theorem id_new (h : t.Adds t' n) : n.id = ⟨t.id, t.size⟩ := h.nextId_eq

theorem mem_nodes (h : t.Adds t' n) : x ∈ t'.nodes ↔ x ∈ t.nodes ∨ x = n := by
  simp [h.nodes_eq]

theorem node?_of_contains (h : t.Adds t' n) (hid : t.contains id) :
    t'.node? id = t.node? id := by
  obtain ⟨hc, hi⟩ := contains_iff.1 hid
  rw [← length_nodes] at hi
  simp [node?_eq, h.nodes_eq, h.id_eq, hc, List.getElem?_append_left hi]

theorem node?_eq_some (h : t.Adds t' n) (hx : t.node? id = some x) : t'.node? id = some x := by
  rw [h.node?_of_contains (contains_of_node? hx), hx]

theorem contains_mono (h : t.Adds t' n) (hid : t.contains id) : t'.contains id := by
  rw [contains, h.node?_of_contains hid]
  exact hid

theorem not_contains_new (h : t.Adds t' n) : ¬ t.contains n.id := by
  simp [contains_iff, h.id_new]

theorem storage?_of_contains (h : t.Adds t' n) (hid : t.contains id) :
    t'.storage? id = t.storage? id := by
  simp [storage?, h.node?_of_contains hid]

/-- What a node reads depends on its inputs alone. -/
theorem reads_eq (h : t.Adds t' n) (hx : ∀ i ∈ x.inputs, t.contains i) :
    t'.reads x = t.reads x := by
  have hreads : ∀ (region : Nat → Shape → Option Region) (inputs : List NodeId),
      (∀ i ∈ inputs, t.contains i) → t'.readsOf region inputs = t.readsOf region inputs := by
    intro region inputs hin
    refine List.filterMap_congr fun ⟨i, p⟩ hp => ?_
    have hi := hin i (List.mem_of_getElem? (List.mem_zipIdx_iff_getElem?.1 hp))
    simp only [h.storage?_of_contains hi, h.node?_of_contains hi]
  obtain ⟨_, _, _, kind⟩ := x
  cases kind with
  | apply op inputs => exact hreads _ _ hx
  | assign target selection value =>
    exact hreads (fun _ s => some (Region.full s)) [value]
      fun i hi => hx i (List.mem_cons_of_mem _ hi)
  | _ => rfl

theorem admits_mono (h : t.Adds t' n) (hx : t.Admits x) : t'.Admits x := by
  obtain ⟨_, _, _, kind⟩ := x
  cases kind with
  | apply op inputs =>
    obtain ⟨operands, hops, hinfer⟩ := hx
    refine ⟨operands, hops.imp fun _ _ => h.node?_eq_some, ?_⟩
    rw [h.config_eq]
    exact hinfer
  | assign target selection value =>
    obtain ⟨x, v, w, hx, hs, ht, hv, hw⟩ := hx
    exact ⟨x, v, w, h.node?_eq_some hx, hs, ht, h.node?_eq_some hv, hw⟩
  | placeholder => exact trivial
  | state initial => exact hx
  | constant value => exact hx

end Adds

/-- The inputs of a checked node are known. -/
theorem Admits.contains_input (h : t.Admits n) : ∀ i ∈ n.inputs, t.contains i := by
  obtain ⟨_, _, _, kind⟩ := n
  intro i hi
  cases kind with
  | apply op inputs =>
    obtain ⟨operands, hops, -⟩ := h
    obtain ⟨x, -, hx⟩ := exists_of_forall₂ hops hi
    exact contains_of_node? hx
  | assign target selection value =>
    obtain ⟨x, v, w, hx, -, -, hv, -⟩ := h
    simp only [Node.inputs, List.mem_cons, List.not_mem_nil, or_false] at hi
    rcases hi with rfl | rfl
    · exact contains_of_node? hx
    · exact contains_of_node? hv
  | _ => simp [Node.inputs] at hi

/-! ## Reachable traces -/

theorem WellFormed.targetsKnown (h : t.WellFormed) : t.TargetsKnown := by
  intro n hn x hx
  refine (h.input_known hn x ?_).1
  obtain ⟨_, _, _, kind⟩ := n
  cases kind <;> simp_all [Node.target?, Node.inputs]

theorem WellFormed.adds (ht : t.WellFormed) (h : t.Adds t' n) : t'.WellFormed where
  id_of_getElem? := by
    intro i x hx
    rw [h.nodes_eq] at hx
    rw [h.id_eq]
    rcases Nat.lt_trichotomy i t.nodes.length with hi | hi | hi
    · exact ht.id_of_getElem? (by rwa [List.getElem?_append_left hi] at hx)
    · subst hi
      obtain rfl : n = x := by simpa using hx
      simpa using h.id_new
    · rw [List.getElem?_append_right (by omega),
        List.getElem?_eq_none (by rw [List.length_singleton]; omega)] at hx
      cases hx
  admits := by
    intro x hx
    rcases h.mem_nodes.1 hx with hx | rfl
    · exact h.admits_mono (ht.admits hx)
    · exact h.admits_mono h.admits
  input_known := by
    intro x hx i hi
    rcases h.mem_nodes.1 hx with hx | rfl
    · have := ht.input_known hx i hi
      exact ⟨h.contains_mono this.1, this.2⟩
    · have hc := h.admits.contains_input i hi
      refine ⟨h.contains_mono hc, ?_⟩
      rw [h.id_new]
      exact (contains_iff.1 hc).2
  names_nodup := by
    rw [h.nodes_eq, List.map_append, List.nodup_append]
    refine ⟨ht.names_nodup, by simp, ?_⟩
    have hfresh := h.fresh
    simp only [isTaken, List.any_eq_false, decide_eq_true_eq] at hfresh
    intro name hname name' hname'
    obtain ⟨x, hx, rfl⟩ := List.mem_map.1 hname
    obtain rfl : name' = n.name := by simpa using hname'
    exact hfresh x hx

/-- Facts about every reachable trace by induction on its nodes. -/
theorem Reachable.induction {motive : Trace → Prop}
    (start : ∀ id config, motive { id, config })
    (adds : ∀ {t t' n}, t.WellFormed → motive t → t.Adds t' n → motive t')
    (marks : ∀ {t} outputs, motive t → motive { t with outputs := outputs })
    (h : t.Reachable) : t.WellFormed ∧ motive t := by
  induction h with
  | start id config => exact ⟨⟨by simp [nodes], by simp [nodes], by simp [nodes], by simp [nodes]⟩,
      start id config⟩
  | @call t _ c ih =>
    rw [after]
    split
    · rename_i t' hperform
      rcases perform_cases ih.1.targetsKnown hperform with ⟨n, hn⟩ | ⟨outputs, -, rfl⟩
      · exact ⟨ih.1.adds hn, adds ih.1 ih.2 hn⟩
      · exact ⟨⟨ih.1.1, ih.1.2, ih.1.3, ih.1.4⟩, marks outputs ih.2⟩
    · exact ih

theorem Reachable.wellFormed (h : t.Reachable) : t.WellFormed :=
  (h.induction (motive := fun _ => True) (fun _ _ => trivial) (fun _ _ _ => trivial)
    fun _ _ => trivial).1

end Trace
end ArrayTrace
