import ArrayTrace.Program
import ArrayTrace.Proofs.Confluence
import ArrayTrace.Proofs.Ordering

/-!
# Schedules

The schedule of known outputs lists the nodes that they need, over inputs and control
edges, in creation order; a raw schedule lists all nodes. The search has enough fuel to meet
all that is needed, and ordering never fails.
-/

namespace ArrayTrace

namespace Trace
variable {t : Trace} {s : Schedule} {id : NodeId} {outputs seen stack : List NodeId} {fuel : Nat}

/-- The nodes that a list of outputs needs, over inputs and control edges. -/
def Support (t : Trace) (outputs : List NodeId) : Set NodeId :=
  {id | ∃ o ∈ outputs, Relation.ReflTransGen (fun a b => a ∈ t.predecessors b) id o}

theorem mem_support_of_mem (h : id ∈ outputs) : id ∈ t.Support outputs :=
  ⟨id, h, .refl⟩

theorem predecessor_mem_support {p : NodeId} (h : id ∈ t.Support outputs)
    (hp : p ∈ t.predecessors id) : p ∈ t.Support outputs := by
  obtain ⟨o, ho, hid⟩ := h
  exact ⟨o, ho, .head hp hid⟩

theorem Reachable.closed_support (ht : t.Reachable) (h : ∀ o ∈ outputs, t.contains o = true) :
    t.Closed (t.Support outputs) where
  known := by
    rintro id ⟨o, ho, hid⟩
    rcases hid.cases_head with rfl | ⟨p, hp, -⟩
    · exact h id ho
    · exact (ht.predecessor_lt hp).1
  predecessor := predecessor_mem_support

/-! ## The search -/

theorem mem_collect_of_mem_seen (h : id ∈ seen) : id ∈ t.collect fuel seen stack := by
  induction fuel generalizing seen stack with
  | zero => exact h
  | succ fuel ih =>
    cases stack with
    | nil => exact h
    | cons x stack =>
      rw [collect]
      split
      · exact ih h
      · exact ih (NodeId.mem_insert.2 (.inr h))

theorem ascending_collect (h : NodeId.Ascending seen) :
    NodeId.Ascending (t.collect fuel seen stack) := by
  induction fuel generalizing seen stack with
  | zero => exact h
  | succ fuel ih =>
    cases stack with
    | nil => exact h
    | cons x stack =>
      rw [collect]
      split
      · exact ih h
      · exact ih h.insert

/-- The search meets nodes that are needed only. -/
theorem collect_sound (hseen : ∀ x ∈ seen, x ∈ t.Support outputs)
    (hstack : ∀ x ∈ stack, x ∈ t.Support outputs) (h : id ∈ t.collect fuel seen stack) :
    id ∈ t.Support outputs := by
  induction fuel generalizing seen stack with
  | zero => exact hseen id h
  | succ fuel ih =>
    cases stack with
    | nil => exact hseen id h
    | cons x stack =>
      obtain ⟨hx, hrest⟩ := List.forall_mem_cons.1 hstack
      rw [collect] at h
      split at h
      · exact ih hseen hrest h
      · refine ih (fun y hy => ?_) (fun y hy => ?_) h
        · rcases NodeId.mem_insert.1 hy with rfl | hy
          · exact hx
          · exact hseen y hy
        · rcases List.mem_append.1 hy with hy | hy
          · exact predecessor_mem_support hx (List.mem_filter.1 hy).1
          · exact hrest y hy

/-- Number of edges that lead to nodes not yet seen. -/
def unseenEdges (t : Trace) (seen : List NodeId) (nodes : List Node) : Nat :=
  (nodes.filter (·.id ∉ seen)).foldr (fun n count => (t.predecessors n.id).length + count) 0

theorem unseenEdges_cons (n : Node) (nodes : List Node) :
    t.unseenEdges seen (n :: nodes) =
      (if n.id ∈ seen then 0 else (t.predecessors n.id).length) + t.unseenEdges seen nodes := by
  by_cases h : n.id ∈ seen <;> simp [unseenEdges, h]

theorem unseenEdges_insert_le (id : NodeId) (seen : List NodeId) (nodes : List Node) :
    t.unseenEdges (NodeId.insert id seen) nodes ≤ t.unseenEdges seen nodes := by
  induction nodes with
  | nil => exact Nat.le_refl _
  | cons n nodes ih =>
    simp only [unseenEdges_cons, NodeId.mem_insert]
    by_cases hs : n.id ∈ seen
    · simpa [hs] using ih
    · by_cases hid : n.id = id
      · simp only [hid, true_or, if_true]
        omega
      · simp only [hid, hs, or_false, if_false]
        omega

/-- Seeing a new node takes its edges off the count. -/
theorem unseenEdges_insert_add_le {nodes : List Node} {n : Node} (hn : n ∈ nodes)
    (hid : n.id = id) (hs : id ∉ seen) :
    t.unseenEdges (NodeId.insert id seen) nodes + (t.predecessors id).length ≤
      t.unseenEdges seen nodes := by
  induction nodes with
  | nil => cases hn
  | cons x nodes ih =>
    simp only [unseenEdges_cons, NodeId.mem_insert]
    by_cases hx : x.id = id
    · have hle := unseenEdges_insert_le (t := t) id seen nodes
      simp only [hx, hs, true_or, if_true, if_false]
      omega
    · have hn' : n ∈ nodes := (List.mem_cons.1 hn).resolve_left fun he => hx (he ▸ hid)
      have := ih hn'
      simp only [hx, false_or]
      omega

theorem unseenEdges_nil : t.unseenEdges [] t.nodes = t.edgeCount := by
  simp [unseenEdges, edgeCount]

/-- What the search maintains: the stack holds known nodes, among them the predecessors of
the nodes seen that have not been seen themselves. -/
structure Searching (t : Trace) (seen stack : List NodeId) : Prop where
  known : ∀ x ∈ stack, t.contains x = true
  pending : ∀ x ∈ seen, ∀ p ∈ t.predecessors x, p ∈ seen ∨ p ∈ stack

namespace Searching

theorem start (h : ∀ o ∈ outputs, t.contains o = true) : t.Searching [] outputs where
  known := h
  pending := nofun

theorem skip (h : t.Searching seen (id :: stack)) (hid : id ∈ seen) : t.Searching seen stack where
  known x hx := h.known x (List.mem_cons_of_mem _ hx)
  pending := by
    intro x hx p hp
    rcases h.pending x hx p hp with hseen | hstack
    · exact .inl hseen
    · rcases List.mem_cons.1 hstack with rfl | hstack
      · exact .inl hid
      · exact .inr hstack

theorem visit (ht : t.Reachable) (h : t.Searching seen (id :: stack)) :
    t.Searching (NodeId.insert id seen)
      ((t.predecessors id).filter (· ∉ NodeId.insert id seen) ++ stack) where
  known := by
    intro x hx
    rcases List.mem_append.1 hx with hx | hx
    · exact (ht.predecessor_lt (List.mem_filter.1 hx).1).1
    · exact h.known x (List.mem_cons_of_mem _ hx)
  pending := by
    intro x hx p hp
    by_cases hfound : p ∈ NodeId.insert id seen
    · exact .inl hfound
    · have hid : p ≠ id := fun he => hfound (NodeId.mem_insert.2 (.inl he))
      have hseen : p ∉ seen := fun hmem => hfound (NodeId.mem_insert.2 (.inr hmem))
      refine .inr (List.mem_append.2 ?_)
      rcases NodeId.mem_insert.1 hx with rfl | hx
      · exact .inl (List.mem_filter.2 ⟨hp, by simpa using hfound⟩)
      · have hstack := (h.pending x hx p hp).resolve_left hseen
        exact .inr ((List.mem_cons.1 hstack).resolve_left hid)

theorem mem_of_predecessor {p : NodeId} (h : t.Searching seen []) (hid : id ∈ seen)
    (hp : p ∈ t.predecessors id) : p ∈ seen :=
  (h.pending id hid p hp).resolve_right List.not_mem_nil

end Searching

/-- With enough fuel the search ends with a set that everything on the stack is in, and
that every node in it brings its predecessors into. -/
theorem collect_complete (ht : t.Reachable) (h : t.Searching seen stack)
    (hfuel : stack.length + t.unseenEdges seen t.nodes ≤ fuel) :
    (∀ x ∈ stack, x ∈ t.collect fuel seen stack) ∧
      ∀ x ∈ t.collect fuel seen stack, ∀ p ∈ t.predecessors x, p ∈ t.collect fuel seen stack := by
  induction fuel generalizing seen stack with
  | zero =>
    obtain rfl : stack = [] := List.eq_nil_of_length_eq_zero (by omega)
    exact ⟨nofun, fun x hx p hp => h.mem_of_predecessor hx hp⟩
  | succ fuel ih =>
    cases stack with
    | nil => exact ⟨nofun, fun x hx p hp => h.mem_of_predecessor hx hp⟩
    | cons id stack =>
      rw [List.length_cons] at hfuel
      rw [collect]
      split
      · rename_i hseen
        obtain ⟨hstack, hpreds⟩ := ih (h.skip hseen) (by omega)
        exact ⟨List.forall_mem_cons.2 ⟨mem_collect_of_mem_seen hseen, hstack⟩, hpreds⟩
      · rename_i hseen
        obtain ⟨n, hn⟩ := exists_node_of_contains (h.known id List.mem_cons_self)
        have hedges := unseenEdges_insert_add_le (t := t) (mem_of_node? hn)
          (ht.wellFormed.id_of_node? hn) hseen
        have hfilter : ((t.predecessors id).filter (· ∉ NodeId.insert id seen)).length ≤
            (t.predecessors id).length := List.length_filter_le _ _
        obtain ⟨hstack, hpreds⟩ := ih (h.visit ht) (by rw [List.length_append]; omega)
        refine ⟨List.forall_mem_cons.2 ⟨?_, fun x hx => ?_⟩, hpreds⟩
        · exact mem_collect_of_mem_seen (NodeId.mem_insert.2 (.inl rfl))
        · exact hstack x (List.mem_append_right _ hx)

theorem Reachable.mem_needed (ht : t.Reachable) (h : ∀ o ∈ outputs, t.contains o = true) :
    id ∈ t.needed outputs ↔ id ∈ t.Support outputs := by
  obtain ⟨houtputs, hpreds⟩ := collect_complete ht (.start h)
    (Nat.le_of_eq (by rw [unseenEdges_nil]))
  constructor
  · exact collect_sound (by simp) fun x hx => mem_support_of_mem hx
  · rintro ⟨o, ho, hid⟩
    induction hid using Relation.ReflTransGen.head_induction_on with
    | refl => exact houtputs o ho
    | head hp _ ih => exact hpreds _ ih _ hp

theorem ascending_needed (outputs : List NodeId) : NodeId.Ascending (t.needed outputs) :=
  ascending_collect .nil

/-! ## Nodes in creation order -/

/-- All nodes in creation order. -/
def created (t : Trace) : List NodeId := t.nodes.map Node.id

theorem WellFormed.mem_created (ht : t.WellFormed) : id ∈ t.created ↔ t.contains id = true := by
  rw [created, List.mem_map]
  constructor
  · rintro ⟨n, hn, rfl⟩
    exact ht.contains_id hn
  · intro hid
    obtain ⟨n, hn⟩ := exists_node_of_contains hid
    exact ⟨n, mem_of_node? hn, ht.id_of_node? hn⟩

theorem WellFormed.ascending_created (ht : t.WellFormed) : NodeId.Ascending t.created :=
  List.pairwise_map.2 ht.increasing

/-! ## What a schedule lists -/

/-- What holds of the schedules that a trace produces. -/
structure Scheduled (t : Trace) (s : Schedule) : Prop extends t.Orderly s.nodes where
  output_mem : ∀ {id}, id ∈ s.outputs → id ∈ s.nodes

theorem Reachable.scheduled_needed (ht : t.Reachable) (h : ∀ o ∈ outputs, t.contains o = true) :
    t.Scheduled ⟨t.needed outputs, outputs⟩ where
  ascending := ascending_needed outputs
  known hid := (ht.closed_support h).known ((ht.mem_needed h).1 hid)
  predecessor hid hp := (ht.mem_needed h).2 (predecessor_mem_support ((ht.mem_needed h).1 hid) hp)
  output_mem hid := (ht.mem_needed h).2 (mem_support_of_mem hid)

/-- All nodes are a schedule. -/
theorem Reachable.scheduled_created (ht : t.Reachable) : t.Scheduled ⟨t.created, []⟩ where
  ascending := ht.wellFormed.ascending_created
  known hid := ht.wellFormed.mem_created.1 hid
  predecessor _ hp := ht.wellFormed.mem_created.2 (ht.predecessor_lt hp).1
  output_mem := nofun

theorem Reachable.orderly_kept (ht : t.Reachable) (h : ∀ o ∈ outputs, t.contains o = true)
    (raw : Bool) : t.Orderly (t.kept outputs raw) := by
  cases raw with
  | true => exact ht.scheduled_created.toOrderly
  | false => exact (ht.scheduled_needed h).toOrderly

theorem Reachable.mem_kept (ht : t.Reachable) (h : ∀ o ∈ outputs, t.contains o = true)
    (raw : Bool) :
    id ∈ t.kept outputs raw ↔ if raw then t.contains id = true else id ∈ t.Support outputs := by
  cases raw with
  | true => exact ht.wellFormed.mem_created
  | false => exact ht.mem_needed h

theorem scheduleBy_of_unknown {iteration : Iteration} {raw : Bool}
    (h : (outputs.find? fun id => !t.contains id) = some id) :
    t.scheduleBy iteration outputs raw = .error (.unboundOutput id) := by
  rw [scheduleBy, h]

/-- The schedule of known outputs lists the kept nodes, whatever the iteration. -/
theorem Reachable.scheduleBy_eq (ht : t.Reachable) (h : ∀ o ∈ outputs, t.contains o = true)
    (iteration : Iteration) (raw : Bool) :
    t.scheduleBy iteration outputs raw = .ok ⟨t.kept outputs raw, outputs⟩ := by
  have hfind : (outputs.find? fun id => !t.contains id) = none :=
    List.find?_eq_none.2 fun id hid => by simp [h id hid]
  have hkept := iteration.kept_perm (t.kept outputs raw)
  have horder := (ht.orderly_kept h raw).order_eq ht hkept
    ((iteration.counted_perm _).trans hkept)
  simp only [scheduleBy, hfind, horder]
  rfl

theorem Reachable.schedule_eq (ht : t.Reachable) (h : ∀ o ∈ outputs, t.contains o = true) :
    t.schedule outputs false = .ok ⟨t.needed outputs, outputs⟩ :=
  ht.scheduleBy_eq h .increasing false

/-- Only known outputs have a schedule. -/
theorem contains_of_schedule {raw : Bool} (h : t.schedule outputs raw = .ok s) :
    ∀ o ∈ outputs, t.contains o = true := by
  cases hfind : outputs.find? fun id => !t.contains id with
  | none => exact fun o ho => by simpa using List.find?_eq_none.1 hfind o ho
  | some x =>
    rw [schedule, scheduleBy_of_unknown hfind] at h
    cases h

theorem Reachable.scheduled (ht : t.Reachable)
    (h : t.schedule outputs false = .ok s) : t.Scheduled s := by
  have hknown := contains_of_schedule h
  rw [ht.schedule_eq hknown] at h
  cases h
  exact ht.scheduled_needed hknown

/-- Scheduled nodes can be executed in the order of the schedule. -/
theorem Scheduled.linearizes (hs : t.Scheduled s) (ht : t.Reachable) :
    t.Linearizes {id | id ∈ s.nodes} s.nodes where
  mem_iff := Iff.rfl
  nodup := hs.ascending.nodup
  respects := by
    refine List.Pairwise.imp_of_mem (fun {a b} ha _ hab hp => ?_) hs.ascending
    have := NodeId.before_asymm (ht.before_of_predecessor hp (hs.known ha))
    simp [hab] at this

theorem Scheduled.closed (hs : t.Scheduled s) : t.Closed {id | id ∈ s.nodes} :=
  ⟨hs.known, hs.predecessor⟩

/-- Whatever the iteration, a schedule is refused for the first unknown output, and else lists
what the outputs need in creation order, or everything if it is raw. No cycle is ever found. -/
theorem Reachable.scheduleBy_sorted (ht : t.Reachable) (iteration : Iteration)
    (outputs : List NodeId) (raw : Bool) :
    (match outputs.find? fun id => !t.contains id with
      | some id => t.scheduleBy iteration outputs raw = .error (.unboundOutput id)
      | none => ∃ ids, t.scheduleBy iteration outputs raw = .ok ⟨ids, outputs⟩ ∧
          (ids.Pairwise fun a b => a.index < b.index) ∧
          ∀ id, id ∈ ids ↔ if raw then t.contains id = true else id ∈ t.Support outputs) ∧
      ∀ count, t.scheduleBy iteration outputs raw ≠ .error (.cycle count) := by
  cases hfind : outputs.find? fun id => !t.contains id with
  | some id =>
    have hrefused : t.scheduleBy iteration outputs raw = .error (.unboundOutput id) :=
      scheduleBy_of_unknown hfind
    exact ⟨hrefused, fun count => by simp [hrefused]⟩
  | none =>
    have hknown : ∀ o ∈ outputs, t.contains o = true := fun o ho => by
      simpa using List.find?_eq_none.1 hfind o ho
    have heq := ht.scheduleBy_eq hknown iteration raw
    exact ⟨⟨_, heq, (ht.orderly_kept hknown raw).index_lt, fun id => ht.mem_kept hknown raw⟩,
      fun count => by simp [heq]⟩

/-- An input whose first element is read before it is overwritten, and a node that nothing
needs. -/
def pruned : Trace :=
  [Call.placeholder "x" [2] .i64, .literal (.scalar .i64 5),
    .apply (.slice [.range 0 1 1]) [⟨0, 0⟩], .apply (.unary .neg) [⟨0, 0⟩],
    .assign ⟨0, 0⟩ [.range 0 1 1] ⟨0, 1⟩].foldl Trace.after { id := 0 }

/-- Going through everything backwards, the slice is kept and the negation is not. -/
theorem scheduleBy_sorted_pruned :
    let backwards : Iteration := ⟨List.reverse, List.reverse, List.reverse_perm, List.reverse_perm⟩
    (∃ ids, pruned.scheduleBy backwards [⟨0, 4⟩] false = .ok ⟨ids, [⟨0, 4⟩]⟩ ∧
        (ids.Pairwise fun a b => a.index < b.index) ∧
        ∀ id, id ∈ ids ↔ id ∈ pruned.Support [⟨0, 4⟩]) ∧
      pruned.scheduleBy backwards [⟨0, 4⟩, ⟨0, 7⟩] true = .error (.unboundOutput ⟨0, 7⟩) := by
  intro backwards
  have ht : pruned.Reachable := .calls (.start 0 {}) _
  exact ⟨(ht.scheduleBy_sorted backwards [⟨0, 4⟩] false).1,
    (ht.scheduleBy_sorted backwards [⟨0, 4⟩, ⟨0, 7⟩] true).1⟩

end Trace
end ArrayTrace
