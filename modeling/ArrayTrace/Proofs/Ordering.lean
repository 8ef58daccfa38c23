import ArrayTrace.Schedule
import ArrayTrace.Proofs.Execution

/-!
# Ordering nodes

Ids are compared by trace first and by creation order second. Every edge leads to a later
node, so of the nodes not yet taken the earliest is always ready, and taking the earliest
ready node again and again goes through the kept nodes in increasing order. This does not
depend on the order in which the kept nodes or their counts are gone through.

The loop maintains `Taking`: each kept node is counted with the number of its predecessors
not yet taken, and the queue holds the nodes for which this number is zero.
-/

namespace ArrayTrace

namespace NodeId
variable {a b c id : NodeId} {ids : List NodeId}

theorem before_trans (h : a.before b = true) (h' : b.before c = true) : a.before c = true := by
  simp only [before, Bool.or_eq_true, Bool.and_eq_true, decide_eq_true_eq] at *
  omega

theorem before_of_not_before (h : ¬ b.before a = true) (hne : a ≠ b) : a.before b = true := by
  obtain ⟨c, i⟩ := a
  obtain ⟨d, j⟩ := b
  simp only [ne_eq, NodeId.mk.injEq, not_and] at hne
  simp only [before, Bool.or_eq_true, Bool.and_eq_true, decide_eq_true_eq] at *
  omega

/-- Whether ids are strictly increasing. -/
def Ascending (ids : List NodeId) : Prop := ids.Pairwise fun a b => a.before b = true

theorem Ascending.insert (h : Ascending ids) : Ascending (insert id ids) := by
  induction h with
  | nil => exact List.pairwise_singleton _ _
  | @cons a rest ha hrest ih =>
    rw [NodeId.insert]
    split
    · exact .cons ha hrest
    · rename_i hne
      split
      · rename_i hbefore
        refine .cons ?_ (.cons ha hrest)
        intro x hx
        rcases List.mem_cons.1 hx with rfl | hx
        · exact hbefore
        · exact before_trans hbefore (ha x hx)
      · rename_i hbefore
        refine .cons (fun x hx => ?_) ih
        rcases mem_insert.1 hx with rfl | hx
        · exact before_of_not_before hbefore (Ne.symm hne)
        · exact ha x hx

theorem ascending_sorted (ids : List NodeId) : Ascending (sorted ids) := by
  induction ids with
  | nil => exact .nil
  | cons a rest ih => exact ih.insert

theorem Ascending.nodup (h : Ascending ids) : ids.Nodup :=
  h.imp fun {a b} hab he => by simp [he, before_irrefl] at hab

theorem Ascending.sorted_eq (h : Ascending ids) : sorted ids = ids := by
  induction h with
  | nil => rfl
  | @cons a rest ha hrest ih =>
    have hsorted : sorted (a :: rest) = NodeId.insert a (sorted rest) := rfl
    rw [hsorted, ih]
    cases rest with
    | nil => rfl
    | cons b rest =>
      have hab := ha b List.mem_cons_self
      have hne : a ≠ b := fun he => by simp [he, before_irrefl] at hab
      rw [NodeId.insert, if_neg hne, if_pos hab]

/-- In an increasing list everything before an element stands to its left. -/
theorem Ascending.mem_left {l r : List NodeId} (h : Ascending (l ++ id :: r))
    (ha : a ∈ l ++ id :: r) (hbefore : a.before id = true) : a ∈ l := by
  obtain ⟨-, hright, -⟩ := List.pairwise_append.1 h
  refine (List.mem_append.1 ha).resolve_right fun ha => ?_
  rcases List.mem_cons.1 ha with rfl | ha
  · simp [before_irrefl] at hbefore
  · have := before_asymm ((List.pairwise_cons.1 hright).1 a ha)
    simp [hbefore] at this

/-- In an increasing list everything behind an element stands to its right. -/
theorem Ascending.mem_right {l r : List NodeId} (h : Ascending (l ++ id :: r))
    (ha : a ∈ l ++ id :: r) (hbefore : id.before a = true) : a ∈ r := by
  rcases List.mem_append.1 ha with ha | ha
  · have := before_asymm ((List.pairwise_append.1 h).2.2 a ha id List.mem_cons_self)
    simp [hbefore] at this
  · refine (List.mem_cons.1 ha).resolve_left fun he => ?_
    simp [he, before_irrefl] at hbefore

/-! ## The earliest of some nodes -/

theorem earliest?_eq_none : earliest? ids = none ↔ ids = [] := by
  cases ids with
  | nil => simp [earliest?]
  | cons a ids =>
    simp only [earliest?, reduceCtorEq, iff_false]
    split
    · split <;> simp
    · simp

/-- None of the nodes is before the earliest. -/
theorem earliest?_spec (h : earliest? ids = some id) :
    id ∈ ids ∧ ∀ x ∈ ids, x.before id = false := by
  induction ids generalizing id with
  | nil => cases h
  | cons a ids ih =>
    rw [earliest?] at h
    cases hrest : earliest? ids with
    | none =>
      obtain rfl := earliest?_eq_none.1 hrest
      obtain rfl : a = id := by simpa [hrest] using h
      simp [before_irrefl]
    | some e =>
      obtain ⟨he, hfirst⟩ := ih hrest
      rw [hrest] at h
      dsimp only at h
      split at h
      · rename_i hbefore
        obtain rfl := Option.some.inj h
        exact ⟨List.mem_cons_of_mem _ he, List.forall_mem_cons.2 ⟨before_asymm hbefore, hfirst⟩⟩
      · rename_i hbefore
        obtain rfl := Option.some.inj h
        refine ⟨List.mem_cons_self, List.forall_mem_cons.2 ⟨before_irrefl a, fun x hx => ?_⟩⟩
        by_contra hxa
        refine hbefore ?_
        by_cases hxe : x = e
        · simpa [hxe] using hxa
        · have hex := before_of_not_before (by simp [hfirst x hx]) (Ne.symm hxe)
          exact before_trans hex (by simpa using hxa)

theorem earliest?_eq_some (h : id ∈ ids) (hfirst : ∀ x ∈ ids, x ≠ id → id.before x = true) :
    earliest? ids = some id := by
  cases he : earliest? ids with
  | none => simp [earliest?_eq_none.1 he] at h
  | some e =>
    obtain ⟨hmem, hleast⟩ := earliest?_spec he
    by_contra hne
    have := hfirst e hmem fun hid => hne (by rw [hid])
    simp [hleast id h] at this

end NodeId

/-! ## Releasing nodes -/

namespace Queue
variable {q : Queue} {id x : NodeId} {ids : List NodeId}

theorem lookup_map_degrees {α : Type} (f : NodeId → α → α) (l : List (NodeId × α)) (x : NodeId) :
    (l.map fun (id, a) => (id, f id a)).lookup x = (l.lookup x).map (f x) := by
  induction l with
  | nil => rfl
  | cons p l ih =>
    obtain ⟨id, a⟩ := p
    rw [List.map_cons, List.lookup_cons, List.lookup_cons, ih]
    by_cases h : x == id
    · simp [eq_of_beq h]
    · simp [h]

theorem lookup_release (q : Queue) (id x : NodeId) :
    (q.release id).degrees.lookup x =
      (q.degrees.lookup x).map fun d => if x = id then d - 1 else d :=
  lookup_map_degrees (fun other d => if other = id then d - 1 else d) q.degrees x

theorem ready_release (q : Queue) (id : NodeId) :
    (q.release id).ready =
      if (q.degrees.lookup id).map (· - 1) = some 0 then id :: q.ready else q.ready := by
  have h := lookup_release q id id
  simp only [if_true] at h
  rw [← h]
  rfl

/-- What releasing distinct nodes does to the counts. -/
theorem lookup_releases (hids : ids.Nodup) :
    (ids.foldl release q).degrees.lookup x =
      (q.degrees.lookup x).map fun d => if x ∈ ids then d - 1 else d := by
  induction ids generalizing q with
  | nil => simp
  | cons id ids ih =>
    obtain ⟨hid, hids⟩ := List.nodup_cons.1 hids
    rw [List.foldl_cons, ih hids, lookup_release, Option.map_map]
    congr 1
    funext d
    by_cases hx : x = id
    · simp [hx, hid]
    · simp [hx]

/-- Released nodes become ready when they were waited for once. -/
theorem mem_ready_releases (hids : ids.Nodup) :
    x ∈ (ids.foldl release q).ready ↔
      x ∈ q.ready ∨ x ∈ ids ∧ (q.degrees.lookup x).map (· - 1) = some 0 := by
  induction ids generalizing q with
  | nil => simp
  | cons id ids ih =>
    obtain ⟨hid, hids⟩ := List.nodup_cons.1 hids
    rw [List.foldl_cons, ih hids, lookup_release, ready_release]
    by_cases hx : x = id
    · subst hx
      by_cases hzero : (q.degrees.lookup x).map (· - 1) = some 0 <;> simp [hid, hzero]
    · by_cases hzero : (q.degrees.lookup id).map (· - 1) = some 0 <;> simp [hx, hzero]

theorem nodup_ready_releases (hids : ids.Nodup) (hready : q.ready.Nodup)
    (hfresh : ∀ x ∈ ids, x ∉ q.ready) : (ids.foldl release q).ready.Nodup := by
  induction ids generalizing q with
  | nil => exact hready
  | cons id ids ih =>
    obtain ⟨hid, hids⟩ := List.nodup_cons.1 hids
    obtain ⟨hnew, hfresh⟩ := List.forall_mem_cons.1 hfresh
    rw [List.foldl_cons]
    refine ih hids ?_ fun x hx => ?_
    · rw [ready_release]
      split
      · exact List.nodup_cons.2 ⟨hnew, hready⟩
      · exact hready
    · have hne : x ≠ id := fun he => hid (he ▸ hx)
      rw [ready_release]
      split <;> simp [hne, hfresh x hx]

end Queue

namespace Trace
variable {t : Trace} {id x : NodeId} {ids kept counted done pending : List NodeId} {q : Queue}
  {fuel : Nat}

/-- Nodes of one trace are ordered by their numbers. -/
theorem before_iff_index_lt {a b : NodeId} (ha : t.contains a = true)
    (hb : t.contains b = true) : a.before b = true ↔ a.index < b.index := by
  simp [NodeId.before, (contains_iff.1 ha).1, (contains_iff.1 hb).1]

theorem Reachable.before_of_predecessor (ht : t.Reachable) {p : NodeId}
    (hp : p ∈ t.predecessors id) (hid : t.contains id = true) : p.before id = true := by
  obtain ⟨hknown, hlt⟩ := ht.predecessor_lt hp
  exact (before_iff_index_lt hknown hid).2 hlt

/-! ## Waiting -/

/-- The predecessors of a node that have not been taken, each once. -/
def waiting (t : Trace) (done : List NodeId) (id : NodeId) : List NodeId :=
  (NodeId.sorted (t.predecessors id)).filter (· ∉ done)

theorem mem_waiting {p : NodeId} :
    p ∈ t.waiting done id ↔ p ∈ t.predecessors id ∧ p ∉ done := by
  simp [waiting]

theorem waiting_nil : t.waiting [] id = NodeId.sorted (t.predecessors id) := by
  simp [waiting]

/-- Taking a node ends the waiting for it. -/
theorem waiting_append_singleton :
    t.waiting (done ++ [x]) id = (t.waiting done id).erase x := by
  have hnodup : (t.waiting done id).Nodup := (NodeId.ascending_sorted _).nodup.filter _
  rw [hnodup.erase_eq_filter, waiting, waiting, List.filter_filter]
  congr 1
  funext p
  by_cases h : p = x <;> simp [h]

/-! ## The loop -/

/-- A list of nodes that can be taken one after the other: it increases and holds the
predecessors of all its nodes. -/
structure Orderly (t : Trace) (ids : List NodeId) : Prop where
  ascending : NodeId.Ascending ids
  known : ∀ {id}, id ∈ ids → t.contains id = true
  predecessor : ∀ {id p}, id ∈ ids → p ∈ t.predecessors id → p ∈ ids

namespace Orderly

theorem index_lt (h : t.Orderly ids) : ids.Pairwise fun a b => a.index < b.index :=
  List.Pairwise.imp_of_mem (fun ha hb => (before_iff_index_lt (h.known ha) (h.known hb)).1)
    h.ascending

theorem before_of_mem (h : t.Orderly (done ++ id :: pending)) (hx : x ∈ pending) :
    id.before x = true :=
  (List.pairwise_cons.1 (List.pairwise_append.1 h.ascending).2.1).1 x hx

theorem not_mem_done (h : t.Orderly (done ++ id :: pending)) : id ∉ done :=
  (List.nodup_middle.1 h.ascending.nodup).notMem ∘ List.mem_append_left _

/-- The first node not taken waits for nothing. -/
theorem waiting_eq_nil (h : t.Orderly (done ++ id :: pending)) (ht : t.Reachable) :
    t.waiting done id = [] := by
  refine List.eq_nil_iff_forall_not_mem.2 fun p hp => ?_
  obtain ⟨hp, hdone⟩ := mem_waiting.1 hp
  have hid : id ∈ done ++ id :: pending := by simp
  have hbefore := ht.before_of_predecessor hp (h.known hid)
  exact hdone (h.ascending.mem_left (h.predecessor hid hp) hbefore)

/-- A node that waits for the first node not taken has not been taken either. -/
theorem mem_pending_of_waits (h : t.Orderly (done ++ id :: pending)) (ht : t.Reachable)
    (hx : x ∈ done ++ id :: pending) (hid : id ∈ t.predecessors x) : x ∈ pending :=
  h.ascending.mem_right hx (ht.before_of_predecessor hid (h.known hx))

end Orderly

/-- What the loop maintains between two rounds. -/
structure Taking (t : Trace) (kept done pending : List NodeId) (q : Queue) : Prop where
  degree : ∀ {id}, id ∈ kept → q.degrees.lookup id = some (t.waiting done id).length
  mem_ready : ∀ {id}, id ∈ q.ready ↔ id ∈ pending ∧ t.waiting done id = []
  nodup : q.ready.Nodup

theorem taking_queue (hkept : kept.Perm ids) (hcounted : counted.Perm ids) (hids : ids.Nodup) :
    t.Taking kept [] ids (t.queue kept counted) := by
  have hdegree : ∀ {id}, id ∈ ids →
      (t.queue kept counted).degrees.lookup id = some (t.waiting [] id).length := fun hid => by
    rw [waiting_nil]
    exact List.lookup_graph _ (hkept.mem_iff.2 hid)
  refine ⟨fun hid => hdegree (hkept.mem_iff.1 hid), fun {id} => ?_,
    (hcounted.nodup_iff.2 hids).filter _⟩
  have hmem : id ∈ (t.queue kept counted).ready ↔
      id ∈ counted ∧ (t.queue kept counted).degrees.lookup id = some 0 := by
    simp [queue]
  rw [hmem, hcounted.mem_iff]
  refine and_congr_right fun hid => ?_
  rw [hdegree hid, Option.some.injEq, List.length_eq_zero_iff]

/-- One round: the first of the pending nodes is taken. -/
theorem Taking.step (h : t.Taking kept done (id :: pending) q) (ht : t.Reachable)
    (ho : t.Orderly (done ++ id :: pending)) (hkept : kept.Perm (done ++ id :: pending)) :
    NodeId.earliest? q.ready = some id ∧
      t.Taking kept (done ++ [id]) pending
        ((t.successors kept id).foldl Queue.release { q with ready := q.ready.erase id }) := by
  have hsuccessors : (t.successors kept id).Nodup :=
    (hkept.nodup_iff.2 ho.ascending.nodup).filter _
  have hmem : ∀ {x}, x ∈ t.successors kept id ↔ x ∈ kept ∧ id ∈ t.predecessors x := by
    simp [successors]
  have hwaits : ∀ {x}, id ∈ t.waiting done x ↔ id ∈ t.predecessors x := fun {x} => by
    rw [mem_waiting, and_iff_left ho.not_mem_done]
  have hpending : ∀ {x}, x ∈ pending → x ∈ kept := fun hx => hkept.mem_iff.2 (by simp [hx])
  refine ⟨NodeId.earliest?_eq_some (h.mem_ready.2 ⟨List.mem_cons_self, ho.waiting_eq_nil ht⟩)
    fun x hx hne => ?_, ⟨fun {x} hx => ?_, fun {x} => ?_, ?_⟩⟩
  · exact ho.before_of_mem ((List.mem_cons.1 (h.mem_ready.1 hx).1).resolve_left hne)
  · rw [Queue.lookup_releases hsuccessors, h.degree hx, waiting_append_singleton,
      List.length_erase, Option.map_some]
    simp only [hmem, hx, true_and, hwaits]
  · rw [Queue.mem_ready_releases hsuccessors, h.nodup.mem_erase_iff, h.mem_ready,
      waiting_append_singleton, hmem, List.mem_cons]
    constructor
    · rintro (⟨hne, hx, hnil⟩ | ⟨⟨hx, hid⟩, hzero⟩)
      · exact ⟨hx.resolve_left hne, by rw [hnil, List.erase_nil]⟩
      · refine ⟨ho.mem_pending_of_waits ht (hkept.mem_iff.1 hx) hid, ?_⟩
        rw [h.degree hx, Option.map_some, Option.some.injEq] at hzero
        rw [← List.length_eq_zero_iff, List.length_erase, if_pos (hwaits.2 hid), hzero]
    · rintro ⟨hx, hnil⟩
      by_cases hid : id ∈ t.predecessors x
      · refine .inr ⟨⟨hpending hx, hid⟩, ?_⟩
        rw [h.degree (hpending hx), Option.map_some, Option.some.injEq, ← List.length_erase_of_mem
          (hwaits.2 hid), hnil, List.length_nil]
      · have hne : x ≠ id := fun he => by
          have := ho.before_of_mem hx
          simp [he, NodeId.before_irrefl] at this
        refine .inl ⟨hne, .inr hx, ?_⟩
        rwa [List.erase_of_not_mem (hwaits.not.2 hid)] at hnil
  · refine Queue.nodup_ready_releases hsuccessors (h.nodup.erase id) fun x hx hready => ?_
    have hnil := (h.mem_ready.1 (List.mem_of_mem_erase hready)).2
    exact List.not_mem_nil (hnil ▸ hwaits.2 (hmem.1 hx).2)

/-- The loop goes through the pending nodes in their order. -/
theorem drain_eq (ht : t.Reachable) (ho : t.Orderly (done ++ pending))
    (hkept : kept.Perm (done ++ pending)) (h : t.Taking kept done pending q)
    (hfuel : pending.length ≤ fuel) : t.drain kept fuel done q = done ++ pending := by
  induction pending generalizing done q fuel with
  | nil =>
    have hready : q.ready = [] := List.eq_nil_iff_forall_not_mem.2 fun x hx =>
      List.not_mem_nil (h.mem_ready.1 hx).1
    cases fuel <;> simp [drain, hready, NodeId.earliest?]
  | cons id pending ih =>
    cases fuel with
    | zero => simp at hfuel
    | succ fuel =>
      obtain ⟨hfirst, hnext⟩ := h.step ht ho hkept
      have hassoc : done ++ id :: pending = done ++ [id] ++ pending := by simp
      rw [drain, hfirst]
      dsimp only
      rw [ih (hassoc ▸ ho) (hassoc ▸ hkept) hnext (by simpa using hfuel), ← hassoc]

/-- Ordering gives the kept nodes in increasing order, whatever the order in which they and
their counts are gone through. -/
theorem Orderly.order_eq (ho : t.Orderly ids) (ht : t.Reachable) (hkept : kept.Perm ids)
    (hcounted : counted.Perm ids) : t.order kept counted = .ok ids := by
  have hdrain : t.drain kept kept.length [] (t.queue kept counted) = [] ++ ids :=
    drain_eq ht ho hkept (taking_queue hkept hcounted ho.ascending.nodup)
      (Nat.le_of_eq hkept.length_eq.symm)
  simp only [order, hdrain, List.nil_append]
  rw [if_pos hkept.length_eq.symm]

end Trace
end ArrayTrace
