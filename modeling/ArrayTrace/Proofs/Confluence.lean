import ArrayTrace.Proofs.Independence
import Mathlib.Data.Set.Insert

/-!
# Orders of execution

Any two orders of the same nodes in which every node comes after what it waits for are
executions of the same computation: both succeed or both fail, and they leave the same
memory. A node that is ready can be brought to the front past others that are ready too,
since no chain of edges orders nodes that are ready at the same time.
-/

namespace ArrayTrace.Trace
variable {t : Trace} {states μ ν : Memory} {id p : NodeId} {ids xs ys pre post : List NodeId}
  {K done : Set NodeId}

/-- Nodes of the trace, together with everything they wait for. -/
structure Closed (t : Trace) (K : Set NodeId) : Prop where
  known : ∀ {id}, id ∈ K → t.contains id = true
  predecessor : ∀ {id p}, id ∈ K → p ∈ t.predecessors id → p ∈ K

/-- `ids` lists the nodes of `K`, none before a node that it waits for. -/
structure Linearizes (t : Trace) (K : Set NodeId) (ids : List NodeId) : Prop where
  mem_iff : ∀ {id}, id ∈ ids ↔ id ∈ K
  nodup : ids.Nodup
  respects : ids.Pairwise fun a b => b ∉ t.predecessors a

/-- The listed nodes can be executed in this order once the nodes of `done` have been. -/
inductive Legal (t : Trace) : Set NodeId → List NodeId → Prop
  | nil {done : Set NodeId} : Legal t done []
  | cons {done : Set NodeId} {id : NodeId} {ids : List NodeId} (known : t.contains id = true)
      (fresh : id ∉ done) (ready : ∀ p ∈ t.predecessors id, p ∈ done)
      (rest : Legal t (insert id done) ids) : Legal t done (id :: ids)

namespace Legal

theorem not_mem (h : t.Legal done ids) (hid : id ∈ ids) : id ∉ done := by
  induction h with
  | nil => cases hid
  | cons _ fresh _ _ ih =>
    rcases List.mem_cons.1 hid with rfl | hid
    · exact fresh
    · exact fun hdone => ih hid (Set.mem_insert_of_mem _ hdone)

theorem known_of_mem (h : t.Legal done ids) (hid : id ∈ ids) : t.contains id = true := by
  induction h with
  | nil => cases hid
  | cons known _ _ _ ih =>
    rcases List.mem_cons.1 hid with rfl | hid
    · exact known
    · exact ih hid

end Legal

/-- An order of a closed set of nodes can be executed from the beginning. -/
theorem Linearizes.legal (ht : t.Reachable) (hK : t.Closed K) (h : t.Linearizes K ids) :
    t.Legal ∅ ids := by
  suffices ∀ pre post, ids = pre ++ post → t.Legal {id | id ∈ pre} post by
    simpa using this [] ids rfl
  intro pre post
  induction post generalizing pre with
  | nil => exact fun _ => .nil
  | cons id post ih =>
    intro hids
    have hid : id ∈ K := h.mem_iff.1 (by simp [hids])
    have hnodup := h.nodup
    have hrespects := h.respects
    rw [hids, List.nodup_append] at hnodup
    rw [hids, List.pairwise_append] at hrespects
    refine .cons (hK.known hid) ?_ (fun p hp => ?_) ?_
    · exact fun hpre => hnodup.2.2 id hpre id List.mem_cons_self rfl
    · have hmem : p ∈ pre ++ id :: post := hids ▸ h.mem_iff.2 (hK.predecessor hid hp)
      rcases List.mem_append.1 hmem with hpre | hpost
      · exact hpre
      · rcases List.mem_cons.1 hpost with rfl | hpost
        · exact absurd (ht.predecessor_lt hp).2 (Nat.lt_irrefl _)
        · exact absurd hp (List.rel_of_pairwise_cons hrespects.2.1 hpost)
    · have hset : insert id {x | x ∈ pre} = {x | x ∈ pre ++ [id]} := by
        ext x
        simp only [Set.mem_insert_iff, Set.mem_ofPred_eq, List.mem_append, List.mem_singleton]
        tauto
      rw [hset]
      exact ih (pre ++ [id]) (by simp [hids])

/-! ## Nodes that are ready at the same time -/

theorem Closed.insert_ready (hdone : t.Closed done) (hid : t.contains id = true)
    (hready : ∀ p ∈ t.predecessors id, p ∈ done) : t.Closed (insert id done) where
  known := by
    rintro x (rfl | hx)
    · exact hid
    · exact hdone.known hx
  predecessor := by
    rintro x p (rfl | hx) hp
    · exact .inr (hready p hp)
    · exact .inr (hdone.predecessor hx hp)

theorem Closed.mem_of_before (hdone : t.Closed done)
    (hready : ∀ p ∈ t.predecessors id, p ∈ done) (h : t.Before p id) : p ∈ done := by
  induction h using Relation.TransGen.head_induction_on with
  | single hp => exact hready _ hp
  | head hp _ ih => exact hdone.predecessor ih hp

theorem unordered_of_ready (ht : t.WellFormed) (hdone : t.Closed done) {a b : Node}
    (ha : t.node? id = some a) (hb : t.node? p = some b) (hne : id ≠ p)
    (hida : id ∉ done) (hidb : p ∉ done)
    (hreadya : ∀ q ∈ t.predecessors id, q ∈ done)
    (hreadyb : ∀ q ∈ t.predecessors p, q ∈ done) : t.Unordered a b := by
  obtain rfl := ht.id_of_node? ha
  obtain rfl := ht.id_of_node? hb
  exact ⟨mem_of_node? ha, mem_of_node? hb, fun he => hne (congrArg Node.id he),
    fun h => hida (hdone.mem_of_before hreadyb h), fun h => hidb (hdone.mem_of_before hreadya h)⟩

/-- A ready node can be executed before others in front of it. -/
theorem Legal.move_to_front [FloatProduct] (ht : t.Reachable) (hs : t.Typed states) (hμ : t.Typed μ)
    (hdone : t.Closed done) (hready : ∀ p ∈ t.predecessors id, p ∈ done)
    (h : t.Legal done (pre ++ id :: post)) :
    t.Legal (insert id done) (pre ++ post) ∧
      t.effects states μ (pre ++ id :: post) = t.effects states μ (id :: (pre ++ post)) := by
  induction pre generalizing done μ with
  | nil =>
    rcases h with _ | ⟨_, _, _, rest⟩
    exact ⟨rest, rfl⟩
  | cons p pre ih =>
    have hid : id ∉ done := h.not_mem (by simp)
    have hknown : t.contains id = true := h.known_of_mem (by simp)
    rcases h with _ | ⟨known, fresh, ready, rest⟩
    have hne : id ≠ p := by
      rintro rfl
      exact rest.not_mem (by simp) (Set.mem_insert _ _)
    have hclosed := hdone.insert_ready known ready
    have hready' : ∀ q ∈ t.predecessors id, q ∈ insert p done := fun q hq => .inr (hready q hq)
    obtain ⟨a, ha⟩ := exists_node_of_contains hknown
    obtain ⟨b, hb⟩ := exists_node_of_contains known
    have hunordered := unordered_of_ready ht.wellFormed hdone ha hb hne hid fresh hready ready
    refine ⟨?_, ?_⟩
    · obtain ⟨hlegal, -⟩ := ih hμ hclosed hready' rest
      refine .cons known ?_ (fun q hq => .inr (ready q hq)) ?_
      · rintro (rfl | hp)
        · exact hne rfl
        · exact fresh hp
      · rw [Set.insert_comm]
        exact hlegal
    · -- after the first node, bring `id` to the front of the rest, then exchange the two
      have hstep : ∀ ν, t.effect states μ b = some ν →
          t.effects states ν (pre ++ id :: post) = t.effects states ν (id :: (pre ++ post)) :=
        fun ν hν => (ih (Typed.effect ht.wellFormed hs hμ (mem_of_node? hb) hν) hclosed hready'
          rest).2
      calc t.effects states μ (p :: pre ++ id :: post)
          = (t.effect states μ b).bind fun ν => t.effects states ν (pre ++ id :: post) := by
            simp [hb]
        _ = (t.effect states μ b).bind fun ν => t.effects states ν (id :: (pre ++ post)) :=
            Option.bind_congr hstep
        _ = ((t.effect states μ b).bind fun ν => t.effect states ν a).bind
              fun ν => t.effects states ν (pre ++ post) := by
            simp [ha, Option.bind_assoc]
        _ = ((t.effect states μ a).bind fun ν => t.effect states ν b).bind
              fun ν => t.effects states ν (pre ++ post) := by
            rw [hunordered.effect_comm ht hμ]
        _ = t.effects states μ (id :: (p :: pre ++ post)) := by
            simp [ha, hb, Option.bind_assoc]

/-- Two orders of the same nodes have the same effect. -/
theorem Legal.effects_eq [FloatProduct] (ht : t.Reachable) (hs : t.Typed states) (hμ : t.Typed μ)
    (hdone : t.Closed done) (hxs : t.Legal done xs) (hys : t.Legal done ys)
    (hperm : xs.Perm ys) : t.effects states μ xs = t.effects states μ ys := by
  induction xs generalizing done μ ys with
  | nil => rw [List.nil_perm.1 hperm]
  | cons id xs ih =>
    obtain ⟨pre, post, rfl⟩ := List.append_of_mem (hperm.mem_iff.1 List.mem_cons_self)
    rcases hxs with _ | ⟨known, _, ready, rest⟩
    obtain ⟨hlegal, hfront⟩ := hys.move_to_front ht hs hμ hdone ready
    obtain ⟨a, ha⟩ := exists_node_of_contains known
    have hrest : xs.Perm (pre ++ post) := (List.perm_middle.symm.trans hperm.symm).symm.cons_inv
    rw [hfront, effects_cons, effects_cons, ha]
    exact Option.bind_congr fun ν hν => ih (Typed.effect ht.wellFormed hs hμ (mem_of_node? ha) hν)
      (hdone.insert_ready known ready) rest hlegal hrest

theorem closed_empty : t.Closed ∅ :=
  ⟨fun h => absurd h (Set.notMem_empty _), fun h => absurd h (Set.notMem_empty _)⟩

/-- A store with values of the declared types. -/
theorem typed_of_entries {values : Store}
    (h : ∀ e ∈ values.entries, ∀ n ∈ t.nodes, n.isStorage = true → n.id = e.1 →
      e.2.type = n.type) : t.Typed values.get? := by
  intro n hn hs v hv
  obtain ⟨l₁, l₂, hl, -⟩ := List.lookup_eq_some_iff.1 hv
  exact h (n.id, v) (by simp [hl]) n hn hs rfl

end ArrayTrace.Trace
