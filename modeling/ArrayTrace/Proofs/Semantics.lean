import ArrayTrace.Proofs.Progress
import ArrayTrace.Proofs.Variables

/-!
# What a program computes

A program executes the nodes that its outputs need, and no others. Executing all nodes of
the trace in creation order gives the same values: a node that is left out is neither read
by one that is kept, nor does it overwrite an array before a kept assignment does. So an
operation has the value that it has when everything is executed, and an array is as it is
right after the last assignment into it that is kept.
-/

namespace ArrayTrace

theorem NodeId.Ascending.eq_of_mem_iff {ids ids' : List NodeId} (h : Ascending ids)
    (h' : Ascending ids') (hmem : ∀ id, id ∈ ids ↔ id ∈ ids') : ids = ids' := by
  refine List.Perm.eq_of_pairwise (fun a b _ _ hab hba => ?_) h h'
    ((List.perm_ext_iff_of_nodup h.nodup h'.nodup).2 hmem)
  simp [before_asymm hab] at hba

namespace Trace
variable {t : Trace} {s s' : Schedule} {states μ ν ν' : Memory} {n x : Node}
  {id m root : NodeId} {ids ks outputs : List NodeId}

/-! ## Orders that leave nodes out -/

section
variable [FloatProduct]

/-- The nodes of a closed set can be executed before the other nodes of a schedule. -/
theorem Scheduled.effects_partition (hs : t.Scheduled s) (ht : t.Reachable)
    (hstates : t.Typed states) (hμ : t.Typed μ) (hks : t.Closed {id | id ∈ ks}) :
    t.effects states μ s.nodes =
      (t.effects states μ (s.nodes.filter (· ∈ ks))).bind fun ν =>
        t.effects states ν (s.nodes.filter (· ∉ ks)) := by
  have hperm : (s.nodes.filter (· ∈ ks) ++ s.nodes.filter (· ∉ ks)).Perm s.nodes := by
    simpa using List.filter_append_perm (fun id => decide (id ∈ ks)) s.nodes
  have hfirst : t.Linearizes {id | id ∈ s.nodes}
      (s.nodes.filter (· ∈ ks) ++ s.nodes.filter (· ∉ ks)) := by
    refine ⟨hperm.mem_iff, hperm.nodup_iff.2 hs.ascending.nodup, ?_⟩
    have hrespects := (hs.linearizes ht).respects
    refine List.pairwise_append.2 ⟨hrespects.filter _, hrespects.filter _, ?_⟩
    intro a ha b hb hpred
    have ha : a ∈ ks := by simpa using (List.mem_filter.1 ha).2
    have hb : b ∉ ks := by simpa using (List.mem_filter.1 hb).2
    exact hb (hks.predecessor ha hpred)
  rw [← effects_append]
  exact ((hs.linearizes ht).legal ht hs.closed).effects_eq ht hstates hμ closed_empty
    (hfirst.legal ht hs.closed) hperm.symm

/-- The array of `root` does not depend on nodes that are left out, if none of them leaves
a value there. -/
theorem Scheduled.effects_filter (hs : t.Scheduled s) (ht : t.Reachable)
    (hstates : t.Typed states) (hμ : t.Typed μ) (hks : t.Closed {id | id ∈ ks})
    (h : t.effects states μ s.nodes = some ν)
    (hroot : ∀ id ∈ s.nodes, t.home id = root → id ∈ ks) :
    ∃ ν', t.effects states μ (s.nodes.filter (· ∈ ks)) = some ν' ∧ ν root = ν' root := by
  rw [hs.effects_partition ht hstates hμ hks] at h
  obtain ⟨ν', hν', hrest⟩ := Option.bind_eq_some_iff.1 h
  refine ⟨ν', hν', effects_of_ne hrest fun id hid n hn he => ?_⟩
  obtain ⟨hmem, hnot⟩ := List.mem_filter.1 hid
  refine absurd (hroot id hmem ?_) (by simpa using hnot)
  rw [home_of_node? ht.wellFormed hn, he]

/-- Two schedules with the same nodes for an array leave it the same. -/
theorem Scheduled.effects_agree (hs : t.Scheduled s) (hs' : t.Scheduled s') (ht : t.Reachable)
    (hstates : t.Typed states) (hμ : t.Typed μ) (h : t.effects states μ s.nodes = some ν)
    (h' : t.effects states μ s'.nodes = some ν')
    (hroot : ∀ id, t.home id = root → (id ∈ s.nodes ↔ id ∈ s'.nodes)) : ν root = ν' root := by
  obtain ⟨ν₁, hν₁, he⟩ := hs.effects_filter ht hstates hμ hs'.closed h
    fun id hid hhome => (hroot id hhome).1 hid
  obtain ⟨ν₂, hν₂, he'⟩ := hs'.effects_filter ht hstates hμ hs.closed h'
    fun id hid hhome => (hroot id hhome).2 hid
  have hlists : s.nodes.filter (· ∈ s'.nodes) = s'.nodes.filter (· ∈ s.nodes) :=
    NodeId.Ascending.eq_of_mem_iff (hs.ascending.filter _) (hs'.ascending.filter _) fun id => by
      simp [and_comm]
  rw [hlists, hν₂] at hν₁
  cases hν₁
  rw [he, he']

end

/-! ## Creation order -/

/-- The nodes up to a given one in creation order. -/
def upTo (t : Trace) (id : NodeId) : List NodeId := t.created.filter fun x => x.index ≤ id.index

/-- The assignments into an array in creation order. -/
def assignmentsTo (t : Trace) (root : NodeId) : List NodeId :=
  (t.nodes.filter fun n => n.target? = some root).map Node.id

/-- The array of `root` right after the last of the listed nodes that assigns into it, when
all nodes are executed in creation order. It is the array at the start if none does. -/
def arrayAfter [FloatProduct] (t : Trace) (states values : Store) (ids : List NodeId)
    (root : NodeId) : Option Tensor :=
  match ((t.assignmentsTo root).filter (· ∈ ids)).getLast? with
  | some m => (t.execute states values (t.upTo m)).toOption.bind fun μ => μ.get? root
  | none => if (t.node? root).any Node.isState then states.get? root else values.get? root

theorem WellFormed.mem_upTo (ht : t.WellFormed) :
    id ∈ t.upTo m ↔ t.contains id = true ∧ id.index ≤ m.index := by
  rw [upTo, List.mem_filter, ht.mem_created, decide_eq_true_eq]

/-- The nodes up to a given one are a schedule. -/
theorem Reachable.scheduled_upTo (ht : t.Reachable) (m : NodeId) :
    t.Scheduled ⟨t.upTo m, []⟩ where
  ascending := ht.wellFormed.ascending_created.filter _
  known hid := (ht.wellFormed.mem_upTo.1 hid).1
  predecessor hid hp := by
    obtain ⟨hknown, hlt⟩ := ht.predecessor_lt hp
    exact ht.wellFormed.mem_upTo.2
      ⟨hknown, Nat.le_trans (Nat.le_of_lt hlt) (ht.wellFormed.mem_upTo.1 hid).2⟩
  output_mem := nofun

theorem mem_assignmentsTo : id ∈ t.assignmentsTo root ↔
    ∃ n ∈ t.nodes, n.id = id ∧ n.target? = some root := by
  rw [assignmentsTo, List.mem_map]
  refine exists_congr fun n => ?_
  rw [List.mem_filter, decide_eq_true_eq]
  tauto

theorem WellFormed.ascending_assignmentsTo (ht : t.WellFormed) (root : NodeId) :
    NodeId.Ascending (t.assignmentsTo root) :=
  List.pairwise_map.2 (ht.increasing.filter _)

/-- An array belongs to itself and to the assignments into it. -/
theorem WellFormed.home_eq_iff (ht : t.WellFormed) (hroot : t.home root = root) :
    t.home id = root ↔ id = root ∨ id ∈ t.assignmentsTo root := by
  rw [mem_assignmentsTo]
  constructor
  · intro hhome
    cases hn : t.node? id with
    | none =>
      rw [home, hn] at hhome
      exact .inl hhome
    | some n =>
      obtain rfl := ht.id_of_node? hn
      cases htarget : n.target? with
      | none =>
        rw [home, hn, Option.bind_some, htarget] at hhome
        exact .inl hhome
      | some target =>
        rw [home, hn, Option.bind_some, htarget] at hhome
        exact .inr ⟨n, mem_of_node? hn, rfl, htarget.trans (congrArg some hhome)⟩
  · rintro (rfl | ⟨n, hn, rfl, htarget⟩)
    · exact hroot
    · rw [home_id ht hn, Node.dest, htarget]
      rfl

theorem WellFormed.contains_of_mem_assignmentsTo (ht : t.WellFormed)
    (h : id ∈ t.assignmentsTo root) : t.contains id = true := by
  obtain ⟨n, hn, rfl, -⟩ := mem_assignmentsTo.1 h
  exact ht.contains_id hn

/-- An assignment that is kept keeps the earlier ones into the same array. -/
theorem Scheduled.mem_of_assignment (hs : t.Scheduled s) (ht : t.Reachable) {a b : NodeId}
    (ha : a ∈ t.assignmentsTo root) (hb : b ∈ t.assignmentsTo root) (hlt : a.index < b.index)
    (hmem : b ∈ s.nodes) : a ∈ s.nodes := by
  obtain ⟨x, hx, rfl, hxroot⟩ := mem_assignmentsTo.1 ha
  obtain ⟨y, hy, rfl, hyroot⟩ := mem_assignmentsTo.1 hb
  exact hs.closed.mem_of_before (fun p hp => hs.predecessor hmem hp)
    (ht.assignments_ordered hx hy hxroot hyroot hlt)

/-- The kept assignments into an array are the first ones. -/
theorem Scheduled.prefix_assignmentsTo (hs : t.Scheduled s) (ht : t.Reachable) (root : NodeId) :
    (t.assignmentsTo root).filter (· ∈ s.nodes) <+: t.assignmentsTo root := by
  have hdown : (t.assignmentsTo root).Pairwise fun a b => b ∈ s.nodes → a ∈ s.nodes :=
    List.Pairwise.imp_of_mem (fun {a b} ha hb hab hmem => hs.mem_of_assignment ht ha hb
        ((before_iff_index_lt (ht.wellFormed.contains_of_mem_assignmentsTo ha)
          (ht.wellFormed.contains_of_mem_assignmentsTo hb)).1 hab) hmem)
      (ht.wellFormed.ascending_assignmentsTo root)
  generalize t.assignmentsTo root = ids at hdown
  induction ids with
  | nil => exact List.prefix_rfl
  | cons a ids ih =>
    obtain ⟨ha, hrest⟩ := List.pairwise_cons.1 hdown
    by_cases hmem : a ∈ s.nodes
    · rw [List.filter_cons_of_pos (by simpa using hmem)]
      exact (List.prefix_cons_inj a).2 (ih hrest)
    · rw [List.filter_eq_nil_iff.2]
      · exact List.nil_prefix
      · intro b hb
        rcases List.mem_cons.1 hb with rfl | hb
        · simpa using hmem
        · simpa using fun hb' => hmem (ha b hb hb')

theorem index_le_getLast {ids : List NodeId}
    (h : NodeId.Ascending ids) (hknown : ∀ id ∈ ids, t.contains id = true)
    (hlast : ids.getLast? = some m) (hid : id ∈ ids) : id.index ≤ m.index := by
  obtain ⟨rest, rfl⟩ := List.getLast?_eq_some_iff.1 hlast
  rcases List.mem_append.1 hid with hrest | hm
  · exact Nat.le_of_lt ((before_iff_index_lt (hknown id hid) (hknown m (by simp))).1
      ((List.pairwise_append.1 h).2.2 id hrest m List.mem_cons_self))
  · rw [List.mem_singleton.1 hm]

/-- Placeholders and variables wait for nothing. -/
theorem Reachable.predecessors_of_isStorage (ht : t.Reachable) (hn : n ∈ t.nodes)
    (h : n.isStorage = true) : t.predecessors n.id = [] := by
  rw [List.eq_nil_iff_forall_not_mem]
  intro p hp
  obtain ⟨id, name, type, kind⟩ := n
  have hleaf : Node.inputs ⟨id, name, type, kind⟩ = [] ∧
      Node.target? ⟨id, name, type, kind⟩ = none ∧ t.reads ⟨id, name, type, kind⟩ = [] ∧
      Node.write? ⟨id, name, type, kind⟩ = none := by
    cases kind <;> first | exact ⟨rfl, rfl, rfl, rfl⟩ | cases h
  obtain ⟨hinputs, htarget, hreads, hwrite⟩ := hleaf
  rcases List.mem_append.1 hp with hp | hp
  · rw [inputs_of_node? (ht.wellFormed.node?_id hn), hinputs] at hp
    cases hp
  · obtain ⟨x, ⟨root, ⟨r, hr⟩ | htouch, -⟩ | ⟨root, r, w, hw, -⟩, -⟩ :=
      (ht.faithful.control_iff hn).1 hp
    · rw [hreads] at hr
      cases hr
    · rw [htarget] at htouch
      cases htouch
    · rw [hwrite] at hw
      cases hw

/-! ## Arrays after assignments -/

/-- Whether a node has a value of its own, as operations and constants do. -/
def computed (t : Trace) (id : NodeId) : Bool :=
  (t.node? id).any fun n => n.kind matches .apply .. | .constant _

/-- Executing a placeholder or variable leaves what it starts from. -/
theorem effect_of_isStorage [FloatProduct] (hstorage : n.isStorage = true)
    (h : t.effect states μ n = some ν) :
    ν n.id = if n.isState = true then states n.id else μ n.id := by
  obtain ⟨v, hv, rfl⟩ := Option.map_eq_some_iff.1 h
  obtain ⟨id, name, type, kind⟩ := n
  cases kind with
  | placeholder => exact (Function.update_self _ _ _).trans (Option.some.inj hv).symm
  | state initial =>
    obtain ⟨w, hw, rfl⟩ := Option.map_eq_some_iff.1 hv
    exact (Function.update_self _ _ _).trans hw.symm
  | _ => cases hstorage

theorem Scheduled.legal (hs : t.Scheduled s) (ht : t.Reachable) : t.Legal ∅ s.nodes :=
  (hs.linearizes ht).legal ht hs.closed

theorem Scheduled.exists_effects [FloatProduct] (hs : t.Scheduled s) (ht : t.Reachable)
    (he : t.Executable) (hsupplied : t.Supplied s.nodes states μ) :
    ∃ ν, t.effects states μ s.nodes = some ν ∧ t.Filled {id | id ∈ s.nodes} ν := by
  have hempty : t.Filled ∅ μ := fun n _ hn => absurd hn (Set.notMem_empty _)
  simpa using (hs.legal ht).exists_effects ht.wellFormed he hempty hsupplied

/-- The scheduled nodes leave the value of an operation or a constant as it is when all nodes
are executed. -/
theorem Scheduled.effects_created_eq [FloatProduct] (hs : t.Scheduled s) (ht : t.Reachable)
    (hstates : t.Typed states) (hμ : t.Typed μ) (h : t.effects states μ s.nodes = some ν)
    (h' : t.effects states μ t.created = some ν') (hn : n ∈ t.nodes)
    (htarget : n.target? = none) (hstorage : n.isStorage = false) (hmem : n.id ∈ s.nodes) :
    ν' n.id = ν n.id := by
  have hhome : t.home n.id = n.id := by rw [home_id ht.wellFormed hn, Node.dest, htarget]; rfl
  refine ht.scheduled_created.effects_agree hs ht hstates hμ h' h fun id hid => ?_
  rcases (ht.wellFormed.home_eq_iff hhome).1 hid with rfl | hid
  · exact iff_of_true (ht.wellFormed.mem_created.2 (ht.wellFormed.contains_id hn)) hmem
  · obtain ⟨x, hx, rfl, hxtarget⟩ := mem_assignmentsTo.1 hid
    obtain ⟨y, hy, hystorage, -⟩ := isStorage_of_target ht.wellFormed hx hxtarget
    rw [ht.wellFormed.node?_id hn] at hy
    cases hy
    rw [hstorage] at hystorage
    cases hystorage

section
variable [FloatProduct] {contents values : Store}
  (hs : t.Scheduled s) (ht : t.Reachable) (he : t.Executable)
  (hcontents : t.Typed contents.get?) (hvalues : t.Typed values.get?)
  (hsupplied : t.Supplied t.created contents.get? values.get?)
include hs ht he hcontents hvalues hsupplied

theorem Scheduled.arrayAfter_eq_of_assigned
    (h : t.effects contents.get? values.get? s.nodes = some ν) (hn : n ∈ t.nodes)
    (hstorage : n.isStorage = true) (hmem : n.id ∈ s.nodes)
    (hlast : ((t.assignmentsTo n.id).filter (· ∈ s.nodes)).getLast? = some m) :
    t.arrayAfter contents values s.nodes n.id = ν n.id := by
  have hhome : t.home n.id = n.id :=
    (home_id ht.wellFormed hn).trans (Node.dest_of_isStorage hstorage)
  obtain ⟨hm, hmem'⟩ : m ∈ t.assignmentsTo n.id ∧ m ∈ s.nodes := by
    simpa using List.mem_filter.1 (List.mem_of_getLast? hlast)
  have hle : ∀ id ∈ t.assignmentsTo n.id, id ∈ s.nodes → id.index ≤ m.index := by
    intro id hid hscheduled
    refine index_le_getLast (t := t)
      ((ht.wellFormed.ascending_assignmentsTo n.id).filter _) (fun x hx => ?_) hlast
      (List.mem_filter.2 ⟨hid, by simpa using hscheduled⟩)
    exact ht.wellFormed.contains_of_mem_assignmentsTo (List.mem_of_mem_filter hx)
  have hupTo := ht.scheduled_upTo m
  obtain ⟨ν', hν', -⟩ := hupTo.exists_effects ht he
    (hsupplied.mono fun id hid => ht.wellFormed.mem_created.2 (hupTo.known hid))
  have hexecute : (t.execute contents values (t.upTo m)).toOption.map Store.get? = some ν' :=
    (ht.wellFormed.toOption_execute _ _ _).trans hν'
  obtain ⟨final, hfinal, rfl⟩ := Option.map_eq_some_iff.1 hexecute
  simp only [arrayAfter, hlast, hfinal, Option.bind_some]
  -- the nodes up to the last assignment and the scheduled ones have the same nodes of the array
  refine hupTo.effects_agree hs ht hcontents hvalues hν' h fun id hid => ?_
  rcases (ht.wellFormed.home_eq_iff hhome).1 hid with rfl | hid
  · refine iff_of_true (ht.wellFormed.mem_upTo.2 ⟨ht.wellFormed.contains_id hn, ?_⟩) hmem
    obtain ⟨x, hx, rfl, htarget⟩ := mem_assignmentsTo.1 hm
    have hinput : n.id ∈ t.inputs x.id :=
      inputs_of_node? (ht.wellFormed.node?_id hx) ▸ input_of_target htarget
    exact Nat.le_of_lt (ht.wellFormed.input_lt hinput).2
  · refine ⟨fun hup => ?_, fun hscheduled => ht.wellFormed.mem_upTo.2
      ⟨ht.wellFormed.contains_of_mem_assignmentsTo hid, hle id hid hscheduled⟩⟩
    rcases Nat.eq_or_lt_of_le (ht.wellFormed.mem_upTo.1 hup).2 with he | hlt
    · obtain ⟨x, hx, rfl, -⟩ := mem_assignmentsTo.1 hid
      obtain ⟨y, hy, rfl, -⟩ := mem_assignmentsTo.1 hm
      exact ht.wellFormed.eq_of_index hx hy he ▸ hmem'
    · exact hs.mem_of_assignment ht hid hm hlt hmem'

theorem Scheduled.arrayAfter_eq_of_unassigned
    (h : t.effects contents.get? values.get? s.nodes = some ν) (hn : n ∈ t.nodes)
    (hstorage : n.isStorage = true) (hmem : n.id ∈ s.nodes)
    (hlast : ((t.assignmentsTo n.id).filter (· ∈ s.nodes)).getLast? = none) :
    t.arrayAfter contents values s.nodes n.id = ν n.id := by
  have hhome : t.home n.id = n.id :=
    (home_id ht.wellFormed hn).trans (Node.dest_of_isStorage hstorage)
  have hunassigned : ∀ id ∈ t.assignmentsTo n.id, id ∉ s.nodes := by
    simpa [List.filter_eq_nil_iff] using List.getLast?_eq_none_iff.1 hlast
  have hself : t.Scheduled ⟨[n.id], []⟩ := by
    refine ⟨⟨List.pairwise_singleton _ _, fun hid => ?_, fun hid hp => ?_⟩, nofun⟩
    · exact List.mem_singleton.1 hid ▸ ht.wellFormed.contains_id hn
    · rw [List.mem_singleton.1 hid, ht.predecessors_of_isStorage hn hstorage] at hp
      cases hp
  obtain ⟨ν', hν', -⟩ := hself.exists_effects ht he
    (hsupplied.mono fun id hid => ht.wellFormed.mem_created.2 (hself.known hid))
  rw [← hself.effects_agree hs ht hcontents hvalues hν' h fun id hid => ?_]
  · simp only [effects_cons, effects_nil, ht.wellFormed.node?_id hn, Option.bind_some,
      Option.bind_fun_some] at hν'
    simp only [arrayAfter, hlast, ht.wellFormed.node?_id hn, Option.any_some]
    exact (effect_of_isStorage hstorage hν').symm
  · rcases (ht.wellFormed.home_eq_iff hhome).1 hid with rfl | hid
    · exact iff_of_true List.mem_cons_self hmem
    · refine iff_of_false (fun hself => ?_) (hunassigned id hid)
      obtain ⟨x, hx, rfl, hxtarget⟩ := mem_assignmentsTo.1 hid
      obtain rfl := ht.wellFormed.eq_of_id_eq hx hn (List.mem_singleton.1 hself)
      rw [Node.target?_of_isStorage hstorage] at hxtarget
      cases hxtarget

/-- The scheduled nodes leave an array as it is after the last scheduled assignment into it,
when all nodes are executed. -/
theorem Scheduled.arrayAfter_eq (h : t.effects contents.get? values.get? s.nodes = some ν)
    (hn : n ∈ t.nodes) (hstorage : n.isStorage = true) (hmem : n.id ∈ s.nodes) :
    t.arrayAfter contents values s.nodes n.id = ν n.id := by
  cases hlast : ((t.assignmentsTo n.id).filter (· ∈ s.nodes)).getLast? with
  | some m =>
    exact hs.arrayAfter_eq_of_assigned ht he hcontents hvalues hsupplied h hn hstorage hmem hlast
  | none =>
    exact hs.arrayAfter_eq_of_unassigned ht he hcontents hvalues hsupplied h hn hstorage hmem hlast

/-- What the scheduled nodes leave for one of them, in terms of executing all nodes. -/
theorem Scheduled.effects_home_eq (h : t.effects contents.get? values.get? s.nodes = some ν)
    {μ : Store} (hμ : t.execute contents values t.created = .ok μ) (hid : id ∈ s.nodes) :
    (if t.computed id then μ.get? id else t.arrayAfter contents values s.nodes (t.home id)) =
      ν (t.home id) := by
  have hwf := ht.wellFormed
  obtain ⟨n, hnode⟩ := exists_node_of_contains (hs.known hid)
  have hn := mem_of_node? hnode
  obtain rfl := hwf.id_of_node? hnode
  have harray : ∀ x ∈ t.nodes, x.isStorage = true → x.id ∈ s.nodes → n.dest = x.id →
      t.arrayAfter contents values s.nodes (t.home n.id) = ν (t.home n.id) := by
    intro x hx hstorage hmem hdest
    rw [home_id hwf hn, hdest]
    exact hs.arrayAfter_eq ht he hcontents hvalues hsupplied h hx hstorage hmem
  have hvalue : n.target? = none → n.isStorage = false → μ.get? n.id = ν (t.home n.id) := by
    intro htarget hstorage
    have hexecute : t.effects contents.get? values.get? t.created = some μ.get? := by
      rw [← hwf.toOption_execute, hμ]
      rfl
    rw [home_id hwf hn, Node.dest, htarget]
    exact hs.effects_created_eq ht hcontents hvalues h hexecute hn htarget hstorage hid
  rw [computed, hnode, Option.any_some]
  cases hk : n.kind with
  | apply op inputs | constant value =>
    exact hvalue (by simp [Node.target?, hk]) (by simp [Node.isStorage, hk])
  | assign target selection value =>
    have htarget : n.target? = some target := by simp [Node.target?, hk]
    obtain ⟨x, hx, hstorage, -⟩ := isStorage_of_target hwf hn htarget
    obtain rfl := hwf.id_of_node? hx
    refine harray x (mem_of_node? hx) hstorage ?_ (by rw [Node.dest, htarget]; rfl)
    exact hs.input_mem hid (inputs_of_node? hnode ▸ input_of_target htarget)
  | placeholder | state initial =>
    have hstorage : n.isStorage = true := by simp [Node.isStorage, hk]
    exact harray n hn hstorage hid (Node.dest_of_isStorage hstorage)

/-- What the scheduled nodes answer, on memories that agree with the given values. -/
theorem Scheduled.answer_eq_execute {α : Memory}
    (hstates : ∀ n ∈ t.nodes, n.id ∈ s.nodes → n.isState = true →
      contents.get? n.id = states n.id)
    (hinputs : ∀ n ∈ t.nodes, n.id ∈ s.nodes → n.isPlaceholder = true →
      values.get? n.id = α n.id) :
    ∃ r μ, t.answer s states α = some r ∧ t.execute contents values t.created = .ok μ ∧
      List.Forall₂ (fun o v => some v =
        if t.computed o then μ.get? o else t.arrayAfter contents values s.nodes (t.home o))
        s.outputs r.1 ∧
      ∀ n ∈ t.nodes, n.id ∈ s.nodes → n.isState = true →
        r.2 n.id = t.arrayAfter contents values s.nodes n.id := by
  have hwf := ht.wellFormed
  obtain ⟨ν, hν, hfilled⟩ := hs.exists_effects ht he
    (hsupplied.mono fun id hid => hwf.mem_created.2 (hs.known hid))
  obtain ⟨ν', hν', hagree⟩ := (hs.legal ht).effects_agree hwf hstates hinputs
    (fun id hid => absurd hid (Set.notMem_empty _)) hν
  obtain ⟨ρ, hρ, -⟩ := ht.scheduled_created.exists_effects ht he hsupplied
  obtain ⟨μ, hμ, -⟩ := Option.map_eq_some_iff.1
    ((hwf.toOption_execute contents values t.created).trans hρ)
  have hμ := toOption_eq_some.1 hμ
  have hresults : ∀ o ∈ s.outputs, ∃ v, ν' (t.home o) = some v := by
    intro o ho
    have hmem := hs.output_mem ho
    obtain ⟨n, hnode⟩ := exists_node_of_contains (hs.known hmem)
    obtain rfl := hwf.id_of_node? hnode
    obtain ⟨v, hv, -⟩ := hfilled n (mem_of_node? hnode) hmem
    exact ⟨v, by rw [← hagree n.id (.inr hmem), home_id hwf (mem_of_node? hnode), hv]⟩
  obtain ⟨results, hmapM⟩ := exists_mapM_eq_some hresults
  refine ⟨(results, fun id => (states id).map fun old => (ν' id).getD old), μ, ?_, hμ, ?_, ?_⟩
  · simp only [answer, hν', hmapM, Option.bind_eq_bind, Option.bind_some]
    rfl
  · refine ((List.forall₂_and_left s.outputs results).2
      ⟨fun o ho => hs.output_mem ho, mapM_eq_some.1 hmapM⟩).imp ?_
    rintro o v ⟨hmem, hv⟩
    rw [hs.effects_home_eq ht he hcontents hvalues hsupplied hν hμ hmem, hagree o (.inr hmem), hv]
  · intro n hn hmem hstate
    have hstorage := Node.isStorage_of_isState hstate
    have hdest : n.dest = n.id := Node.dest_of_isStorage hstorage
    have hhome : t.home n.id = n.id := (home_id hwf hn).trans hdest
    obtain ⟨v, hv, -⟩ := hsupplied.state n hn (hwf.mem_created.2 (hwf.contains_id hn)) hstate
    obtain ⟨w, hw, -⟩ := hfilled n hn hmem
    have hw' : ν' n.id = some w := by
      rw [← hw, hdest, ← hhome, hagree n.id (.inr hmem), hhome]
    have hafter : (states n.id).map (fun old => (ν' n.id).getD old) = some w := by
      rw [← hstates n hn hmem hstate, hv, hw']
      rfl
    rw [hs.arrayAfter_eq ht he hcontents hvalues hsupplied hν hn hstorage hmem, ← hdest, hw]
    exact hdest.symm ▸ hafter

end

/-! ## Calls -/

/-- Values for every variable and every placeholder of the trace, among them those that a
machine holds and the arguments of a call. -/
structure Completes (t : Trace) (m : Machine) (args : List Tensor) (contents values : Store) :
    Prop where
  typed_contents : t.Typed contents.get?
  typed_values : t.Typed values.get?
  state : ∀ n ∈ t.nodes, n.isState = true → contents.get? n.id ≠ none
  placeholder : ∀ n ∈ t.nodes, n.isPlaceholder = true → values.get? n.id ≠ none
  held : ∀ id v, m.states.get? id = some v → contents.get? id = some v
  passed : ∀ decl v, (decl, v) ∈ m.signature.parameters.zip args →
    ∀ n ∈ t.nodes, n.name = decl.name → values.get? n.id = some v

theorem Completes.supplied {m : Machine} {args : List Tensor} {contents values : Store}
    (h : t.Completes m args contents values) :
    t.Supplied ids contents.get? values.get? where
  state n hn _ hstate := by
    obtain ⟨v, hv⟩ := Option.ne_none_iff_exists'.1 (h.state n hn hstate)
    exact ⟨v, hv, h.typed_contents n hn (Node.isStorage_of_isState hstate) v hv⟩
  placeholder n hn _ hplaceholder := by
    obtain ⟨v, hv⟩ := Option.ne_none_iff_exists'.1 (h.placeholder n hn hplaceholder)
    exact ⟨v, hv, h.typed_values n hn (Node.isStorage_of_isPlaceholder hplaceholder) v hv⟩

/-- Calling an unfused program succeeds, and gives what executing all nodes of the trace in
creation order gives: for an operation or a constant its value, for any other node the array
it belongs to, right after the last assignment into it that the program executes. The
program's variables are left that way too, and for each array the program executes the
first assignments into it. -/
theorem Reachable.call_eq_execute [FloatProduct] (ht : t.Reachable) (he : t.Executable)
    (houtputs : ∀ o ∈ outputs, t.contains o = true) {unitName : String}
    (hname : isIdentifier unitName = true) :
    let ids := t.needed outputs
    ∃ p, t.compile outputs { fuse := false, unitName } = .ok p ∧
      ∀ (m : Machine) (args : List Tensor) (contents values : Store), m.program = p →
        Holds p.nodes m.states.get? → p.signature.checkArguments args = .ok () →
        t.Completes m args contents values →
        ∃ results m' μ, m.call args = .ok (results, m') ∧
          t.execute contents values t.created = .ok μ ∧
          List.Forall₂ (fun o v => some v =
            if t.computed o then μ.get? o else t.arrayAfter contents values ids (t.home o))
            outputs results ∧
          m'.program = p ∧ Holds p.nodes m'.states.get? ∧
          (∀ n ∈ p.nodes, n.isState = true →
            m'.states.get? n.id = t.arrayAfter contents values ids n.id) ∧
          ∀ root, (t.assignmentsTo root).filter (· ∈ ids) <+: t.assignmentsTo root := by
  intro ids
  have hs := ht.scheduled_needed houtputs
  obtain ⟨p, hp, hcompiled⟩ := ht.compile_eq_ok houtputs { fuse := false, unitName }
    rfl hname
  refine ⟨p, hp, ?_⟩
  rintro m args contents values rfl hholds hargs hcompletes
  have hwf := ht.wellFormed
  have hnodes := hcompiled.mem_trace hwf
  have haccepts := (checkArguments_eq_ok hcompiled.parameters_eq).1 hargs
  have hstates : ∀ n ∈ t.nodes, n.id ∈ ids → n.isState = true →
      contents.get? n.id = m.states.get? n.id := by
    intro n hn hid hstate
    obtain ⟨v, hv⟩ := Option.ne_none_iff_exists'.1
      ((hholds.ne_none_iff n.id).2 ⟨n, (hcompiled.mem_nodes hwf).2 ⟨hn, hid⟩, rfl, hstate⟩)
    rw [hv, hcompletes.held _ _ hv]
  have hinputs : ∀ n ∈ t.nodes, n.id ∈ ids → n.isPlaceholder = true →
      values.get? n.id = argMemory (t.passed (t.planOf ⟨ids, outputs⟩ false)) args n.id := by
    intro n hn hid hplaceholder
    obtain ⟨v, hv, hbound⟩ := exists_argMemory_eq haccepts.length_eq (nodup_map_id_distinct _)
      ((mem_passed_planOf ht hs false).2 ⟨hn, hid, hplaceholder⟩)
    rw [hbound]
    refine hcompletes.passed n.decl v ?_ n hn rfl
    have hparameters : m.signature.parameters = _ := hcompiled.parameters_eq
    rw [hparameters, List.zip_map_left]
    exact List.mem_map.2 ⟨(n, v), hv, rfl⟩
  obtain ⟨r, μ, hanswer, hμ, houts, hvariables⟩ := hs.answer_eq_execute ht he
    hcompletes.typed_contents hcompletes.typed_values hcompletes.supplied hstates hinputs
  have htyped : t.Typed (argMemory (t.passed (t.planOf ⟨ids, outputs⟩ false)) args) :=
    typed_argMemory hwf (fun n hn => ((mem_passed_planOf ht hs false).1 hn).1) haccepts
  have hcall := toOption_call ht hs hcompiled (hholds.typed hwf hnodes)
    (hholds.hidden hwf hnodes hs false) haccepts
  rw [hanswer] at hcall
  obtain ⟨⟨results, m'⟩, hr, rfl⟩ := Option.map_eq_some_iff.1 hcall
  have hr := toOption_eq_some.1 hr
  refine ⟨results, m', μ, hr, hμ, houts, program_of_call hr,
    hholds.answer hwf hnodes htyped hanswer, fun n hn hstate => ?_, hs.prefix_assignmentsTo ht⟩
  obtain ⟨hmem, hid⟩ := (hcompiled.mem_nodes hwf).1 hn
  exact hvariables n hmem hid hstate

/-- A variable into which the second element of the input is assigned twice. -/
def recorded : Trace :=
  [Call.placeholder "x" [2] .i64, .state "level" (.vector .i64 [7, 8]),
    .apply (.slice [.range 1 2 1]) [⟨0, 0⟩], .assign ⟨0, 1⟩ [.range 0 1 1] ⟨0, 2⟩,
    .assign ⟨0, 1⟩ [.range 1 2 1] ⟨0, 2⟩].foldl Trace.after { id := 0 }

/-- The second assignment is not needed, and the variable keeps its second element. -/
theorem call_eq_execute_recorded :
    ∃ p m', recorded.compile [⟨0, 3⟩, ⟨0, 2⟩] { fuse := false } = .ok p ∧
      p.start.call [.vector .i64 [1, 2]] =
        .ok ([.vector .i64 [2, 8], .vector .i64 [2]], m') ∧
      m'.states.get? ⟨0, 1⟩ = some (.vector .i64 [2, 8]) := by
  let contents : Store := ⟨[(⟨0, 1⟩, .vector .i64 [7, 8])]⟩
  let values : Store := ⟨[(⟨0, 0⟩, .vector .i64 [1, 2])]⟩
  have ht : recorded.Reachable := .calls (.start 0 {}) _
  have houtputs : ∀ o ∈ [(⟨0, 3⟩ : NodeId), ⟨0, 2⟩], recorded.contains o = true := by decide
  have hname : isIdentifier "jit_unit" = true := by decide
  obtain ⟨p, hp, hall⟩ := Reachable.call_eq_execute ht ⟨rfl, by decide⟩ houtputs hname
  have hcompiled := ht.compiled houtputs rfl hname hp
  have hparameters : p.signature.parameters = [⟨"x", [2], .i64⟩] := hcompiled.parameters_eq
  have hinitial : p.initialStates = contents := by
    rw [Program.initialStates, hcompiled.nodes_eq]
    rfl
  have hcompletes : recorded.Completes p.start [.vector .i64 [1, 2]] contents values := {
    typed_contents := typed_of_entries (by decide)
    typed_values := typed_of_entries (by decide)
    state := by decide
    placeholder := by decide
    held := fun id v hv => hinitial ▸ hv
    passed := by
      intro decl v hv n hn hname
      have hnames : ∀ n ∈ recorded.nodes, n.name = "x" → n.id = ⟨0, 0⟩ := by decide
      rw [Machine.signature, Program.start, hparameters] at hv
      obtain ⟨rfl, rfl⟩ : decl = _ ∧ v = _ := by simpa using hv
      rw [hnames n hn hname]
      rfl }
  obtain ⟨results, m', μ, hcall, hμ, houts, -, -, hvariables, -⟩ :=
    hall p.start [.vector .i64 [1, 2]] contents values rfl
      (.start ht.wellFormed (hcompiled.mem_trace ht.wellFormed))
      ((checkArguments_eq_ok hcompiled.parameters_eq).2 (.cons rfl .nil)) hcompletes
  have harray : recorded.arrayAfter contents values (recorded.needed [⟨0, 3⟩, ⟨0, 2⟩]) ⟨0, 1⟩ =
      some (.vector .i64 [2, 8]) := by rfl
  have hslice : (recorded.execute contents values recorded.created).toOption.bind
      (fun μ => μ.get? ⟨0, 2⟩) = some (.vector .i64 [2]) := by rfl
  rw [hμ] at hslice
  rcases houts with _ | ⟨hfirst, _ | ⟨hsecond, _ | _⟩⟩
  obtain rfl := Option.some.inj (hfirst.trans harray)
  obtain rfl := Option.some.inj (hsecond.trans hslice)
  obtain ⟨n, hn, hid, hstate⟩ : ∃ n ∈ recorded.nodes, n.id = ⟨0, 1⟩ ∧ n.isState = true := by
    decide
  have hmem : n ∈ p.nodes :=
    (hcompiled.mem_nodes ht.wellFormed).2 ⟨hn, hid ▸ by decide⟩
  exact ⟨p, m', hp, hcall, hid ▸ (hvariables n hmem hstate).trans (hid ▸ harray)⟩

end Trace
end ArrayTrace
