import ArrayTrace.Proofs.WellFormed
import Mathlib.Logic.Relation

/-!
# Control edges

The control edges of a reachable trace are exactly these: a node waits for the last
assignment before it of every array it reads or assigns into, and an assignment waits for
the earlier reads that it overlaps, unless an assignment in between overlaps them too. It
follows that any two accesses to one array of which one is an assignment, and that meet,
are ordered by a chain of edges.
-/

namespace ArrayTrace

/-- Every assignment that the builder has checked has a region. -/
theorem Node.write?_eq_some {n : Node} {root : NodeId} {region : Region}
    (h : n.write? = some (root, region)) : n.target? = some root := by
  obtain ⟨_, _, _, kind⟩ := n
  cases kind with
  | assign target selection value =>
    obtain ⟨w, -, hw⟩ := Option.map_eq_some_iff.1 h
    cases hw
    rfl
  | _ => cases h

namespace Trace
variable {t t' : Trace} {n x y : Node} {id root m : NodeId} {r w : Region} {i : Nat}

theorem Admits.exists_write (h : t.Admits n) (hn : n.target? = some root) :
    ∃ w, n.write? = some (root, w) := by
  obtain ⟨_, _, _, kind⟩ := n
  cases kind with
  | assign target selection value =>
    cases hn
    obtain ⟨_, _, w, -, -, -, -, hw, -⟩ := h
    exact ⟨w.region, by simp [Node.write?, hw, Except.toOption]⟩
  | _ => cases hn

/-! ## The accesses a node has to wait for -/

/-- Whether a node reads an array or assigns into it. -/
def Touches (t : Trace) (n : Node) (root : NodeId) : Prop :=
  (∃ r, (root, r) ∈ t.reads n) ∨ n.target? = some root

/-- `m` is the last of the nodes numbered below `i` that assigns into an array. -/
structure LastAssignment (t : Trace) (root : NodeId) (i : Nat) (m : Node) : Prop where
  mem : m ∈ t.nodes
  target : m.target? = some root
  lt : m.id.index < i
  last : ∀ x ∈ t.nodes, x.target? = some root → x.id.index < i → x.id.index ≤ m.id.index

/-- `m` reads a region of an array that no assignment from `m` on, numbered below `i`,
overlaps. -/
structure OpenRead (t : Trace) (root : NodeId) (r : Region) (i : Nat) (m : Node) : Prop where
  mem : m ∈ t.nodes
  reads : (root, r) ∈ t.reads m
  lt : m.id.index < i
  kept : ∀ x ∈ t.nodes, m.id.index ≤ x.id.index → x.id.index < i →
    ∀ w, x.write? = some (root, w) → r.overlaps w = false

/-- Whether node `n` must wait for node `m`, beyond its inputs. -/
def MustFollow (t : Trace) (n m : Node) : Prop :=
  (∃ root, t.Touches n root ∧ t.LastAssignment root n.id.index m) ∨
    ∃ root r w, n.write? = some (root, w) ∧ r.overlaps w = true ∧
      t.OpenRead root r n.id.index m

/-- The access logs and the control edges say what the nodes do. -/
structure Faithful (t : Trace) : Prop where
  writer_iff : ∀ {root m}, (t.log root).lastWriter = some m ↔
    ∃ x, t.LastAssignment root t.size x ∧ x.id = m
  reader_iff : ∀ {root m r}, (m, r) ∈ (t.log root).readers ↔
    ∃ x, t.OpenRead root r t.size x ∧ x.id = m
  control_iff : ∀ {n}, n ∈ t.nodes → ∀ {m}, m ∈ t.control n.id ↔
    ∃ x, t.MustFollow n x ∧ x.id = m

/-! ## Recording a node -/

namespace Adds

theorem index_new (h : t.Adds t' n) : n.id.index = t.size := by
  rw [h.id_new]

theorem size_eq (h : t.Adds t' n) : t'.size = t.size + 1 := by
  simp [← length_nodes, h.nodes_eq]

theorem reads_new (h : t.Adds t' n) : t'.reads n = t.reads n :=
  h.reads_eq h.admits.contains_input

theorem reads_old (ht : t.WellFormed) (h : t.Adds t' n) (hx : x ∈ t.nodes) :
    t'.reads x = t.reads x :=
  h.reads_eq fun i hi => (ht.input_known hx i hi).1

/-- The last assignment below a number is not affected by nodes from that number on. -/
theorem lastAssignment_iff (h : t.Adds t' n) (hi : i ≤ t.size) :
    t'.LastAssignment root i x ↔ t.LastAssignment root i x := by
  have hn := h.index_new
  constructor
  · intro hx
    have hmem : x ∈ t.nodes := (h.mem_nodes.1 hx.mem).resolve_right fun he => by
      have := hx.lt
      rw [he] at this
      omega
    exact ⟨hmem, hx.target, hx.lt, fun y hy => hx.last y (h.mem_nodes.2 (.inl hy))⟩
  · intro hx
    refine ⟨h.mem_nodes.2 (.inl hx.mem), hx.target, hx.lt, fun y hy htarget hlt => ?_⟩
    rcases h.mem_nodes.1 hy with hy | rfl
    · exact hx.last y hy htarget hlt
    · omega

theorem openRead_iff (ht : t.WellFormed) (h : t.Adds t' n) (hi : i ≤ t.size) :
    t'.OpenRead root r i x ↔ t.OpenRead root r i x := by
  have hn := h.index_new
  constructor
  · intro hx
    have hmem : x ∈ t.nodes := (h.mem_nodes.1 hx.mem).resolve_right fun he => by
      have := hx.lt
      rw [he] at this
      omega
    refine ⟨hmem, ?_, hx.lt, fun y hy => hx.kept y (h.mem_nodes.2 (.inl hy))⟩
    rw [← h.reads_old ht hmem]
    exact hx.reads
  · intro hx
    refine ⟨h.mem_nodes.2 (.inl hx.mem), ?_, hx.lt, fun y hy hle hlt => ?_⟩
    · rw [h.reads_old ht hx.mem]
      exact hx.reads
    · rcases h.mem_nodes.1 hy with hy | rfl
      · exact hx.kept y hy hle hlt
      · omega

theorem mustFollow_old (ht : t.WellFormed) (h : t.Adds t' n) (hx : x ∈ t.nodes) :
    t'.MustFollow x y ↔ t.MustFollow x y := by
  have hlt : x.id.index ≤ t.size := by
    have := (contains_iff.1 (ht.contains_id hx)).2
    omega
  simp only [MustFollow, Touches, h.reads_old ht hx, h.lastAssignment_iff hlt,
    h.openRead_iff ht hlt]

theorem mustFollow_new (ht : t.WellFormed) (h : t.Adds t' n) :
    t'.MustFollow n x ↔
      (∃ root, t.Touches n root ∧ t.LastAssignment root t.size x) ∨
        ∃ root r w, n.write? = some (root, w) ∧ r.overlaps w = true ∧
          t.OpenRead root r t.size x := by
  simp only [MustFollow, Touches, h.reads_new, h.index_new, h.lastAssignment_iff (Nat.le_refl _),
    h.openRead_iff ht (Nat.le_refl _)]

/-- The last assignment after a node has been recorded: the node itself, if it assigns into
the array, or the last one before. -/
theorem lastAssignment_succ (ht : t.WellFormed) (h : t.Adds t' n) :
    t'.LastAssignment root (t.size + 1) x ↔
      if n.target? = some root then x = n else t.LastAssignment root t.size x := by
  have hn := h.index_new
  have hold : ∀ y ∈ t.nodes, y.id.index < t.size := fun y hy =>
    (contains_iff.1 (ht.contains_id hy)).2
  split
  · rename_i htarget
    constructor
    · intro hx
      have hle := hx.last n (h.mem_nodes.2 (.inr rfl)) htarget (by omega)
      rcases h.mem_nodes.1 hx.mem with hmem | rfl
      · have := hold x hmem
        omega
      · rfl
    · rintro rfl
      refine ⟨h.mem_nodes.2 (.inr rfl), htarget, by omega, fun y hy _ hlt => by omega⟩
  · rename_i htarget
    constructor
    · intro hx
      have hmem : x ∈ t.nodes := (h.mem_nodes.1 hx.mem).resolve_right fun he =>
        htarget (he ▸ hx.target)
      exact ⟨hmem, hx.target, hold x hmem,
        fun y hy hy' hlt => hx.last y (h.mem_nodes.2 (.inl hy)) hy' (by omega)⟩
    · intro hx
      refine ⟨h.mem_nodes.2 (.inl hx.mem), hx.target, Nat.lt_succ_of_lt hx.lt,
        fun y hy hy' _ => ?_⟩
      rcases h.mem_nodes.1 hy with hy | rfl
      · exact hx.last y hy hy' (hold y hy)
      · exact absurd hy' htarget

/-- The open reads after a node has been recorded: those before and its own, unless it
overwrites them. -/
theorem openRead_succ (ht : t.WellFormed) (h : t.Adds t' n) :
    t'.OpenRead root r (t.size + 1) x ↔
      (t.OpenRead root r t.size x ∨ x = n ∧ (root, r) ∈ t.reads n) ∧
        ∀ w, n.write? = some (root, w) → r.overlaps w = false := by
  have hn := h.index_new
  have hnew : n ∈ t'.nodes := h.mem_nodes.2 (.inr rfl)
  have hold : ∀ y ∈ t.nodes, y.id.index < t.size := fun y hy =>
    (contains_iff.1 (ht.contains_id hy)).2
  constructor
  · intro hx
    have hlt := hx.lt
    refine ⟨?_, fun w hw => hx.kept n hnew (by omega) (by omega) w hw⟩
    rcases h.mem_nodes.1 hx.mem with hmem | rfl
    · refine .inl ⟨hmem, ?_, hold x hmem, fun y hy hle hy' => ?_⟩
      · rw [← h.reads_old ht hmem]
        exact hx.reads
      · exact hx.kept y (h.mem_nodes.2 (.inl hy)) hle (by omega)
    · refine .inr ⟨rfl, ?_⟩
      rw [← h.reads_new]
      exact hx.reads
  · rintro ⟨hx | ⟨rfl, hx⟩, hw⟩
    · refine ⟨h.mem_nodes.2 (.inl hx.mem), ?_, Nat.lt_succ_of_lt hx.lt, fun y hy hle _ => ?_⟩
      · rw [h.reads_old ht hx.mem]
        exact hx.reads
      · rcases h.mem_nodes.1 hy with hy | rfl
        · exact hx.kept y hy hle (hold y hy)
        · exact hw
    · refine ⟨hnew, by rwa [h.reads_new], by omega, fun y hy hle _ => ?_⟩
      rcases h.mem_nodes.1 hy with hy | rfl
      · have := hold y hy
        omega
      · exact hw

end Adds

/-! ## The logs -/

theorem lastWriter_logAfter (hn : t.Admits n) :
    (t.logAfter n root).lastWriter =
      if n.target? = some root then some n.id else (t.log root).lastWriter := by
  split
  · rename_i htarget
    obtain ⟨w, hw⟩ := hn.exists_write htarget
    simp [logAfter_of_write hw]
  · rename_i htarget
    cases hw : n.write? with
    | none => simp [logAfter_of_no_write hw, logRead]
    | some p =>
      obtain ⟨target, w⟩ := p
      have hne : target ≠ root := fun he => htarget (he ▸ Node.write?_eq_some hw)
      simp [logAfter_of_write hw, hne, logRead]

theorem mem_readers_logRead {reader : NodeId} {rs : List (NodeId × Region)} :
    (m, r) ∈ (t.logRead reader rs root).readers ↔
      (m, r) ∈ (t.log root).readers ∨ m = reader ∧ (root, r) ∈ rs := by
  simp only [logRead, List.mem_append, List.mem_map, List.mem_filter, decide_eq_true_eq,
    Prod.mk.injEq, Prod.exists]
  refine or_congr_right ⟨?_, ?_⟩
  · rintro ⟨_, _, ⟨hmem, rfl⟩, rfl, rfl⟩
    exact ⟨rfl, hmem⟩
  · rintro ⟨rfl, hmem⟩
    exact ⟨root, r, ⟨hmem, rfl⟩, rfl, rfl⟩

theorem mem_readers_logAfter :
    (m, r) ∈ (t.logAfter n root).readers ↔
      ((m, r) ∈ (t.log root).readers ∨ m = n.id ∧ (root, r) ∈ t.reads n) ∧
        ∀ w, n.write? = some (root, w) → r.overlaps w = false := by
  cases hw : n.write? with
  | none => simp [logAfter_of_no_write hw, mem_readers_logRead]
  | some p =>
    obtain ⟨target, w⟩ := p
    by_cases he : target = root
    · subst he
      simp [logAfter_of_write hw, AccessLog.mem_readers_write, mem_readers_logRead]
    · simp [logAfter_of_write hw, he, mem_readers_logRead]

/-- The nodes that a new node waits for, apart from itself. -/
theorem mem_waits :
    m ∈ (NodeId.sorted (t.waits n)).filter (· ≠ n.id) ↔ m ≠ n.id ∧
      ((∃ root r, (root, r) ∈ t.reads n ∧ (t.log root).lastWriter = some m) ∨
        ∃ root w, n.write? = some (root, w) ∧ ((t.log root).lastWriter = some m ∨
          ∃ r, r.overlaps w = true ∧ (m, r) ∈ (t.log root).readers)) := by
  simp only [List.mem_filter, NodeId.mem_sorted, decide_not, Bool.not_eq_true',
    decide_eq_false_iff_not, ne_eq, and_comm (a := m ∈ _)]
  refine and_congr_right fun hne => ?_
  simp only [waits, List.mem_append, List.mem_flatMap, Option.mem_toList, Prod.exists]
  refine or_congr_right ?_
  cases hw : n.write? with
  | none => simp
  | some p =>
    obtain ⟨target, w⟩ := p
    have hlast : (t.logRead n.id (t.reads n) target).lastWriter = (t.log target).lastWriter := rfl
    simp only [AccessLog.conflicts, hlast, List.mem_append, Option.mem_toList,
      List.mem_filter, List.mem_map, decide_not, Bool.not_eq_true', decide_eq_false_iff_not,
      Prod.exists, Option.some.injEq, Prod.mk.injEq]
    constructor
    · rintro (h | ⟨⟨_, r, ⟨hmem, hr⟩, rfl⟩, -⟩)
      · exact ⟨target, w, ⟨rfl, rfl⟩, .inl h⟩
      · have hmem := (mem_readers_logRead.1 hmem).resolve_right fun h => hne h.1
        exact ⟨target, w, ⟨rfl, rfl⟩, .inr ⟨r, hr, hmem⟩⟩
    · rintro ⟨_, _, ⟨rfl, rfl⟩, h | ⟨r, hr, hmem⟩⟩
      · exact .inl h
      · exact .inr ⟨⟨m, r, ⟨mem_readers_logRead.2 (.inl hmem), hr⟩, rfl⟩, hne⟩

theorem Faithful.adds (ht : t.WellFormed) (hf : t.Faithful) (h : t.Adds t' n) : t'.Faithful where
  writer_iff := by
    intro root m
    rw [h.log_eq, lastWriter_logAfter h.admits, h.size_eq]
    simp only [h.lastAssignment_succ ht]
    split
    · simp [eq_comm]
    · exact hf.writer_iff
  reader_iff := by
    intro root m r
    rw [h.log_eq, mem_readers_logAfter, h.size_eq]
    simp only [h.openRead_succ ht, hf.reader_iff]
    constructor
    · rintro ⟨⟨x, hx, rfl⟩ | ⟨rfl, hr⟩, hw⟩
      · exact ⟨x, ⟨.inl hx, hw⟩, rfl⟩
      · exact ⟨n, ⟨.inr ⟨rfl, hr⟩, hw⟩, rfl⟩
    · rintro ⟨x, ⟨hx | ⟨rfl, hr⟩, hw⟩, rfl⟩
      · exact ⟨.inl ⟨x, hx, rfl⟩, hw⟩
      · exact ⟨.inr ⟨rfl, hr⟩, hw⟩
  control_iff := by
    intro y hy m
    rcases h.mem_nodes.1 hy with hy | rfl
    · have hne : y.id ≠ n.id := fun he => h.not_contains_new (he ▸ ht.contains_id hy)
      rw [h.control_of_ne hne, hf.control_iff hy]
      simp only [h.mustFollow_old ht hy]
    · have hne : ∀ x ∈ t.nodes, x.id ≠ y.id := fun x hx he =>
        h.not_contains_new (he ▸ ht.contains_id hx)
      rw [h.control_self, mem_waits]
      simp only [h.mustFollow_new ht, hf.writer_iff, hf.reader_iff]
      constructor
      · rintro ⟨-, ⟨root, r, hr, x, hx, rfl⟩ | ⟨root, w, hw, ⟨x, hx, rfl⟩ | ⟨r, hr, x, hx, rfl⟩⟩⟩
        · exact ⟨x, .inl ⟨root, .inl ⟨r, hr⟩, hx⟩, rfl⟩
        · exact ⟨x, .inl ⟨root, .inr (Node.write?_eq_some hw), hx⟩, rfl⟩
        · exact ⟨x, .inr ⟨root, r, w, hw, hr, hx⟩, rfl⟩
      · rintro ⟨x, ⟨root, ⟨r, hr⟩ | htarget, hx⟩ | ⟨root, r, w, hw, hr, hx⟩, rfl⟩
        · exact ⟨hne x hx.mem, .inl ⟨root, r, hr, x, hx, rfl⟩⟩
        · obtain ⟨w, hw⟩ := h.admits.exists_write htarget
          exact ⟨hne x hx.mem, .inr ⟨root, w, hw, .inl ⟨x, hx, rfl⟩⟩⟩
        · exact ⟨hne x hx.mem, .inr ⟨root, w, hw, .inr ⟨r, hr, x, hx, rfl⟩⟩⟩

theorem Faithful.marks (hf : t.Faithful) (outputs : List NodeId) :
    Faithful { t with outputs := outputs } := by
  have hlast : ∀ root i x, LastAssignment { t with outputs := outputs } root i x ↔
      t.LastAssignment root i x := fun _ _ _ =>
    ⟨fun h => ⟨h.1, h.2, h.3, h.4⟩, fun h => ⟨h.1, h.2, h.3, h.4⟩⟩
  have hopen : ∀ root r i x, OpenRead { t with outputs := outputs } root r i x ↔
      t.OpenRead root r i x := fun _ _ _ _ =>
    ⟨fun h => ⟨h.1, h.2, h.3, h.4⟩, fun h => ⟨h.1, h.2, h.3, h.4⟩⟩
  refine ⟨?_, ?_, fun {n} hn {m} => ?_⟩
  · simp only [hlast]
    exact hf.writer_iff
  · simp only [hopen]
    exact hf.reader_iff
  · simp only [MustFollow, hlast, hopen]
    exact hf.control_iff hn

theorem Reachable.faithful (h : t.Reachable) : t.Faithful := by
  refine (h.induction (motive := Faithful) (fun id config => ?_)
    (fun ht hf hadds => hf.adds ht hadds) fun outputs hf => hf.marks outputs).2
  have hlog : ∀ root, Trace.log { id, config } root = {} := by simp [log, entry?]
  constructor
  · intro root m
    rw [hlog]
    refine ⟨fun h => by simp at h, ?_⟩
    rintro ⟨x, hx, -⟩
    simpa [nodes] using hx.mem
  · intro root m r
    rw [hlog]
    refine ⟨fun h => by simp at h, ?_⟩
    rintro ⟨x, hx, -⟩
    simpa [nodes] using hx.mem
  · intro n hn
    simp [nodes] at hn

/-! ## Conflicting accesses are ordered -/

/-- Whether a chain of edges leads from one node to another. -/
def Before (t : Trace) : NodeId → NodeId → Prop :=
  Relation.TransGen fun a b => a ∈ t.predecessors b

theorem MustFollow.mem (h : t.MustFollow n x) : x ∈ t.nodes := by
  rcases h with ⟨_, -, h⟩ | ⟨_, _, _, -, -, h⟩
  · exact h.mem
  · exact h.mem

theorem MustFollow.lt (h : t.MustFollow n x) : x.id.index < n.id.index := by
  rcases h with ⟨_, -, h⟩ | ⟨_, _, _, -, -, h⟩
  · exact h.lt
  · exact h.lt

theorem control_known (h : m ∈ t.control id) : t.contains id := by
  by_contra hid
  have hnone : t.entry? id = none := by simpa [contains, node?] using hid
  simp [control, hnone] at h

/-- Edges lead from known nodes to later ones. -/
theorem Reachable.predecessor_lt (ht : t.Reachable) (h : m ∈ t.predecessors id) :
    t.contains m ∧ m.index < id.index := by
  rcases List.mem_append.1 h with h | h
  · exact ht.wellFormed.input_lt h
  · obtain ⟨n, hn⟩ := exists_node_of_contains (control_known h)
    obtain rfl := ht.wellFormed.id_of_node? hn
    obtain ⟨x, hx, rfl⟩ := (ht.faithful.control_iff (mem_of_node? hn)).1 h
    exact ⟨ht.wellFormed.contains_id hx.mem, hx.lt⟩

theorem Before.of_input (hn : t.node? n.id = some n) (h : id ∈ n.inputs) : t.Before id n.id :=
  .single (List.mem_append_left _ (inputs_of_node? hn ▸ h))

theorem Reachable.before_of_mustFollow (ht : t.Reachable) (hn : n ∈ t.nodes)
    (h : t.MustFollow n x) : t.Before x.id n.id :=
  .single (List.mem_append_right _ ((ht.faithful.control_iff hn).2 ⟨x, h, rfl⟩))

theorem exists_lastAssignment (hx : x ∈ t.nodes) (htarget : x.target? = some root)
    (hi : x.id.index < i) : ∃ y, t.LastAssignment root i y ∧ x.id.index ≤ y.id.index := by
  induction i with
  | zero => omega
  | succ i ih =>
    by_cases h : ∃ y ∈ t.nodes, y.target? = some root ∧ y.id.index = i
    · obtain ⟨y, hy, hy', rfl⟩ := h
      exact ⟨y, ⟨hy, hy', by omega, fun z _ _ hz => by omega⟩, by omega⟩
    · have hne : ∀ y ∈ t.nodes, y.target? = some root → y.id.index ≠ i :=
        fun y hy hy' he => h ⟨y, hy, hy', he⟩
      have := hne x hx htarget
      obtain ⟨y, hy, hle⟩ := ih (by omega)
      refine ⟨y, ⟨hy.mem, hy.target, Nat.lt_succ_of_lt hy.lt, fun z hz hz' hlt => ?_⟩, hle⟩
      have := hne z hz hz'
      exact hy.last z hz hz' (by omega)

/-- A node comes after every earlier assignment into an array that it touches, given that
this holds of the assignments. -/
private theorem before_of_touches (ht : t.Reachable) (hx : x ∈ t.nodes) (hy : y ∈ t.nodes)
    (htarget : x.target? = some root) (htouches : t.Touches y root)
    (hlt : x.id.index < y.id.index)
    (hchain : ∀ z ∈ t.nodes, z.target? = some root → x.id.index < z.id.index →
      z.id.index < y.id.index → t.Before x.id z.id) : t.Before x.id y.id := by
  obtain ⟨z, hz, hle⟩ := exists_lastAssignment hx htarget hlt
  have hzy : t.Before z.id y.id := ht.before_of_mustFollow hy (.inl ⟨root, htouches, hz⟩)
  rcases Nat.eq_or_lt_of_le hle with he | hlt'
  · obtain rfl := ht.wellFormed.eq_of_index hx hz.mem he
    exact hzy
  · exact (hchain z hz.mem hz.target hlt' hz.lt).trans hzy

/-- The assignments into one array form a chain. -/
theorem Reachable.assignments_ordered (ht : t.Reachable) (hx : x ∈ t.nodes) (hy : y ∈ t.nodes)
    (hxroot : x.target? = some root) (hyroot : y.target? = some root)
    (hlt : x.id.index < y.id.index) : t.Before x.id y.id := by
  induction hk : y.id.index using Nat.strongRecOn generalizing y with
  | ind k ih =>
    subst hk
    exact before_of_touches ht hx hy hxroot (.inr hyroot) hlt
      fun z hz hzroot hxz hzy => ih _ hzy hz hzroot hxz rfl

/-- A read comes after every earlier assignment into the array, whatever their regions. -/
theorem Reachable.assignment_before_read (ht : t.Reachable) (hx : x ∈ t.nodes)
    (hy : y ∈ t.nodes) (hxroot : x.target? = some root) (hread : (root, r) ∈ t.reads y)
    (hlt : x.id.index < y.id.index) : t.Before x.id y.id :=
  before_of_touches ht hx hy hxroot (.inl ⟨r, hread⟩) hlt
    fun _ hz hzroot hxz _ => ht.assignments_ordered hx hz hxroot hzroot hxz

/-- A read comes before every later assignment that overlaps it. -/
theorem Reachable.read_before_assignment (ht : t.Reachable) (hx : x ∈ t.nodes)
    (hy : y ∈ t.nodes) (hread : (root, r) ∈ t.reads x) (hwrite : y.write? = some (root, w))
    (hoverlap : r.overlaps w = true) (hlt : x.id.index < y.id.index) : t.Before x.id y.id := by
  induction hk : y.id.index using Nat.strongRecOn generalizing y w with
  | ind k ih =>
    subst hk
    by_cases hopen : t.OpenRead root r y.id.index x
    · exact ht.before_of_mustFollow hy (.inr ⟨root, r, w, hwrite, hoverlap, hopen⟩)
    · -- an assignment in between overlaps the read, and that one comes before `y`
      have hex : ∃ z ∈ t.nodes, x.id.index ≤ z.id.index ∧ z.id.index < y.id.index ∧
          ∃ w', z.write? = some (root, w') ∧ r.overlaps w' = true := by
        by_contra hno
        refine hopen ⟨hx, hread, hlt, fun z hz hxz hzy w' hw' => ?_⟩
        by_contra hover
        exact hno ⟨z, hz, hxz, hzy, w', hw', by simpa using hover⟩
      obtain ⟨z, hz, hxz, hzy, w', hw', hover⟩ := hex
      have hbefore : t.Before z.id y.id := ht.assignments_ordered hz hy
        (Node.write?_eq_some hw') (Node.write?_eq_some hwrite) hzy
      rcases Nat.eq_or_lt_of_le hxz with he | hlt'
      · obtain rfl := ht.wellFormed.eq_of_index hx hz he
        exact hbefore
      · exact (ih _ hzy hz hw' hover hlt' rfl).trans hbefore

end Trace
end ArrayTrace
