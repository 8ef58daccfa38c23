import ArrayTrace.Proofs.Representation

/-!
# Precedence

Beyond its inputs a node waits for the last assignment to every array that it reads or
assigns into, and an assignment waits for the earlier reads that it overlaps and that no
assignment in between overlaps. What is read and overwritten is said here by rules, apart
from the functions that keep the access logs: an operand stands for the array that it is
or that it assigns into, a slice reads the part that it selects, all else reads whole arrays.
-/

namespace ArrayTrace.Trace
variable {t : Trace} {n x array : Node} {id root : NodeId} {r w : Region}

/-- `n` reads a region of an array. -/
inductive Reads (t : Trace) (n : Node) : NodeId → Region → Prop
  /-- A slice reads the part that it selects. -/
  | slice {selection : Selection} {inputs : List NodeId} {input root : NodeId} {array : Node}
      {window : Window} (hkind : n.kind = .apply (.slice selection) inputs)
      (hinput : input ∈ inputs) (hroot : t.storage? input = some root)
      (harray : t.node? root = some array)
      (hwindow : selection.resolve array.type.shape = .ok window) : Reads t n root window.region
  /-- Other operations read their operands as a whole. -/
  | operand {op : Op} {inputs : List NodeId} {input root : NodeId} {array : Node}
      (hkind : n.kind = .apply op inputs) (hop : ∀ selection, op ≠ .slice selection)
      (hinput : input ∈ inputs) (hroot : t.storage? input = some root)
      (harray : t.node? root = some array) : Reads t n root (Region.full array.type.shape)
  /-- An assignment reads the assigned value as a whole, and not what it assigns into. -/
  | value {target value root : NodeId} {selection : Selection} {array : Node}
      (hkind : n.kind = .assign target selection value) (hroot : t.storage? value = some root)
      (harray : t.node? root = some array) : Reads t n root (Region.full array.type.shape)

/-- `n` overwrites a region of an array. -/
inductive Overwrites (t : Trace) (n : Node) : NodeId → Region → Prop
  | assign {target value : NodeId} {selection : Selection} {array : Node} {window : Window}
      (hkind : n.kind = .assign target selection value) (harray : t.node? target = some array)
      (hwindow : selection.resolve array.type.shape = .ok window) :
      Overwrites t n target window.region

theorem operandRegion_of_ne_slice {op : Op} (hop : ∀ selection, op ≠ .slice selection)
    (position : Nat) (shape : Shape) :
    operandRegion op position shape = some (Region.full shape) := by
  cases op with
  | slice selection => exact absurd rfl (hop selection)
  | _ => rfl

/-- An operand has the type of the array that it stands for. -/
theorem WellFormed.type_of_storage? (ht : t.WellFormed) (hroot : t.storage? id = some root)
    (harray : t.node? root = some array) (hx : t.node? id = some x) : x.type = array.type := by
  obtain ⟨y, hy, -, htype⟩ := isStorage_of_storage? ht hroot hx
  rw [harray] at hy
  cases hy
  exact htype.symm

theorem exists_node_of_storage? (h : t.storage? id = some root) : ∃ x, t.node? id = some x := by
  obtain ⟨x, hx, -⟩ := storage?_eq_some.1 h
  exact ⟨x, hx⟩

theorem Reads.mem_reads (ht : t.WellFormed) (hn : n ∈ t.nodes) (h : t.Reads n root r) :
    (root, r) ∈ t.reads n := by
  cases h with
  | slice hkind hinput hroot harray hwindow =>
    obtain ⟨_, x, _, rfl, hx, -⟩ := (ht.admits hn).slice hkind
    obtain rfl := List.mem_singleton.1 hinput
    rw [← ht.type_of_storage? hroot harray hx] at hwindow
    exact mem_reads_of_slice hkind hx hroot hwindow
  | operand hkind hop hinput hroot harray =>
    obtain ⟨x, hx⟩ := exists_node_of_storage? hroot
    rw [← ht.type_of_storage? hroot harray hx]
    exact mem_reads_of_apply hkind hop hinput hx hroot
  | value hkind hroot harray =>
    obtain ⟨x, hx⟩ := exists_node_of_storage? hroot
    rw [← ht.type_of_storage? hroot harray hx]
    exact mem_reads_of_assign hkind hx hroot

theorem WellFormed.reads_of_mem (ht : t.WellFormed) (hn : n ∈ t.nodes)
    (h : (root, r) ∈ t.reads n) : t.Reads n root r := by
  cases hkind : n.kind with
  | apply op inputs =>
    simp only [reads, hkind] at h
    obtain ⟨i, input, x, hi, hroot, hx, hregion⟩ := mem_readsOf.1 h
    obtain ⟨array, harray, -, htype⟩ := isStorage_of_storage? ht hroot hx
    rw [← htype] at hregion
    have hinput : input ∈ inputs := List.mem_of_getElem? hi
    by_cases hop : ∃ selection, op = .slice selection
    · obtain ⟨selection, rfl⟩ := hop
      -- a slice has one operand, which is the one at position zero
      obtain ⟨_, _, _, rfl, -, -⟩ := (ht.admits hn).slice hkind
      obtain ⟨rfl, -⟩ : i = 0 ∧ _ := by simpa [List.getElem?_singleton] using hi
      obtain ⟨window, hwindow, rfl⟩ := Option.map_eq_some_iff.1 hregion
      exact .slice hkind hinput hroot harray (toOption_eq_some.1 hwindow)
    · have hop : ∀ selection, op ≠ .slice selection := fun selection he => hop ⟨selection, he⟩
      rw [operandRegion_of_ne_slice hop] at hregion
      cases hregion
      exact .operand hkind hop hinput hroot harray
  | assign target selection value =>
    simp only [reads, hkind] at h
    obtain ⟨i, input, x, hi, hroot, hx, hregion⟩ := mem_readsOf.1 h
    obtain rfl : input = value := List.mem_singleton.1 (List.mem_of_getElem? hi)
    obtain ⟨array, harray, -, htype⟩ := isStorage_of_storage? ht hroot hx
    cases hregion
    rw [← htype]
    exact .value hkind hroot harray
  | _ => simp [reads, hkind] at h

/-- The logged reads of a node are those that the rules give. -/
theorem WellFormed.mem_reads_iff (ht : t.WellFormed) (hn : n ∈ t.nodes) :
    (root, r) ∈ t.reads n ↔ t.Reads n root r :=
  ⟨ht.reads_of_mem hn, Reads.mem_reads ht hn⟩

theorem WellFormed.write?_eq_some_iff (ht : t.WellFormed) (hn : n ∈ t.nodes) :
    n.write? = some (root, w) ↔ t.Overwrites n root w := by
  have hadmits := ht.admits hn
  constructor
  · intro h
    cases hkind : n.kind with
    | assign target selection value =>
      simp only [Admits, hkind] at hadmits
      obtain ⟨array, _, _, harray, -, htype, -⟩ := hadmits
      simp only [Node.write?, hkind, ← htype] at h
      obtain ⟨window, hwindow, he⟩ := Option.map_eq_some_iff.1 h
      cases he
      exact .assign hkind harray (toOption_eq_some.1 hwindow)
    | _ => simp [Node.write?, hkind] at h
  · rintro ⟨hkind, harray, hwindow⟩
    simp only [Admits, hkind] at hadmits
    obtain ⟨array', _, _, harray', -, htype, -⟩ := hadmits
    rw [harray] at harray'
    cases harray'
    simp [Node.write?, hkind, ← htype, hwindow, Except.toOption]

/-- The control edges into a node come from exactly the earlier nodes that it has to follow,
each once and in creation order. -/
theorem Reachable.control_exact (ht : t.Reachable) (hn : n ∈ t.nodes) :
    ((t.control n.id).Pairwise fun a b => a.index < b.index) ∧
      (∀ m, m ∈ t.control n.id ↔
        ∃ x ∈ t.nodes, x.id = m ∧ x.id.index < n.id.index ∧ t.MustFollow n x) ∧
      ∀ x ∈ t.nodes, (∀ root r, (root, r) ∈ t.reads x ↔ t.Reads x root r) ∧
        ∀ root w, x.write? = some (root, w) ↔ t.Overwrites x root w := by
  have hwf := ht.wellFormed
  have hknown : ∀ {m}, m ∈ t.control n.id → t.contains m = true := fun hm =>
    (ht.predecessor_lt (List.mem_append_right _ hm)).1
  refine ⟨?_, fun m => ?_, fun x hx => ⟨fun _ _ => hwf.mem_reads_iff hx, fun _ _ =>
    hwf.write?_eq_some_iff hx⟩⟩
  · exact (ht.control_ascending n.id).imp_of_mem fun ha hb =>
      (before_iff_index_lt (hknown ha) (hknown hb)).1
  · rw [ht.faithful.control_iff hn]
    constructor
    · rintro ⟨x, hfollow, rfl⟩
      exact ⟨x, hfollow.mem, rfl, hfollow.lt, hfollow⟩
    · rintro ⟨x, -, rfl, -, hfollow⟩
      exact ⟨x, hfollow, rfl⟩

/-- An input whose outer elements are read before the first one and then all of them are
overwritten. -/
def overwritten : Trace :=
  [Call.placeholder "x" [3] .i64, .literal (.scalar .i64 5),
    .apply (.slice [.range 0 1 1]) [⟨0, 0⟩], .apply (.slice [.range 2 3 1]) [⟨0, 0⟩],
    .assign ⟨0, 0⟩ [.range 0 1 1] ⟨0, 1⟩, .assign ⟨0, 0⟩ [] ⟨0, 2⟩].foldl
    Trace.after { id := 0 }

/-- The second assignment follows the first one, and the read that is still open then. -/
theorem control_exact_overwritten :
    ∃ n ∈ overwritten.nodes, n.id = ⟨0, 5⟩ ∧ ∀ m, m ∈ [(⟨0, 3⟩ : NodeId), ⟨0, 4⟩] ↔
      ∃ x ∈ overwritten.nodes, x.id = m ∧ x.id.index < n.id.index ∧
        overwritten.MustFollow n x := by
  have ht : overwritten.Reachable := .calls (.start 0 {}) _
  have hknown : overwritten.contains ⟨0, 5⟩ = true := by decide
  obtain ⟨n, hn⟩ := exists_node_of_contains hknown
  have hid : n.id = ⟨0, 5⟩ := ht.wellFormed.id_of_node? hn
  have hcontrol : overwritten.control n.id = [⟨0, 3⟩, ⟨0, 4⟩] := by
    rw [hid]
    decide
  refine ⟨n, mem_of_node? hn, hid, ?_⟩
  rw [← hcontrol]
  exact (ht.control_exact (mem_of_node? hn)).2.1

end ArrayTrace.Trace
