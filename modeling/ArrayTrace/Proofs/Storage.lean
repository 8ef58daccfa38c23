import ArrayTrace.Proofs.Confinement
import ArrayTrace.Proofs.Progress

/-!
# Storage without sharing

The value of a node is kept in the storage of its home: of the array it assigns into if it
is an assignment, of its own otherwise. Storages of different nodes are written differently,
so two values are kept in one place exactly when their homes are the same.
-/

namespace ArrayTrace

namespace Storage

/-- The letter that tells the roles of arrays apart. -/
def letter : Role → Char
  | .parameter => 'p'
  | .workingCopy => 'w'
  | .state => 'v'
  | .constant => 'c'
  | .temporary => 't'

theorem toList_label (s : Storage) : s.label.toList = letter s.role :: '_' :: s.name.toList := by
  obtain ⟨role, name⟩ := s
  cases role <;> simp [label, letter]

theorem label_injective : Function.Injective label := by
  intro a b h
  have hlist := congrArg String.toList h
  rw [toList_label, toList_label] at hlist
  obtain ⟨hletter, htail⟩ := List.cons.inj hlist
  have hname := String.toList_injective (List.cons.inj htail).2
  obtain ⟨role, name⟩ := a
  obtain ⟨role', name'⟩ := b
  cases hname
  cases role <;> cases role' <;> first | rfl | cases hletter

@[simp] theorem accesses_expr (s : Storage) (σ : C.Names) : s.expr.accesses σ = [] := by
  obtain ⟨role, name⟩ := s
  cases role <;> rfl

/-- Different storages are written differently. -/
theorem render_injective : Function.Injective fun s : Storage => s.expr.render := by
  -- Behind the first letter a label goes on with an underscore, a member with a letter.
  have hmember : ∀ a b : Storage, a.label ≠ "state->" ++ b.label := by
    intro a b h
    have hlist := congrArg String.toList h
    have hstate : "state->".toList = ['s', 't', 'a', 't', 'e', '-', '>'] := by decide
    rw [toList_label, String.toList_append, hstate] at hlist
    cases (List.cons.inj (List.cons.inj hlist).2).1
  have hrender : ∀ s : Storage, s.expr.render = s.label ∨ s.expr.render = "state->" ++ s.label := by
    intro s
    obtain ⟨role, name⟩ := s
    cases role <;> simp [expr, C.Expr.render]
  intro a b h
  beta_reduce at h
  refine label_injective ?_
  rcases hrender a with ha | ha <;> rcases hrender b with hb | hb <;> rw [ha, hb] at h
  · exact h
  · exact absurd h (hmember a b)
  · exact absurd h.symm (hmember b a)
  · exact String.append_right_inj _ |>.1 h

end Storage

namespace Node
variable {n m : Node} {assigned : List NodeId} {s : Storage}

theorem name_of_ownStorage? (h : n.ownStorage? assigned = some s) : s.name = n.name := by
  obtain ⟨_, _, _, kind⟩ := n
  cases kind <;> cases h <;> rfl

theorem target?_of_ownStorage? (h : n.ownStorage? assigned = some s) : n.target? = none := by
  obtain ⟨_, _, _, kind⟩ := n
  cases kind <;> first | rfl | cases h

end Node

namespace Trace
variable {t : Trace} {roots : List Node} {assigned : List NodeId}
  {storage : List (NodeId × Storage)} {id a b : NodeId} {s x y : Storage} {n m : Node}

theorem mem_of_lookup {α β : Type} [BEq α] [LawfulBEq α] {l : List (α × β)} {k : α} {v : β}
    (h : l.lookup k = some v) : (k, v) ∈ l := by
  obtain ⟨l₁, l₂, rfl, -⟩ := List.lookup_eq_some_iff.1 h
  exact List.mem_append_right _ List.mem_cons_self

/-- A value is kept in the storage that its home has of its own. -/
theorem lookup_storageOf (ht : t.WellFormed) (hroots : ∀ n ∈ roots, n ∈ t.nodes)
    (h : storageOf roots assigned = .ok storage) (hs : storage.lookup id = some s) :
    ∃ m ∈ roots, m.id = t.home id ∧ m.ownStorage? assigned = some s := by
  have hown : ∀ {k v}, (k, v) ∈ roots.filterMap
      (fun n => (n.ownStorage? assigned).map fun s => (n.id, s)) →
      ∃ m ∈ roots, m.id = k ∧ m.ownStorage? assigned = some v := by
    intro k v hmem
    obtain ⟨m, hm, hkv⟩ := List.mem_filterMap.1 hmem
    obtain ⟨v', hv', he⟩ := Option.map_eq_some_iff.1 hkv
    cases he
    exact ⟨m, hm, rfl, hv'⟩
  obtain ⟨shared, hshared, hstorage⟩ := Except.bind_eq_ok.1 h
  cases hstorage
  rcases List.mem_append.1 (mem_of_lookup hs) with hmem | hmem
  · obtain ⟨m, hm, rfl, hv⟩ := hown hmem
    refine ⟨m, hm, ?_, hv⟩
    rw [home_id ht (hroots m hm), Node.dest, Node.target?_of_ownStorage? hv, Option.getD_none]
  · obtain ⟨r, hr, hrs⟩ := List.mem_filterMap.1 hmem
    obtain ⟨n, hn, hentry⟩ := exists_of_forall₂ (Except.mapM_eq_ok.1 hshared).flip hr
    cases htarget : n.target? with
    | none =>
      simp only [htarget] at hentry
      cases hentry
      cases hrs
    | some target =>
      simp only [htarget] at hentry
      split at hentry
      · cases hentry
        cases hrs
        obtain ⟨m, hm, hid, hv⟩ := hown (mem_of_lookup ‹_›)
        refine ⟨m, hm, ?_, hv⟩
        rw [hid, home_id ht (hroots n hn), Node.dest, htarget, Option.getD_some]
      · cases hentry

/-- Two values are kept in one place exactly when their homes are the same. -/
theorem render_eq_iff_home_eq (ht : t.WellFormed) (hroots : ∀ n ∈ roots, n ∈ t.nodes)
    (h : storageOf roots assigned = .ok storage) (hx : storage.lookup a = some x)
    (hy : storage.lookup b = some y) :
    x.expr.render = y.expr.render ↔ t.home a = t.home b := by
  obtain ⟨m, hm, hma, hmx⟩ := lookup_storageOf ht hroots h hx
  obtain ⟨k, hk, hkb, hky⟩ := lookup_storageOf ht hroots h hy
  rw [← hma, ← hkb]
  constructor
  · intro hrender
    have hxy : x = y := Storage.render_injective hrender
    have hname : m.name = k.name := by
      rw [← Node.name_of_ownStorage? hmx, ← Node.name_of_ownStorage? hky, hxy]
    rw [List.inj_on_of_nodup_map ht.names_nodup (hroots m hm) (hroots k hk) hname]
  · intro hid
    obtain rfl := ht.eq_of_id_eq (hroots m hm) (hroots k hk) hid
    rw [hmx] at hky
    rw [Option.some.inj hky]

end Trace
end ArrayTrace
