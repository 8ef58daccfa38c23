import ArrayTrace.Proofs.Calls

/-!
# Variables of a machine

A machine holds a value of the declared type for every variable of its program, and nothing
else. It does so from the start, and setting a variable or calling the program keeps it so.
-/

namespace ArrayTrace

/-- The variables among nodes, and nothing else, have values, which are of the declared
types. -/
structure Holds (nodes : List Node) (states : Memory) : Prop where
  type_eq : ∀ n ∈ nodes, n.isState = true → ∀ v, states n.id = some v → v.type = n.type
  ne_none_iff : ∀ id, states id ≠ none ↔ ∃ n ∈ nodes, n.id = id ∧ n.isState = true

variable {t : Trace} {s : Schedule} {p : Program} {options : CompileOptions} {nodes : List Node}
  {n : Node} {states μ ν α : Memory}

namespace Trace

theorem Typed.effects [FloatProduct] (ht : t.WellFormed) (hs : t.Typed states) (hμ : t.Typed μ)
    {ids : List NodeId} (h : t.effects states μ ids = some ν) : t.Typed ν := by
  induction ids generalizing μ with
  | nil => exact Option.some.inj h ▸ hμ
  | cons id ids ih =>
    obtain ⟨μ', hμ', hrest⟩ := Option.bind_eq_some_iff.1 h
    obtain ⟨n, hn, heffect⟩ := Option.bind_eq_some_iff.1 hμ'
    exact ih (Typed.effect ht hs hμ (mem_of_node? hn) heffect) hrest

/-- The nodes of a compiled program are nodes of the trace. -/
theorem Compiled.mem_nodes (hp : t.Compiled s options p) (ht : t.WellFormed) :
    n ∈ p.nodes ↔ n ∈ t.nodes ∧ n.id ∈ s.nodes := by
  rw [hp.nodes_eq, ht.mem_nodesAt]

theorem Compiled.mem_trace (hp : t.Compiled s options p) (ht : t.WellFormed) :
    ∀ n ∈ p.nodes, n ∈ t.nodes := fun _ hn => ((hp.mem_nodes ht).1 hn).1

end Trace

namespace Holds
open Trace

section
variable (h : Holds nodes states) (ht : t.WellFormed) (hnodes : ∀ n ∈ nodes, n ∈ t.nodes)
include h ht hnodes

theorem typed : t.Typed states := by
  intro n hn _ v hv
  obtain ⟨x, hx, hid, hstate⟩ := (h.ne_none_iff n.id).1 (by simp [hv])
  obtain rfl := ht.eq_of_id_eq (hnodes x hx) hn hid
  exact h.type_eq x hx hstate v hv

theorem update (hn : n ∈ t.nodes) (hstate : n.isState = true) {v : Tensor}
    (htype : v.type = n.type) :
    Holds (nodes ++ [n]) (Function.update states n.id (some v)) where
  type_eq := by
    intro x hx hs u hu
    have hxt : x ∈ t.nodes := (List.mem_append.1 hx).elim (hnodes x) fun hx =>
      List.mem_singleton.1 hx ▸ hn
    by_cases he : x.id = n.id
    · obtain rfl := ht.eq_of_id_eq hxt hn he
      rw [Function.update_self] at hu
      cases hu
      exact htype
    · rw [Function.update_of_ne he] at hu
      refine h.type_eq x ((List.mem_append.1 hx).resolve_right fun hx => he ?_) hs u hu
      rw [List.mem_singleton.1 hx]
  ne_none_iff := by
    intro id
    by_cases he : id = n.id
    · subst he
      simp only [Function.update_self, ne_eq, reduceCtorEq, not_false_eq_true, true_iff]
      exact ⟨n, by simp, rfl, hstate⟩
    · rw [Function.update_of_ne he, h.ne_none_iff]
      constructor
      · rintro ⟨x, hx, hid, hs⟩
        exact ⟨x, List.mem_append_left _ hx, hid, hs⟩
      · rintro ⟨x, hx, rfl, hs⟩
        refine ⟨x, (List.mem_append.1 hx).resolve_right fun hx => he ?_, rfl, hs⟩
        rw [List.mem_singleton.1 hx]

/-- Setting a variable to a value of its type. -/
theorem set (hn : n ∈ nodes) (hstate : n.isState = true) {v : Tensor} (htype : v.type = n.type) :
    Holds nodes (Function.update states n.id (some v)) := by
  have hmem : ∀ x, x ∈ nodes ++ [n] ↔ x ∈ nodes := fun x => by
    simp only [List.mem_append, List.mem_singleton, or_iff_left_iff_imp]
    exact fun he => he ▸ hn
  have hupdate := h.update ht hnodes (hnodes n hn) hstate htype
  refine ⟨fun x hx => hupdate.type_eq x ((hmem x).2 hx), fun id => ?_⟩
  rw [hupdate.ne_none_iff]
  simp only [hmem]

/-- A call leaves values of the variables. -/
theorem answer [FloatProduct] (hα : t.Typed α)
    {r : List Tensor × Memory} (hr : t.answer s states α = some r) : Holds nodes r.2 := by
  obtain ⟨μ, hμ, hr⟩ := Option.bind_eq_some_iff.1 hr
  obtain ⟨results, -, hr⟩ := Option.bind_eq_some_iff.1 hr
  cases hr
  have hμtyped := Typed.effects ht (h.typed ht hnodes) hα hμ
  constructor
  · intro n hn hs v hv
    obtain ⟨old, hold, rfl⟩ := Option.map_eq_some_iff.1 hv
    cases hval : μ n.id with
    | none => exact h.type_eq n hn hs old hold
    | some w => exact hμtyped n (hnodes n hn) (Node.isStorage_of_isState hs) w hval
  · intro id
    rw [← h.ne_none_iff]
    simp

/-- No operation that is merged is a variable. -/
theorem hidden (hs : t.Scheduled s) (fuse : Bool) : ∀ id ∈ t.hidden s fuse, states id = none := by
  intro id hid
  cases fuse with
  | false => cases hid
  | true =>
    by_contra hne
    obtain ⟨n, hn, rfl, hstate⟩ := (h.ne_none_iff id).1 hne
    exact not_merged_of_isStorage hs (ht.node?_id (hnodes n hn))
      (Node.isStorage_of_isState hstate) hid

end

/-- The variables of a program at the start. -/
theorem start (ht : t.WellFormed) (hnodes : ∀ n ∈ p.nodes, n ∈ t.nodes) :
    Holds p.nodes p.initialStates.get? := by
  rw [Program.initialStates]
  generalize p.nodes = nodes at hnodes
  induction nodes using List.reverseRecOn with
  | nil => exact ⟨nofun, by simp [Store.get?]⟩
  | append_singleton nodes n ih =>
    obtain ⟨hnodes, hn⟩ := List.forall_mem_append.1 hnodes
    replace hn : n ∈ t.nodes := hn n List.mem_cons_self
    rw [List.foldl_append, List.foldl_cons, List.foldl_nil]
    have hrest := ih hnodes
    cases hk : n.kind with
    | state initial =>
      have htype : n.type = initial.type := by simpa [Admits, hk] using ht.admits hn
      rw [Store.get?_insert]
      exact hrest.update ht hnodes hn (by simp [Node.isState, hk]) htype.symm
    | _ =>
      have hstate : n.isState ≠ true := by simp [Node.isState, hk]
      refine ⟨fun x hx hs => hrest.type_eq x ((List.mem_append.1 hx).resolve_right fun hx =>
        hstate (List.mem_singleton.1 hx ▸ hs)) hs, fun id => ?_⟩
      rw [hrest.ne_none_iff]
      refine exists_congr fun x => and_congr_left fun hx => ?_
      simp only [List.mem_append, List.mem_singleton, iff_self_or]
      exact fun he => absurd (he ▸ hx.2) hstate

end Holds
end ArrayTrace
