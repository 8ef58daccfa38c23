import ArrayTrace.Proofs.Recording
import Mathlib.Order.Bounds.Basic

/-!
# Generated names are the least free ones

The search for a generated name goes up from a number kept for the stem and ends at the first
number that is free. Every number below the kept one is taken, whatever names the caller gives to
nodes of its own, so what the search finds is the least free number. Calls that are refused do
not use up numbers, and names generated for different stems differ.

## Main definitions

* `Trace.Finds` — the search, without a bound on its steps.
* `Trace.Draws` — what a call does that generates a name.
-/

namespace ArrayTrace

/-- What a call names its node after, if it generates the name. -/
def Call.stem? : Call → Option String
  | .literal _ => some "const"
  | .apply op _ => some op.stem
  | .assign .. => some "assign"
  | _ => none

namespace Trace
variable {t t' u : Trace} {stem stem' : String} {j k m : Nat} {c : Call}

/-! ## Numbered names -/

/-- The last underscore of a generated name ends its stem. -/
theorem numbered_inj : numbered stem j = numbered stem' k ↔ stem = stem' ∧ j = k := by
  constructor
  · intro h
    have hdigits : ∀ i : Nat, '_' ∉ i.repr.toList := by
      intro i hi
      exact absurd (isDigit_of_mem_repr hi) (by decide)
    have hlist : stem.toList ++ '_' :: j.repr.toList = stem'.toList ++ '_' :: k.repr.toList := by
      simpa [numbered] using congrArg String.toList h
    have hstem : stem = stem' := by
      rcases List.append_eq_append_iff.1 hlist with ⟨front, hstem, hrest⟩ | ⟨front, hstem, hrest⟩
      · cases front with
        | nil => exact (String.toList_inj.1 (by simpa using hstem)).symm
        | cons x front =>
          obtain ⟨-, hrest⟩ := List.cons.inj hrest
          exact absurd (hrest ▸ List.mem_append_right _ List.mem_cons_self) (hdigits j)
      · cases front with
        | nil => exact String.toList_inj.1 (by simpa using hstem)
        | cons x front =>
          obtain ⟨-, hrest⟩ := List.cons.inj hrest
          exact absurd (hrest ▸ List.mem_append_right _ List.mem_cons_self) (hdigits k)
    subst hstem
    exact ⟨rfl, numbered_injective stem h⟩
  · rintro ⟨rfl, rfl⟩
    rfl

/-! ## The search -/

/-- The search for a free number of a stem, begun at one number, ends at another. -/
inductive Finds (t : Trace) (stem : String) : Nat → Nat → Prop
  | free {k : Nat} : t.isTaken (numbered stem k) = false → Finds t stem k k
  | next {k m : Nat} : t.isTaken (numbered stem k) = true → Finds t stem (k + 1) m →
      Finds t stem k m

theorem Finds.isTaken_of_lt (h : t.Finds stem k m) (hk : k ≤ j) (hm : j < m) :
    t.isTaken (numbered stem j) = true := by
  induction h with
  | free => omega
  | next htaken _ ih =>
    rcases Nat.eq_or_lt_of_le hk with rfl | hlt
    · exact htaken
    · exact ih hlt hm

theorem finds_firstFree {fuel : Nat}
    (h : t.isTaken (numbered stem (t.firstFree stem fuel k)) = false) :
    t.Finds stem k (t.firstFree stem fuel k) := by
  induction fuel generalizing k with
  | zero => exact .free h
  | succ fuel ih =>
    rw [firstFree] at h ⊢
    split at h
    · rename_i htaken
      rw [if_pos htaken]
      exact .next htaken (ih h)
    · rename_i hfree
      rw [if_neg hfree]
      exact .free (Bool.not_eq_true _ ▸ hfree)

/-- The number that the search for a stem's next name begins with. -/
def counter (t : Trace) (stem : String) : Nat := (t.counters.lookup stem).getD 0

/-- The search ends. -/
theorem finds_freshNumber (t : Trace) (stem : String) :
    t.Finds stem (t.counter stem) (t.freshNumber stem) :=
  finds_firstFree (isTaken_freshNumber stem)

/-! ## What calls do to names -/

/-- `u` has the nodes of `t` and goes on counting generated names where `t` does. -/
structure SameNames (t u : Trace) : Prop where
  nodes_eq : u.nodes = t.nodes
  counters_eq : u.counters = t.counters

theorem SameNames.freshNumber_eq (h : t.SameNames u) (stem : String) :
    u.freshNumber stem = t.freshNumber stem := by
  have hfirst : ∀ fuel k, u.firstFree stem fuel k = t.firstFree stem fuel k := by
    intro fuel
    induction fuel with
    | zero => exact fun _ => rfl
    | succ fuel ih =>
      intro k
      rw [firstFree, firstFree, ih, isTaken, isTaken, h.nodes_eq]
  rw [freshNumber, freshNumber, hfirst, h.counters_eq, ← length_nodes, ← length_nodes, h.nodes_eq]

theorem counters_recordReads (reader : NodeId) (rs : List (NodeId × Region)) :
    (t.recordReads reader rs).2.counters = t.counters := by
  induction rs generalizing t with
  | nil => rfl
  | cons r rs ih => exact ih

theorem sameNames_recordReads (t : Trace) (reader : NodeId) (rs : List (NodeId × Region)) :
    t.SameNames (t.recordReads reader rs).2 :=
  ⟨(relogged_recordReads reader rs).nodes_eq, counters_recordReads reader rs⟩

theorem sameNames_setLog (h : t.SameNames u) (root : NodeId) (log : AccessLog) :
    t.SameNames (u.setLog root log) :=
  ⟨(relogged_setLog root log).nodes_eq.trans h.nodes_eq, h.counters_eq⟩

/-- `t'` is `t` with a node under the next generated name of a stem, after whose number the next
search begins. -/
structure Draws (t t' : Trace) (stem : String) : Prop where
  nodes_eq : ∃ n : Node, t'.nodes = t.nodes ++ [n] ∧ n.name = numbered stem (t.freshNumber stem)
  counters_eq : t'.counters = (t.setCounter stem (t.freshNumber stem)).counters

theorem draws_pushFresh (h : t.SameNames u) (type : TensorType) (kind : NodeKind)
    (ws : List NodeId) : t.Draws (u.pushFresh stem type kind ws).2 stem where
  nodes_eq := by
    refine ⟨⟨u.nextId, numbered stem (t.freshNumber stem), type, kind⟩, ?_, rfl⟩
    rw [← h.nodes_eq, ← h.freshNumber_eq]
    simp [pushFresh, push, nodes, setCounter, nextId, size]
  counters_eq := by
    rw [← h.freshNumber_eq, setCounter, ← h.counters_eq]
    rfl

/-- A call that generates a name draws the next one of its stem. -/
theorem draws_of_perform (h : t.perform c = .ok t') (hstem : c.stem? = some stem) :
    t.Draws t' stem := by
  cases c with
  | literal value =>
    cases hstem
    cases h
    exact draws_pushFresh ⟨rfl, rfl⟩ _ _ _
  | apply op inputs =>
    cases hstem
    obtain ⟨r, hr, rfl⟩ := Except.map_eq_ok.1 h
    obtain ⟨_, -, hr⟩ := Except.bind_eq_ok.1 hr
    obtain ⟨_, -, hr⟩ := Except.bind_eq_ok.1 hr
    cases hr
    exact draws_pushFresh (sameNames_recordReads t _ _) _ _ _
  | assign target selection value =>
    cases hstem
    obtain ⟨r, hr, rfl⟩ := Except.map_eq_ok.1 h
    obtain ⟨_, -, hr⟩ := Except.bind_eq_ok.1 hr
    obtain ⟨_, -, hr⟩ := Except.bind_eq_ok.1 hr
    obtain ⟨-, hr⟩ := Except.unless_eq_ok.1 hr
    obtain ⟨_, -, hr⟩ := Except.bind_eq_ok.1 hr
    obtain ⟨-, hr⟩ := Except.unless_eq_ok.1 hr
    cases hr
    exact draws_pushFresh (sameNames_setLog (sameNames_recordReads t _ _) _ _) _ _ _
  | _ => cases hstem

/-- Other calls leave the counters alone. -/
theorem counters_of_perform (h : t.perform c = .ok t') (hstem : c.stem? = none) :
    t'.counters = t.counters := by
  cases c with
  | placeholder name shape dtype =>
    obtain ⟨r, hr, rfl⟩ := Except.map_eq_ok.1 h
    obtain ⟨_, -, hr⟩ := Except.bind_eq_ok.1 hr
    cases hr
    rfl
  | state name initial =>
    obtain ⟨r, hr, rfl⟩ := Except.map_eq_ok.1 h
    obtain ⟨_, -, hr⟩ := Except.bind_eq_ok.1 hr
    cases hr
    rfl
  | constant name value =>
    obtain ⟨r, hr, rfl⟩ := Except.map_eq_ok.1 h
    obtain ⟨_, -, hr⟩ := Except.bind_eq_ok.1 hr
    cases hr
    rfl
  | markOutputs outputs =>
    obtain ⟨_, -, h⟩ := Except.bind_eq_ok.1 h
    cases h
    rfl
  | literal value => cases hstem
  | apply op inputs => cases hstem
  | assign target selection value => cases hstem

/-! ## The counters -/

theorem counter_setCounter_self (t : Trace) (stem : String) (k : Nat) :
    (t.setCounter stem k).counter stem = k + 1 := by
  simp [counter, setCounter]

theorem counter_setCounter_of_ne (h : stem' ≠ stem) :
    (t.setCounter stem k).counter stem' = t.counter stem' := by
  have hlookup : ∀ cs : List (String × Nat),
      (cs.filter fun c => c.1 ≠ stem).lookup stem' = cs.lookup stem' := by
    intro cs
    induction cs with
    | nil => rfl
    | cons c cs ih =>
      by_cases hc : c.1 = stem
      · have hne : (stem' == c.1) = false := by simpa [hc] using h
        rw [List.filter_cons_of_neg (by simpa using hc), ih, List.lookup_cons, hne]
      · rw [List.filter_cons_of_pos (by simpa using hc), List.lookup_cons, List.lookup_cons, ih]
  have hne : (stem' == stem) = false := by simpa using h
  rw [counter, counter, setCounter, List.lookup_cons, hne, hlookup]

/-- Every number below the one that a search begins with is taken. -/
def Counted (t : Trace) : Prop :=
  ∀ stem k, k < t.counter stem → t.isTaken (numbered stem k) = true

theorem Counted.isTaken_of_lt (h : t.Counted) (hk : k < t.freshNumber stem) :
    t.isTaken (numbered stem k) = true := by
  rcases Nat.lt_or_ge k (t.counter stem) with hlt | hge
  · exact h stem k hlt
  · exact (finds_freshNumber t stem).isTaken_of_lt hge hk

theorem Counted.isLeast (h : t.Counted) (stem : String) :
    IsLeast {k | t.isTaken (numbered stem k) = false} (t.freshNumber stem) := by
  refine ⟨isTaken_freshNumber stem, fun k hfree => ?_⟩
  by_contra hlt
  have htaken := h.isTaken_of_lt (Nat.not_le.1 hlt)
  exact Bool.false_ne_true (hfree.symm.trans htaken)

/-- Drawing a name leaves all numbers up to its own taken. -/
theorem Draws.counted (h : t.Draws t' stem) (ht : t.Counted) : t'.Counted := by
  obtain ⟨n, hnodes, hname⟩ := h.nodes_eq
  have hmono : ∀ name, t.isTaken name = true → t'.isTaken name = true := by
    intro name htaken
    rw [isTaken, hnodes, List.any_append, ← isTaken, htaken, Bool.true_or]
  have hnew : t'.isTaken (numbered stem (t.freshNumber stem)) = true := by
    rw [isTaken, hnodes, List.any_append]
    simp [hname]
  intro stem' k hk
  have hcounter : t'.counter stem' = (t.setCounter stem (t.freshNumber stem)).counter stem' := by
    rw [counter, h.counters_eq, counter]
  rw [hcounter] at hk
  by_cases hstem : stem' = stem
  · subst hstem
    rw [counter_setCounter_self] at hk
    rcases Nat.eq_or_lt_of_le (Nat.le_of_lt_succ hk) with rfl | hlt
    · exact hnew
    · exact hmono _ (ht.isTaken_of_lt hlt)
  · rw [counter_setCounter_of_ne hstem] at hk
    exact hmono _ (ht stem' k hk)

theorem Reachable.counted (ht : t.Reachable) : t.Counted := by
  induction ht with
  | start id config => exact fun stem k hk => absurd hk (Nat.not_lt_zero k)
  | @call t ht c ih =>
    rw [after]
    split
    · rename_i t' hperform
      cases hstem : c.stem? with
      | some stem => exact (draws_of_perform hperform hstem).counted ih
      | none =>
        have hcounters := counters_of_perform hperform hstem
        intro stem k hk
        rw [counter, hcounters, ← counter] at hk
        have htaken := ih stem k hk
        rcases perform_cases ht.wellFormed.targetsKnown hperform with ⟨n, hn⟩ | ⟨outputs, -, rfl⟩
        · rw [isTaken, hn.nodes_eq, List.any_append, ← isTaken, htaken, Bool.true_or]
        · exact htaken
    · exact ih

/-! ## The names that are given -/

/-- Whatever names are taken, a call that generates a name gives its node the least free one of
its stem, and the search for it ends. A refused call skips no number, and names of different
stems differ. -/
theorem Reachable.generated_least (ht : t.Reachable) :
    (∀ c stem, Call.stem? c = some stem → (c.record.exec t).1 = .ok () →
      ∃ n k, (c.record.exec t).2.nodes = t.nodes ++ [n] ∧ n.name = numbered stem k ∧
        IsLeast {k | t.isTaken (numbered stem k) = false} k) ∧
    (∀ stem, t.Finds stem (t.counter stem) (t.freshNumber stem)) ∧
    (∀ (c : Call) e, (c.record.exec t).1 = .error e →
      ∀ stem, (c.record.exec t).2.counter stem = t.counter stem ∧
        (c.record.exec t).2.freshNumber stem = t.freshNumber stem) ∧
    ∀ stem stem' j k, stem ≠ stem' → numbered stem j ≠ numbered stem' k := by
  refine ⟨fun c stem hstem hok => ?_, finds_freshNumber t, fun c e hrefused stem => ?_,
    fun stem stem' j k hne h => hne (numbered_inj.1 h).1⟩
  · obtain ⟨n, hnodes, hname⟩ := (draws_of_perform (perform_of_record_eq_ok hok) hstem).nodes_eq
    exact ⟨n, t.freshNumber stem, hnodes, hname, ht.counted.isLeast stem⟩
  · rw [record_of_eq_error hrefused]
    exact ⟨rfl, rfl⟩

/-- A constant without a name was given, then two of the next names by hand. -/
def handNamed : Trace :=
  [Call.literal (.scalar .i64 5), .placeholder "const_1" [2] .f64,
    .constant "const_2" (.scalar .bool true)].foldl Trace.after { id := 0 }

/-- The next constant without a name is the fourth, also after a refused operation. -/
theorem generated_least_handNamed :
    let refused := Call.apply (.unary .neg) [⟨1, 0⟩]
    (refused.record.exec handNamed).1 = .error (.unknownNode ⟨1, 0⟩) ∧
      (refused.record.exec handNamed).2.freshNumber "const" = 3 ∧
      ∃ n, ((Call.literal (.scalar .i64 7)).record.exec handNamed).2.nodes =
          handNamed.nodes ++ [n] ∧
        n.name = "const_3" := by
  intro refused
  have hrefused : (refused.record.exec handNamed).1 = .error (.unknownNode ⟨1, 0⟩) := rfl
  have ht : handNamed.Reachable := .calls (.start 0 {}) _
  obtain ⟨hgenerated, -, hkept, -⟩ := Reachable.generated_least ht
  obtain ⟨n, k, hnodes, hname, hleast⟩ :=
    hgenerated (.literal (.scalar .i64 7)) "const" rfl rfl
  have hthree : IsLeast {k | handNamed.isTaken (numbered "const" k) = false} 3 := by
    refine ⟨by decide, fun k hfree => ?_⟩
    by_contra hlt
    have htaken : ∀ k < 3, handNamed.isTaken (numbered "const" k) = true := by decide
    exact Bool.false_ne_true (hfree.symm.trans (htaken k (Nat.not_le.1 hlt)))
  obtain rfl := hleast.unique hthree
  have hnumber : handNamed.freshNumber "const" = 3 := by decide
  exact ⟨hrefused, (hkept refused _ hrefused "const").2.trans hnumber, n, hnodes, hname⟩

end Trace
end ArrayTrace
