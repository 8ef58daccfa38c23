import ArrayTrace.Proofs.Variables

/-!
# Fusion is transparent

Machines of the fused and of the unfused program of one trace answer every sequence of
requests alike, and hold the same variables after every request. Arguments are given by
name, since the two programs may list their parameters in different orders.
-/

namespace ArrayTrace

/-- A request to a machine. The arguments of a call are given by name. -/
inductive Request
  | get (name : String)
  | set (name : String) (value : Tensor)
  | call (binding : String → Tensor)

/-- What is seen of a machine after a request: the arrays it answers with, unless it
refuses or fails, and what it holds under each name. -/
structure Observation where
  answer : Option (List Tensor)
  contents : String → Option Tensor

namespace Machine

/-- Arguments in the order in which the machine takes them. -/
def arguments (m : Machine) (binding : String → Tensor) : List Tensor :=
  m.signature.parameters.map fun decl => binding decl.name

/-- The answer to a request, and the machine after it. -/
def serve [FloatProduct] (m : Machine) : Request → Except MachineError (List Tensor × Machine)
  | .get name => do return ([← m.get name], m)
  | .set name value => do return ([], ← m.set name value)
  | .call binding => m.call (m.arguments binding)

/-- The machine after a request; one that it refuses or fails on changes nothing. -/
def next [FloatProduct] (m : Machine) (r : Request) : Machine :=
  match m.serve r with
  | .ok (_, m') => m'
  | .error _ => m

/-- What is seen of a machine after each of a list of requests. -/
def observe [FloatProduct] (m : Machine) : List Request → List Observation
  | [] => []
  | r :: rs =>
    ⟨(m.serve r).toOption.map Prod.fst, fun name => ((m.next r).get name).toOption⟩ ::
      (m.next r).observe rs

end Machine

namespace Trace
variable {t : Trace} {s : Schedule} {p q : Program} {options : CompileOptions} {m m' : Machine}
  {n x : Node} {id : NodeId} {states μ ν : Memory} {outputs : List NodeId} {params : List Node}

/-! ## Arguments by name -/

theorem accepts_map_iff (f : Node → Tensor) :
    Accepts params (params.map f) ↔ ∀ n ∈ params, (f n).type = n.type := by
  rw [Accepts, List.forall₂_map_right_iff, List.forall₂_same]

theorem argMemory_map_of_mem (f : Node → Tensor) (hnodup : (params.map Node.id).Nodup)
    (hn : n ∈ params) : argMemory params (params.map f) n.id = some (f n) := by
  obtain ⟨v, hv, hbound⟩ := exists_argMemory_eq (List.length_map f).symm hnodup hn
  obtain ⟨i, hi⟩ := List.mem_iff_getElem?.1 hv
  obtain ⟨hin, hiv⟩ := List.getElem?_zip_eq_some.1 hi
  rw [List.getElem?_map, hin] at hiv
  exact hbound.trans hiv.symm

/-- Arguments given by name are the same memory in whatever order they are passed. -/
theorem argMemory_map_eq {params' : List Node} (f : Node → Tensor)
    (hnodup : (params.map Node.id).Nodup) (hnodup' : (params'.map Node.id).Nodup)
    (h : ∀ n, n ∈ params ↔ n ∈ params') :
    argMemory params (params.map f) = argMemory params' (params'.map f) := by
  funext id
  by_cases hid : ∃ n ∈ params, n.id = id
  · obtain ⟨n, hn, rfl⟩ := hid
    rw [argMemory_map_of_mem f hnodup hn, argMemory_map_of_mem f hnodup' ((h n).1 hn)]
  · have hnot : ∀ (l : List Node), (∀ n, n ∈ l → n ∈ params) → id ∉ l.map Node.id := by
      intro l hl hmem
      obtain ⟨n, hn, he⟩ := List.mem_map.1 hmem
      exact hid ⟨n, hl n hn, he⟩
    rw [argMemory_of_not_mem (hnot params fun _ hn => hn),
      argMemory_of_not_mem (hnot params' fun n hn => (h n).2 hn)]

/-! ## Machines with and without fusion -/

/-- Two machines of programs of one schedule that hold the same variables. -/
structure Alike (t : Trace) (s : Schedule) (options options' : CompileOptions)
    (m m' : Machine) : Prop where
  left : t.Compiled s options m.program
  right : t.Compiled s options' m'.program
  states_eq : m.states.get? = m'.states.get?
  holds : Holds m.program.nodes m.states.get?

namespace Alike
variable {options' : CompileOptions}

theorem nodes_eq (h : t.Alike s options options' m m') : m.program.nodes = m'.program.nodes :=
  h.left.nodes_eq.trans h.right.nodes_eq.symm

theorem stateId_eq (h : t.Alike s options options' m m') (name : String) :
    m.stateId name = m'.stateId name := by
  simp only [Machine.stateId, h.nodes_eq]

theorem get_eq (h : t.Alike s options options' m m') (name : String) :
    m.get name = m'.get name := by
  have hlookup : Program.lookup m.states = Program.lookup m'.states := by
    funext id
    simp only [Program.lookup, h.states_eq]
  rw [Machine.get, Machine.get, h.stateId_eq, hlookup]

theorem slot?_eq (h : t.Alike s options options' m m') (hs : t.Scheduled s) (name : String) :
    m.signature.slot? name = m'.signature.slot? name := by
  have hstates : m.signature.states = m'.signature.states :=
    (h.left.states_eq hs).trans (h.right.states_eq hs).symm
  rw [Signature.slot?, Signature.slot?, hstates]

end Alike

/-- The variable of a name and its declaration are the same node. -/
theorem Compiled.exists_variable (hp : t.Compiled s options m.program) (ht : t.WellFormed)
    (hs : t.Scheduled s) {name : String} (hid : m.stateId name = .ok id) {slot : Nat}
    {decl : ArrayDecl} (hslot : m.signature.slot? name = some (slot, decl)) :
    ∃ n ∈ m.program.nodes, n.id = id ∧ n.isState = true ∧ n.decl = decl := by
  simp only [Machine.stateId] at hid
  split at hid
  · rename_i n hfind
    cases hid
    have hn := List.mem_of_find?_eq_some hfind
    have hname := List.find?_some hfind
    rw [decide_eq_true_eq] at hname
    obtain ⟨hname, hstate⟩ := hname
    have hmem := ((hp.mem_nodes ht).1 hn).1
    refine ⟨n, hn, rfl, hstate, ?_⟩
    obtain ⟨⟨decl', slot'⟩, hslot, he⟩ := Option.map_eq_some_iff.1 hslot
    cases he
    have hdecl := List.fst_mem_of_mem_zipIdx (List.mem_of_find?_eq_some hslot)
    have hdeclname : decl.name = name := by simpa using List.find?_some hslot
    have hstates : m.signature.states =
        ((t.nodesAt s.nodes).filter Node.isState).map Node.decl := hp.states_eq hs
    rw [hstates] at hdecl
    obtain ⟨n', hn', rfl⟩ := List.mem_map.1 hdecl
    have hmem' := (ht.mem_nodesAt.1 (List.mem_filter.1 hn').1).1
    rw [List.inj_on_of_nodup_map ht.names_nodup hmem hmem' (hname.trans hdeclname.symm)]
  · cases hid

namespace Alike
variable {options' : CompileOptions}

section
variable (h : t.Alike s options options' m m') (ht : t.Reachable) (hs : t.Scheduled s)
include h ht hs

/-- Setting a variable succeeds on both machines or on neither. -/
theorem set (name : String) (value : Tensor) :
    Option.Rel (t.Alike s options options') (m.set name value).toOption
      (m'.set name value).toOption := by
  simp only [Machine.set, toOption_bind, h.stateId_eq, h.slot?_eq hs]
  cases hid : m'.stateId name with
  | error e => exact .none
  | ok id =>
    simp only [Except.toOption, Option.bind_some]
    cases hslot : m'.signature.slot? name with
    | none => exact .none
    | some r =>
      obtain ⟨slot, decl⟩ := r
      obtain ⟨n, hn, rfl, hstate, rfl⟩ := h.left.exists_variable ht.wellFormed hs
        (h.stateId_eq name ▸ hid) (h.slot?_eq hs name ▸ hslot)
      by_cases htype : value.type = n.type
      · have hcheck : n.decl.check value = .ok () := by simp [ArrayDecl.check, Node.decl, htype]
        simp only [hcheck]
        refine .some ⟨h.left, h.right, ?_, ?_⟩
        · rw [Store.get?_insert, Store.get?_insert, h.states_eq]
        · rw [Store.get?_insert]
          exact h.holds.set ht.wellFormed (h.left.mem_trace ht.wellFormed) hn hstate htype
      · have hcheck : ∃ e, n.decl.check value = .error e := by
          simp [ArrayDecl.check, Node.decl, htype]
        obtain ⟨e, hcheck⟩ := hcheck
        simp only [hcheck]
        exact .none

/-- A call succeeds on both machines or on neither, with the same results. -/
theorem call [FloatProduct] (binding : String → Tensor) :
    Option.Rel (fun r r' => r.1 = r'.1 ∧ t.Alike s options options' r.2 r'.2)
      (m.call (m.arguments binding)).toOption (m'.call (m'.arguments binding)).toOption := by
  let params := t.passed (t.planOf s options.fuse)
  let params' := t.passed (t.planOf s options'.fuse)
  let f : Node → Tensor := fun n => binding n.name
  have hargs : m.arguments binding = params.map f := by
    have hparameters : m.signature.parameters = params.map Node.decl := h.left.parameters_eq
    simp [Machine.arguments, hparameters, Function.comp_def, Node.decl, f]
  have hargs' : m'.arguments binding = params'.map f := by
    have hparameters : m'.signature.parameters = params'.map Node.decl := h.right.parameters_eq
    simp [Machine.arguments, hparameters, Function.comp_def, Node.decl, f]
  have hmem : ∀ n, n ∈ params ↔ n ∈ params' := fun n =>
    (mem_passed_planOf ht hs options.fuse).trans (mem_passed_planOf ht hs options'.fuse).symm
  rw [hargs, hargs']
  by_cases haccepts : ∀ n ∈ params, (f n).type = n.type
  · have hα : argMemory params (params.map f) = argMemory params' (params'.map f) :=
      argMemory_map_eq f (nodup_map_id_distinct _) (nodup_map_id_distinct _) hmem
    have haccepts' : ∀ n ∈ params', (f n).type = n.type := fun n hn =>
      haccepts n ((hmem n).2 hn)
    have htyped : t.Typed (argMemory params (params.map f)) :=
      typed_argMemory ht.wellFormed
        (fun n hn => ((mem_passed_planOf ht hs options.fuse).1 hn).1)
        ((accepts_map_iff f).2 haccepts)
    have hnodes : ∀ n ∈ m.program.nodes, n ∈ t.nodes := h.left.mem_trace ht.wellFormed
    have hholds' : Holds m.program.nodes m'.states.get? := h.states_eq ▸ h.holds
    have hcall := toOption_call ht hs h.left (h.holds.typed ht.wellFormed hnodes)
      (h.holds.hidden ht.wellFormed hnodes hs _) ((accepts_map_iff f).2 haccepts)
    have hcall' := toOption_call ht hs h.right
      (hholds'.typed ht.wellFormed hnodes) (hholds'.hidden ht.wellFormed hnodes hs _)
      ((accepts_map_iff f).2 haccepts')
    rw [← h.states_eq, ← hα] at hcall'
    cases hanswer : t.answer s m.states.get? (argMemory params (params.map f)) with
    | none =>
      rw [hanswer] at hcall hcall'
      rw [Option.map_eq_none_iff.1 hcall, Option.map_eq_none_iff.1 hcall']
      exact .none
    | some a =>
      rw [hanswer] at hcall hcall'
      obtain ⟨r, hr, hra⟩ := Option.map_eq_some_iff.1 hcall
      obtain ⟨r', hr', hra'⟩ := Option.map_eq_some_iff.1 hcall'
      rw [hr, hr']
      have hp := program_of_call (toOption_eq_some.1 hr)
      have hp' := program_of_call (toOption_eq_some.1 hr')
      obtain ⟨hresults, hstates⟩ := Prod.mk.inj (hra.trans hra'.symm)
      refine .some ⟨hresults, ?_, ?_, hstates, ?_⟩
      · exact hp ▸ h.left
      · exact hp' ▸ h.right
      · have := h.holds.answer ht.wellFormed hnodes htyped hanswer
        rw [← hra] at this
        exact hp.symm ▸ this
  · have hrefused : ¬ Accepts params (params.map f) := fun hacc =>
      haccepts ((accepts_map_iff f).1 hacc)
    have hrefused' : ¬ Accepts params' (params'.map f) := fun hacc =>
      haccepts fun n hn => (accepts_map_iff f).1 hacc n ((hmem n).1 hn)
    rw [toOption_call_eq_none h.left.parameters_eq hrefused,
      toOption_call_eq_none h.right.parameters_eq hrefused']
    exact .none

/-- Both machines answer a request alike, and are alike afterwards. -/
theorem serve [FloatProduct] (r : Request) :
    (m.serve r).toOption.map Prod.fst = (m'.serve r).toOption.map Prod.fst ∧
      t.Alike s options options' (m.next r) (m'.next r) := by
  have hrel : Option.Rel (fun r r' => r.1 = r'.1 ∧ t.Alike s options options' r.2 r'.2)
      (m.serve r).toOption (m'.serve r).toOption := by
    cases r with
    | get name =>
      simp only [Machine.serve, h.get_eq, toOption_bind]
      cases (m'.get name).toOption with
      | none => exact .none
      | some v => exact .some ⟨rfl, h⟩
    | set name value =>
      simp only [Machine.serve, toOption_bind]
      exact rel_bind (h.set ht hs name value) fun _ _ halike => .some ⟨rfl, halike⟩
    | call binding => exact h.call ht hs binding
  simp only [Machine.next]
  cases hr : m.serve r with
  | error e =>
    cases hr' : m'.serve r with
    | error e' => exact ⟨rfl, h⟩
    | ok a' => simp [hr, hr', Except.toOption] at hrel
  | ok a =>
    cases hr' : m'.serve r with
    | error e' => simp [hr, hr', Except.toOption] at hrel
    | ok a' =>
      simp only [hr, hr', Except.toOption, Option.rel_some_some] at hrel
      exact ⟨congrArg some hrel.1, hrel.2⟩

end

/-- Both machines answer every sequence of requests alike. -/
theorem observe [FloatProduct] (h : t.Alike s options options' m m') (ht : t.Reachable)
    (hs : t.Scheduled s) (rs : List Request) : m.observe rs = m'.observe rs := by
  induction rs generalizing m m' with
  | nil => rfl
  | cons r rs ih =>
    obtain ⟨hanswer, hnext⟩ := h.serve ht hs r
    have hget : (m.next r).get = (m'.next r).get := funext hnext.get_eq
    rw [Machine.observe, Machine.observe, hanswer, hget, ih hnext]

end Alike

/-- A variable from which every call subtracts its argument. -/
def drained : Trace :=
  [Call.state "level" (.vector .i64 [7, 9]), .placeholder "x" [2] .i64,
    .apply (.unary .neg) [⟨0, 1⟩], .apply (.binary .add) [⟨0, 0⟩, ⟨0, 2⟩],
    .assign ⟨0, 0⟩ [] ⟨0, 3⟩].foldl Trace.after { id := 0 }

end Trace
end ArrayTrace
