import ArrayTrace.Proofs.RenamedPrograms
import ArrayTrace.Proofs.Representation
import ArrayTrace.Proofs.Variables
import Mathlib.Logic.Function.Basic

/-!
# Identical traces compile identically

Two traces of one configuration that are built by the same calls, up to the trace that ids
refer to, give the same answers to all calls and compile to the same code, however the calls
are interleaved with each other and with calls on further traces.
-/

namespace ArrayTrace

/-! ## Traces side by side -/

/-- All traces under construction, by their ids. -/
abbrev World := Nat → Trace

/-- A call on one of the traces. -/
structure Event where
  context : Nat
  call : Call

/-- The calls on a trace among some events. -/
def callsOn (context : Nat) (events : List Event) : List Call :=
  (events.filter fun v => v.context = context).map Event.call

/-- What a caller can learn about a new node. -/
structure Report where
  index : Nat
  name : String
  type : TensorType
  control : List Nat
deriving DecidableEq

/-- The report of an entry. -/
def Entry.report (x : Entry) : Report :=
  ⟨x.node.id.index, x.node.name, x.node.type, x.control.map NodeId.index⟩

namespace Trace

/-- What a call returns: reports of the nodes it adds, or the error. -/
def reply (t : Trace) (c : Call) : Except TraceError (List Report) :=
  (t.perform c).map fun t' => (t'.entries.drop t.size).map Entry.report

/-- What a list of calls returns. -/
def replies (t : Trace) : List Call → List (Except TraceError (List Report))
  | [] => []
  | c :: cs => t.reply c :: (t.after c).replies cs

end Trace

namespace World

/-- The world before the first call. -/
def fresh (config : Nat → TraceConfig) : World := fun id => { id, config := config id }

/-- The world after an event. -/
def after (w : World) (v : Event) : World :=
  Function.update w v.context ((w v.context).after v.call)

/-- The world after a list of events. -/
def run (w : World) (events : List Event) : World := events.foldl after w

/-- What the calls on a trace return during a list of events. -/
def replies (w : World) (context : Nat) : List Event → List (Except TraceError (List Report))
  | [] => []
  | v :: vs =>
    if v.context = context then (w context).reply v.call :: (w.after v).replies context vs
    else (w.after v).replies context vs

theorem after_self {w : World} {v : Event} {context : Nat} (h : v.context = context) :
    w.after v context = (w context).after v.call := by
  subst h
  exact Function.update_self ..

theorem after_of_ne {w : World} {v : Event} {context : Nat} (h : v.context ≠ context) :
    w.after v context = w context :=
  Function.update_of_ne (Ne.symm h) ..

/-- Each trace depends on its own calls only. -/
theorem run_apply (w : World) (context : Nat) (events : List Event) :
    w.run events context = (callsOn context events).foldl Trace.after (w context) := by
  induction events generalizing w with
  | nil => rfl
  | cons v vs ih =>
    rw [run, List.foldl_cons]
    by_cases h : v.context = context
    · rw [callsOn, List.filter_cons_of_pos (by simpa using h), List.map_cons, List.foldl_cons,
        ← after_self h]
      exact ih (w.after v)
    · rw [callsOn, List.filter_cons_of_neg (by simpa using h), ← after_of_ne (w := w) h]
      exact ih (w.after v)

theorem replies_eq (w : World) (context : Nat) (events : List Event) :
    w.replies context events = (w context).replies (callsOn context events) := by
  induction events generalizing w with
  | nil => rfl
  | cons v vs ih =>
    rw [replies]
    by_cases h : v.context = context
    · rw [callsOn, List.filter_cons_of_pos (by simpa using h), List.map_cons, Trace.replies,
        ← after_self h, if_pos h, ih (w.after v), callsOn]
    · rw [callsOn, List.filter_cons_of_neg (by simpa using h), if_neg h, ih (w.after v),
        after_of_ne h, callsOn]

end World

/-! ## Corresponding calls -/

/-- Ids of one number in the trace they are used with, or of foreign traces. -/
def NodeId.Corresponds (a b : Nat) (x y : NodeId) : Prop :=
  (x.context = a ∧ y.context = b ∧ y.index = x.index) ∨ (x.context ≠ a ∧ y.context ≠ b)

namespace Call

/-- Calls that differ in the traces of ids only. -/
inductive Corresponds (a b : Nat) : Call → Call → Prop
  | placeholder (name : String) (shape : Shape) (dtype : DType) :
    Corresponds a b (placeholder name shape dtype) (placeholder name shape dtype)
  | state (name : String) (initial : Tensor) :
    Corresponds a b (state name initial) (state name initial)
  | constant (name : String) (value : Tensor) :
    Corresponds a b (constant name value) (constant name value)
  | literal (value : Tensor) : Corresponds a b (literal value) (literal value)
  | apply (op : Op) {xs ys : List NodeId} (h : List.Forall₂ (NodeId.Corresponds a b) xs ys) :
    Corresponds a b (apply op xs) (apply op ys)
  | assign (selection : Selection) {target target' value value' : NodeId}
    (htarget : NodeId.Corresponds a b target target')
    (hvalue : NodeId.Corresponds a b value value') :
    Corresponds a b (assign target selection value) (assign target' selection value')
  | markOutputs {xs ys : List NodeId} (h : List.Forall₂ (NodeId.Corresponds a b) xs ys) :
    Corresponds a b (markOutputs xs) (markOutputs ys)

/-- The ids that a call refers to. -/
def refs : Call → List NodeId
  | placeholder .. | state .. | constant .. | literal _ => []
  | apply _ inputs => inputs
  | assign target _ value => [target, value]
  | markOutputs outputs => outputs

end Call

/-- Errors that differ in an unknown id at most. -/
def TraceError.Alike : TraceError → TraceError → Prop
  | unknownNode _, unknownNode _ => True
  | x, y => x = y

/-- Errors that differ in an unknown id at most. -/
def CompileError.Alike : CompileError → CompileError → Prop
  | schedule (.unboundOutput _), schedule (.unboundOutput _) => True
  | x, y => x = y

/-- Computations that both succeed, with related results, or both fail, with related
errors. -/
inductive Agree {ε α : Type} (R : α → α → Prop) (S : ε → ε → Prop) :
    Except ε α → Except ε α → Prop
  | ok {x y : α} (h : R x y) : Agree R S (.ok x) (.ok y)
  | error {x y : ε} (h : S x y) : Agree R S (.error x) (.error y)

section
variable {a b : Nat} {e : Nat → Nat}

/-- Corresponding ids that are not foreign are renamed ones. -/
theorem NodeId.Corresponds.eq_or_foreign {x y : NodeId} (hab : e a = b)
    (h : NodeId.Corresponds a b x y) : y = x.rename e ∨ (x.context ≠ a ∧ y.context ≠ b) := by
  rcases h with ⟨hx, hy, hindex⟩ | h
  · exact .inl (NodeId.mk.injEq .. ▸ ⟨by rw [hy, hx, hab], hindex⟩)
  · exact .inr h

theorem eq_map_or_foreign {xs ys : List NodeId} (hab : e a = b)
    (h : List.Forall₂ (NodeId.Corresponds a b) xs ys) :
    ys = xs.map (NodeId.rename e) ∨
      ((∃ x ∈ xs, x.context ≠ a) ∧ ∃ y ∈ ys, y.context ≠ b) := by
  induction h with
  | nil => exact .inl rfl
  | @cons x y xs ys h _ ih =>
    rcases h.eq_or_foreign hab with rfl | ⟨hx, hy⟩
    · rcases ih with rfl | ⟨⟨x', hx', hxc⟩, y', hy', hyc⟩
      · exact .inl rfl
      · exact .inr ⟨⟨x', List.mem_cons_of_mem _ hx', hxc⟩, y', List.mem_cons_of_mem _ hy', hyc⟩
    · exact .inr ⟨⟨x, List.mem_cons_self, hx⟩, y, List.mem_cons_self, hy⟩

theorem Call.Corresponds.eq_or_foreign {c c' : Call} (hab : e a = b)
    (h : Call.Corresponds a b c c') :
    c' = c.rename e ∨ ((∃ x ∈ c.refs, x.context ≠ a) ∧ ∃ y ∈ c'.refs, y.context ≠ b) := by
  cases h with
  | apply op h => exact (eq_map_or_foreign hab h).imp_left fun hy => by rw [hy, Call.rename]
  | assign selection htarget hvalue =>
    refine (eq_map_or_foreign hab (.cons htarget (.cons hvalue .nil))).imp_left fun hy => ?_
    cases hy
    rfl
  | markOutputs h => exact (eq_map_or_foreign hab h).imp_left fun hy => by rw [hy, Call.rename]
  | _ => exact .inl rfl

end

/-! ## Replaying calls -/

theorem Entry.report_rename {e : Nat → Nat} (x : Entry) : (x.rename e).report = x.report := by
  simp [report, rename, NodeId.rename, Function.comp_def]

theorem TraceError.alike_rename {e : Nat → Nat} (x : TraceError) : x.Alike (x.rename e) := by
  cases x <;> trivial

theorem CompileError.alike_rename {e : Nat → Nat} (x : CompileError) : x.Alike (x.rename e) := by
  cases x with
  | schedule x => cases x <;> trivial
  | emit x => rfl

namespace Trace
variable {t : Trace} {outputs outputs' : List NodeId} {options : CompileOptions}

theorem mapM_node_of_foreign {xs : List NodeId} (h : ∃ x ∈ xs, x.context ≠ t.id) :
    ∃ x, xs.mapM t.node = .error (.unknownNode x) := by
  obtain ⟨x, hx, hforeign⟩ := h
  induction xs with
  | nil => cases hx
  | cons y ys ih =>
    rw [List.mapM_cons, node]
    cases hnode : t.node? y with
    | none => exact ⟨y, rfl⟩
    | some n =>
      rcases List.mem_cons.1 hx with rfl | hx
      · rw [node?_eq, if_neg hforeign] at hnode
        cases hnode
      · obtain ⟨z, hz⟩ := ih hx
        rw [hz]
        exact ⟨z, rfl⟩

theorem forM_node_of_error {xs : List NodeId} {error : TraceError}
    (h : xs.mapM t.node = .error error) :
    (xs.forM fun x => discard (t.node x)) = .error error := by
  induction xs with
  | nil => cases h
  | cons x xs ih =>
    rw [List.mapM_cons] at h
    show (discard (t.node x) >>= fun _ => xs.forM fun x => discard (t.node x)) = _
    cases hx : t.node x with
    | error y =>
      rw [hx] at h
      cases h
      rfl
    | ok n =>
      rw [hx] at h
      cases hxs : xs.mapM t.node with
      | error y =>
        rw [hxs] at h
        cases h
        exact ih hxs
      | ok ns =>
        rw [hxs] at h
        cases h

/-- A call that refers to another trace is refused for an unknown node. -/
theorem perform_of_foreign {c : Call} (h : ∃ x ∈ c.refs, x.context ≠ t.id) :
    ∃ x, t.perform c = .error (.unknownNode x) := by
  obtain ⟨x, hx⟩ := mapM_node_of_foreign h
  refine ⟨x, ?_⟩
  cases c with
  | apply op inputs =>
    have hx : inputs.mapM t.node = .error (.unknownNode x) := hx
    rw [perform, apply, hx]
    rfl
  | assign target selection value =>
    have hx : [target, value].mapM t.node = .error (.unknownNode x) := hx
    rw [List.mapM_cons, List.mapM_cons] at hx
    rw [perform, assign]
    cases htarget : t.node target with
    | error y =>
      rw [htarget] at hx
      cases hx
      rfl
    | ok n =>
      cases hvalue : t.node value with
      | error y =>
        rw [htarget, hvalue] at hx
        cases hx
        rfl
      | ok v =>
        rw [htarget, hvalue] at hx
        cases hx
  | markOutputs outputs =>
    have hx : outputs.mapM t.node = .error (.unknownNode x) := hx
    rw [perform, markOutputs, forM_node_of_error hx]
    rfl
  | _ => cases hx

/-- Outputs of which one is of another trace are refused, but after raw schedules are. -/
theorem Reachable.compile_of_foreign (ht : t.Reachable) (h : ∃ x ∈ outputs, x.context ≠ t.id)
    (options : CompileOptions) :
    ∃ x, t.compile outputs options =
      .error (if options.raw then .emit .rawSchedule else .schedule (.unboundOutput x)) := by
  obtain ⟨x, hx, hforeign⟩ := h
  cases hfind : outputs.find? fun id => !t.contains id with
  | some y =>
    refine ⟨y, ht.compile_eq_error ?_⟩
    rw [refusal?, hfind]
    split <;> rfl
  | none =>
    have hknown := List.find?_eq_none.1 hfind x hx
    rw [contains, node?_eq, if_neg hforeign] at hknown
    exact absurd rfl hknown

section
variable {b : Nat} {e : Nat → Nat} (he : StrictMono e) (hb : e t.id = b)
include he hb

/-- Corresponding calls lead to corresponding traces. -/
theorem perform_replay {c c' : Call} (hc : Call.Corresponds t.id b c c') :
    Agree (fun u u' => u' = u.rename e) TraceError.Alike (t.perform c)
      ((t.rename e).perform c') := by
  rcases hc.eq_or_foreign hb with rfl | ⟨h, h'⟩
  · rw [perform_rename he]
    cases t.perform c with
    | ok u => exact .ok rfl
    | error x => exact .error x.alike_rename
  · obtain ⟨x, hx⟩ := perform_of_foreign h
    obtain ⟨y, hy⟩ := perform_of_foreign (t := t.rename e) (hb ▸ h')
    rw [hx, hy]
    exact .error trivial

theorem after_replay {c c' : Call} (hc : Call.Corresponds t.id b c c') :
    (t.rename e).after c' = (t.after c).rename e := by
  have h := perform_replay he hb hc
  rw [after, after]
  generalize t.perform c = x, (t.rename e).perform c' = x' at h ⊢
  cases h with
  | ok h => exact h
  | error h => rfl

theorem reply_replay {c c' : Call} (hc : Call.Corresponds t.id b c c') :
    Agree Eq TraceError.Alike (t.reply c) ((t.rename e).reply c') := by
  have h := perform_replay he hb hc
  rw [reply, reply]
  generalize t.perform c = x, (t.rename e).perform c' = x' at h ⊢
  cases h with
  | ok h =>
    refine .ok ?_
    rw [h]
    simp [rename, size, ← List.map_drop, Function.comp_def, Entry.report_rename]
  | error h => exact .error h

theorem Reachable.compile_replay (ht : t.Reachable)
    (houtputs : List.Forall₂ (NodeId.Corresponds t.id b) outputs outputs') :
    Agree (fun p q => q = p.rename e) CompileError.Alike (t.compile outputs options)
      ((t.rename e).compile outputs' options) := by
  rcases eq_map_or_foreign hb houtputs with rfl | ⟨h, h'⟩
  · rw [ht.compile_rename he]
    cases t.compile outputs options with
    | ok p => exact .ok rfl
    | error x => exact .error x.alike_rename
  · obtain ⟨x, hx⟩ := ht.compile_of_foreign h options
    obtain ⟨y, hy⟩ := (ht.rename he).compile_of_foreign (t := t.rename e) (hb ▸ h') options
    rw [hx, hy]
    cases options.raw with
    | true => exact .error rfl
    | false => exact .error trivial

end

end Trace

/-! ## Own ids -/

theorem map_eq_self {α : Type} {f : α → α} {xs : List α} (h : ∀ x ∈ xs, f x = x) :
    xs.map f = xs := by
  rw [List.map_congr_left h, List.map_id']

section
variable {e : Nat → Nat} {b : Nat}

theorem NodeKind.rename_const (k : NodeKind) :
    (k.rename e).rename (fun _ => b) = k.rename fun _ => b := by
  cases k <;> simp [rename, NodeId.rename, Function.comp_def]

theorem Node.rename_const (n : Node) :
    (n.rename e).rename (fun _ => b) = n.rename fun _ => b := by
  simp only [rename, NodeKind.rename_const, NodeId.rename]

mutual

theorem Kernel.rename_const : (k : Kernel) →
    (k.rename e).rename (fun _ => b) = k.rename fun _ => b
  | .leaf _ => rfl
  | .apply _ _ args => by
    simp only [Kernel.rename, Kernel.renameAll_const args, NodeId.rename]

theorem Kernel.renameAll_const : (ks : List Kernel) →
    Kernel.renameAll (fun _ => b) (Kernel.renameAll e ks) = Kernel.renameAll (fun _ => b) ks
  | [] => rfl
  | k :: ks => by
    rw [Kernel.renameAll, Kernel.renameAll, Kernel.rename_const k, Kernel.renameAll_const ks,
      Kernel.renameAll]

end

theorem Plan.rename_const (p : Plan) :
    (p.rename e).rename (fun _ => b) = p.rename fun _ => b := by
  have hstep (s : Step) : (s.rename e).rename (fun _ => b) = s.rename fun _ => b := by
    cases s with
    | single _ => rfl
    | fused _ k => simp only [Step.rename, k.rename_const, NodeId.rename]
  simp only [rename, List.map_map, Function.comp_def, hstep, NodeId.rename]
  rfl

theorem Plan.rename_eq_self {p : Plan} (hsteps : ∀ s ∈ p.steps, s.rename e = s)
    (houtputs : ∀ a ∈ p.outputs, a.rename e = a) : p.rename e = p := by
  rw [rename, map_eq_self hsteps, map_eq_self houtputs]

theorem Program.rename_const (p : Program) :
    (p.rename e).rename (fun _ => b) = p.rename fun _ => b := by
  simp only [rename, List.map_map, Function.comp_def, Node.rename_const, Plan.rename_const]

end

namespace Trace
variable {t : Trace} {s : Schedule} {p : Program} {a : NodeId} {outputs : List NodeId}
  {options : CompileOptions}

theorem rename_of_contains (h : t.contains a = true) : a.rename (fun _ => t.id) = a := by
  rw [NodeId.rename, ← (contains_iff.1 h).1]

theorem WellFormed.rename_node (ht : t.WellFormed) {n : Node} (hn : n ∈ t.nodes) :
    n.rename (fun _ => t.id) = n := by
  have hid := rename_of_contains (ht.contains_id hn)
  have hinputs : ∀ x ∈ n.inputs, x.rename (fun _ => t.id) = x := fun x hx =>
    rename_of_contains (ht.input_known hn x hx).1
  obtain ⟨a, name, type, kind⟩ := n
  rw [Node.rename, hid]
  congr 1
  cases kind with
  | apply op inputs => exact congrArg _ (map_eq_self hinputs)
  | assign target selection value =>
    rw [NodeKind.rename, hinputs target (by simp [Node.inputs]),
      hinputs value (by simp [Node.inputs])]
  | _ => rfl

theorem WellFormed.rename_kernel (ht : t.WellFormed) (merged : List NodeId) (depth : Nat)
    (ha : t.contains a = true) :
    (t.kernel merged depth a).rename (fun _ => t.id) = t.kernel merged depth a := by
  induction depth generalizing a with
  | zero => exact congrArg _ (rename_of_contains ha)
  | succ depth ih =>
    rw [kernel]
    split
    · rename_i op inputs hkind
      obtain ⟨n, hn, hk⟩ := Option.map_eq_some_iff.1 hkind
      rw [Kernel.rename, rename_of_contains ha, Kernel.renameAll_eq_map]
      refine congrArg _ (map_eq_self fun k hmem => ?_)
      obtain ⟨i, hi, rfl⟩ := List.mem_map.1 hmem
      have hknown : t.contains i = true :=
        (ht.input_known (mem_of_node? hn) i (by simpa [Node.inputs, hk] using hi)).1
      split
      · exact ih hknown
      · exact congrArg _ (rename_of_contains hknown)
    · exact congrArg _ (rename_of_contains ha)

theorem WellFormed.rename_planOf (ht : t.WellFormed) (hs : t.Scheduled s) (fuse : Bool) :
    (t.planOf s fuse).rename (fun _ => t.id) = t.planOf s fuse := by
  have hid {a : NodeId} (ha : a ∈ s.nodes) : a.rename (fun _ => t.id) = a :=
    rename_of_contains (hs.known ha)
  cases fuse with
  | false =>
    refine Plan.rename_eq_self (fun step hstep => ?_) fun a ha => hid (hs.output_mem ha)
    obtain ⟨a, ha, rfl⟩ := List.mem_map.1 hstep
    exact congrArg _ (hid ha)
  | true =>
    refine Plan.rename_eq_self (fun step hstep => ?_) fun a ha => hid (hs.output_mem ha)
    obtain ⟨a, ha, rfl⟩ := List.mem_map.1 hstep
    have ha := (List.mem_filter.1 ha).1
    split
    · rw [Step.rename, hid ha, ht.rename_kernel _ _ (hs.known ha)]
    · exact congrArg _ (hid ha)

/-- All ids of a program are of the trace that it is compiled from. -/
theorem Reachable.rename_program (ht : t.Reachable) (hp : t.compile outputs options = .ok p) :
    p.rename (fun _ => t.id) = p := by
  obtain ⟨-, houtputs, -, hcompiled⟩ := ht.of_compile_eq_ok hp
  have hs := ht.scheduled_needed houtputs
  have hnodes : p.nodes.map (Node.rename fun _ => t.id) = p.nodes := map_eq_self fun n hn =>
    ht.wellFormed.rename_node (hcompiled.mem_trace ht.wellFormed n hn)
  rw [Program.rename, hnodes, hcompiled.plan_eq, ht.wellFormed.rename_planOf hs,
    ← hcompiled.plan_eq]

end Trace

/-! ## Twins -/

theorem Agree.symm {ε α : Type} {R : α → α → Prop} {S : ε → ε → Prop} {x y : Except ε α}
    (h : Agree R S x y) : Agree (flip R) (flip S) y x := by
  cases h with
  | ok h => exact .ok h
  | error h => exact .error h

theorem Agree.imp {ε α : Type} {R R' : α → α → Prop} {S S' : ε → ε → Prop} {x y : Except ε α}
    (h : Agree R S x y) (hR : ∀ a b, x = .ok a → y = .ok b → R a b → R' a b)
    (hS : ∀ a b, S a b → S' a b) : Agree R' S' x y := by
  cases h with
  | ok h => exact .ok (hR _ _ rfl rfl h)
  | error h => exact .error (hS _ _ h)

theorem TraceError.Alike.symm {x y : TraceError} (h : x.Alike y) : y.Alike x := by
  cases x <;> cases y <;> first | trivial | exact Eq.symm h

theorem CompileError.Alike.symm {x y : CompileError} (h : x.Alike y) : y.Alike x := by
  rcases x with (_ | _) | _ <;> rcases y with (_ | _) | _ <;> first | trivial | exact Eq.symm h

section
variable {a b : Nat}

theorem NodeId.Corresponds.symm {x y : NodeId} (h : NodeId.Corresponds a b x y) :
    NodeId.Corresponds b a y x :=
  h.imp (fun ⟨hx, hy, hindex⟩ => ⟨hy, hx, hindex.symm⟩) And.symm

theorem NodeId.forall₂_corresponds_symm {xs ys : List NodeId}
    (h : List.Forall₂ (NodeId.Corresponds a b) xs ys) :
    List.Forall₂ (NodeId.Corresponds b a) ys xs :=
  (h.imp fun _ _ h => h.symm).flip

theorem Call.Corresponds.symm {c c' : Call} (h : Call.Corresponds a b c c') :
    Call.Corresponds b a c' c := by
  cases h with
  | apply op h => exact .apply op (NodeId.forall₂_corresponds_symm h)
  | assign selection htarget hvalue => exact .assign selection htarget.symm hvalue.symm
  | markOutputs h => exact .markOutputs (NodeId.forall₂_corresponds_symm h)
  | placeholder => exact .placeholder ..
  | state => exact .state ..
  | constant => exact .constant ..
  | literal => exact .literal ..

end

/-- `q` is `p` with the traces of all ids replaced by one. -/
structure Program.Matches (context : Nat) (p q : Program) : Prop where
  source_eq : q.unit.source = p.unit.source
  signature_eq : q.signature = p.signature
  nodes_eq : q.nodes = p.nodes.map (Node.rename fun _ => context)
  plan_eq : q.plan = p.plan.rename fun _ => context

theorem Program.matches_of_eq {context : Nat} {p q : Program}
    (h : q = p.rename fun _ => context) : p.Matches context q := by
  subst h
  exact ⟨rfl, rfl, rfl, rfl⟩

/-- Reachable traces of which one is the other renamed. -/
structure Trace.Twin (t t' : Trace) : Prop where
  left : t.Reachable
  right : t'.Reachable
  renamed : ∃ e, StrictMono e ∧ (t' = t.rename e ∨ t = t'.rename e)

namespace Trace.Twin
variable {t t' : Trace} {c c' : Call} {outputs outputs' : List NodeId}

theorem start {a b : Nat} (hab : a ≠ b) (config : TraceConfig) :
    Trace.Twin { id := a, config } { id := b, config } := by
  refine ⟨.start a config, .start b config, ?_⟩
  rcases Nat.lt_or_gt_of_ne hab with h | h
  · refine ⟨(· + (b - a)), fun x y hxy => Nat.add_lt_add_right hxy _, .inl ?_⟩
    rw [rename]
    simp [Nat.add_sub_cancel' (Nat.le_of_lt h)]
  · refine ⟨(· + (a - b)), fun x y hxy => Nat.add_lt_add_right hxy _, .inr ?_⟩
    rw [rename]
    simp [Nat.add_sub_cancel' (Nat.le_of_lt h)]

variable (h : t.Twin t')
include h

theorem reply (hc : Call.Corresponds t.id t'.id c c') :
    Agree Eq TraceError.Alike (t.reply c) (t'.reply c') := by
  obtain ⟨e, he, rfl | rfl⟩ := h.renamed
  · exact reply_replay he rfl hc
  · exact (reply_replay he rfl hc.symm).symm.imp (fun _ _ _ _ h => Eq.symm h) fun _ _ h => h.symm

theorem after (hc : Call.Corresponds t.id t'.id c c') : (t.after c).Twin (t'.after c') := by
  refine ⟨h.left.call c, h.right.call c', ?_⟩
  obtain ⟨e, he, rfl | rfl⟩ := h.renamed
  · exact ⟨e, he, .inl (after_replay he rfl hc)⟩
  · exact ⟨e, he, .inr (after_replay he rfl hc.symm)⟩

theorem compile (houtputs : List.Forall₂ (NodeId.Corresponds t.id t'.id) outputs outputs')
    (options : CompileOptions) :
    Agree (Program.Matches t'.id) CompileError.Alike (t.compile outputs options)
      (t'.compile outputs' options) := by
  have hown {q : Program} (hq : t'.compile outputs' options = .ok q) :
      q.rename (fun _ => t'.id) = q := h.right.rename_program hq
  obtain ⟨e, he, rfl | rfl⟩ := h.renamed
  · refine (h.left.compile_replay he rfl houtputs).imp (fun p q _ hq hpq => ?_) fun _ _ h => h
    refine Program.matches_of_eq ?_
    rw [← hown hq, hpq, Program.rename_const]
  · refine (h.right.compile_replay he rfl (NodeId.forall₂_corresponds_symm houtputs)).symm.imp
      (fun p q _ hq hpq => ?_) fun _ _ h => h.symm
    refine Program.matches_of_eq ?_
    rw [← hown hq, show p = q.rename e from hpq, Program.rename_const]

/-- The induction is on the calls: the traces stay twins. -/
theorem calls {cs cs' : List Call}
    (hcs : List.Forall₂ (Call.Corresponds t.id t'.id) cs cs') :
    List.Forall₂ (Agree Eq TraceError.Alike) (t.replies cs) (t'.replies cs') ∧
      (cs.foldl Trace.after t).Twin (cs'.foldl Trace.after t') := by
  induction cs generalizing t t' cs' with
  | nil =>
    cases hcs
    exact ⟨.nil, h⟩
  | cons c cs ih =>
    cases hcs with
    | @cons _ c' _ cs' hc hcs =>
      rw [← (h.left.preserves_after c).id_eq, ← (h.right.preserves_after c').id_eq] at hcs
      obtain ⟨hreplies, htwin⟩ := ih (h.after hc) hcs
      exact ⟨.cons (h.reply hc) hreplies, htwin⟩

end Trace.Twin

/-! ## Identical traces -/

namespace World
variable {a b : Nat} {events : List Event}

/-- Traces of one configuration that get corresponding calls, among any other events, give the
same replies, and corresponding outputs compile to the same code, signature, nodes and plan,
but for the trace of the ids. -/
theorem replay (config : Nat → TraceConfig) (hab : a ≠ b) (hconfig : config a = config b)
    (hcalls : List.Forall₂ (Call.Corresponds a b) (callsOn a events) (callsOn b events)) :
    List.Forall₂ (Agree Eq TraceError.Alike) ((fresh config).replies a events)
        ((fresh config).replies b events) ∧
      ∀ outputs outputs' options, List.Forall₂ (NodeId.Corresponds a b) outputs outputs' →
        Agree (Program.Matches b) CompileError.Alike
          (((fresh config).run events a).compile outputs options)
          (((fresh config).run events b).compile outputs' options) := by
  have hstart : (fresh config a).Twin (fresh config b) := by
    rw [fresh, fresh, ← hconfig]
    exact .start hab (config a)
  obtain ⟨hreplies, htwin⟩ := hstart.calls hcalls
  rw [replies_eq, replies_eq, run_apply, run_apply]
  refine ⟨hreplies, fun outputs outputs' options houtputs => ?_⟩
  have ha := (hstart.left.preserves_calls (callsOn a events)).id_eq
  have hb := (hstart.right.preserves_calls (callsOn b events)).id_eq
  generalize (callsOn a events).foldl Trace.after (fresh config a) = t at htwin ha ⊢
  generalize (callsOn b events).foldl Trace.after (fresh config b) = t' at htwin hb ⊢
  obtain rfl : t.id = a := ha
  obtain rfl : t'.id = b := hb
  exact htwin.compile houtputs options

/-- Calls on two traces and on a third one: a variable is negated and the result assigned to
it. A sum with a foreign node is refused in between. -/
def interleaved : List Event :=
  let w := Call.state "w" ⟨.i64, .vector [1, 2]⟩
  [⟨5, w⟩, ⟨2, w⟩, ⟨7, .placeholder "x" [2] .i64⟩, ⟨5, .apply (.unary .neg) [⟨5, 0⟩]⟩,
    ⟨5, .apply (.binary .add) [⟨5, 0⟩, ⟨2, 0⟩]⟩, ⟨2, .apply (.unary .neg) [⟨2, 0⟩]⟩,
    ⟨5, .assign ⟨5, 0⟩ [.whole] ⟨5, 1⟩⟩, ⟨2, .apply (.binary .add) [⟨2, 0⟩, ⟨7, 0⟩]⟩,
    ⟨2, .assign ⟨2, 0⟩ [.whole] ⟨2, 1⟩⟩]

theorem replay_interleaved :
    ∃ p q, ((fresh fun _ => {}).run interleaved 5).compile [⟨5, 2⟩] {} = .ok p ∧
      ((fresh fun _ => {}).run interleaved 2).compile [⟨2, 2⟩] {} = .ok q ∧
      q.unit.source = p.unit.source := by
  have hown (k : Nat) : NodeId.Corresponds 5 2 ⟨5, k⟩ ⟨2, k⟩ := .inl ⟨rfl, rfl, rfl⟩
  have hforeign : NodeId.Corresponds 5 2 ⟨2, 0⟩ ⟨7, 0⟩ := .inr (by decide)
  have hcalls : List.Forall₂ (Call.Corresponds 5 2) (callsOn 5 interleaved)
      (callsOn 2 interleaved) :=
    .cons (.state ..) (.cons (.apply _ (.cons (hown 0) .nil))
      (.cons (.apply _ (.cons (hown 0) (.cons hforeign .nil)))
        (.cons (.assign _ (hown 0) (hown 1)) .nil)))
  have hreachable : ((fresh fun _ => {}).run interleaved 5).Reachable := by
    rw [run_apply]
    exact .calls (.start 5 {}) _
  have houtputs : ∀ o ∈ [(⟨5, 2⟩ : NodeId)],
      ((fresh fun _ => {}).run interleaved 5).contains o = true := by decide
  obtain ⟨p, hp, -⟩ := hreachable.compile_eq_ok houtputs {} rfl (by decide)
  have hagree := (replay (fun _ => {}) (by decide) rfl hcalls).2 [⟨5, 2⟩] [⟨2, 2⟩] {}
    (.cons (hown 2) .nil)
  rw [hp] at hagree
  generalize hq : ((fresh fun _ => {}).run interleaved 2).compile [⟨2, 2⟩] {} = x at hagree
  cases hagree with
  | ok h => exact ⟨p, _, hp, rfl, h.source_eq⟩

end World

end ArrayTrace
