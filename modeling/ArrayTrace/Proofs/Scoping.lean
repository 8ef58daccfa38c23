import ArrayTrace.Proofs.Containment
import ArrayTrace.Proofs.Declarations
import ArrayTrace.Proofs.Representation
import ArrayTrace.Proofs.Totality
import ArrayTrace.Proofs.Variables

/-!
# Names declared by compiled units

A unit declares names at the level of the file, in the structure that holds its state, and
in the function that runs it. Whatever names the user has chosen, the members of the state
have names of their own, and no statement of the function declares a name that is in scope
where it stands. At the level of the file there is one kind of clash: a constant or a
variable whose name, with its prefix, is that of an entry point.
-/

namespace ArrayTrace

/-! ## Declarations in statements -/

namespace C.Stmt
variable {s s₁ s₂ : Stmt} {ss : List Stmt} {scope : List String} {loops : List Loop}

/-- Names that a statement declares in the block that it stands in. -/
def declared : Stmt → List String
  | seq s₁ s₂ => s₂.declared ++ s₁.declared
  | declare _ x _ | bind _ x _ => [x]
  | _ => []

/-- Whether every name that a statement declares is new where it is declared: declared
neither before in the same block nor in a block around it. -/
def Fresh (scope : List String) : Stmt → Prop
  | seq s₁ s₂ => s₁.Fresh scope ∧ s₂.Fresh (s₁.declared ++ scope)
  | declare _ x _ | bind _ x _ => x ∉ scope
  | ifLine _ s | block s => s.Fresh scope
  | loopLine l s | loop l s => l.var ∉ scope ∧ s.Fresh (l.var :: scope)
  | _ => True

/-- Loops over different counters, nested around a statement that declares nothing. -/
theorem fresh_nest (hs : ∀ scope, s.Fresh scope) (hnodup : (loops.map Loop.var).Nodup)
    (hscope : ∀ l ∈ loops, l.var ∉ scope) : (nest loops s).Fresh scope := by
  induction loops generalizing scope with
  | nil => exact hs scope
  | cons l loops ih =>
    obtain ⟨hl, hnodup⟩ := List.nodup_cons.1 hnodup
    obtain ⟨hlscope, hscope⟩ := List.forall_mem_cons.1 hscope
    refine ⟨hlscope, ih hnodup fun l' hl' => ?_⟩
    have hne : l'.var ≠ l.var := fun he => hl (he ▸ List.mem_map_of_mem hl')
    exact List.not_mem_cons_of_ne_of_not_mem hne (hscope l' hl')

theorem declared_nest (hs : s.declared = []) : (nest loops s).declared = [] := by
  cases loops with
  | nil => exact hs
  | cons l loops => rfl

end C.Stmt

namespace C.SourceFile

/-- Names of the members of the state. -/
def memberNames (u : SourceFile) : List String := "reserved" :: u.members.map Member.name

/-- Names in scope at the beginning of the body of a call. -/
def callScope : List String := ["state", "state_ptr", "args", "n_args", "outs", "n_outs"]

end C.SourceFile

/-- Name of the table of a node, if it has one. -/
def Node.tableName? (n : Node) : Option String :=
  match n.kind with
  | .constant _ => some ("c_" ++ n.name)
  | .state _ => some ("i_" ++ n.name)
  | _ => none

/-! ## The code of steps -/

namespace Emit

open C

/-- Names that the code of a step declares. -/
def IsLocal (x : String) : Prop :=
  x ∈ ["i", "j", "o", "p", "acc", "x"] ∨ ∃ axis, x = counter axis

/-- A scope that holds no name of the code of a step. -/
def Avoids (scope : List String) : Prop := ∀ x ∈ scope, ¬ IsLocal x

/-- A statement that declares new names within blocks of its own only. -/
structure Tidy (st : Stmt) : Prop where
  fresh : ∀ {scope}, Avoids scope → st.Fresh scope
  declared_eq : st.declared = []

variable {scope : EmitScope} {n : Node} {st : Stmt} {sts : List Stmt} {inputs : List NodeId}

theorem Avoids.not_mem {scope : List String} {x : String} (h : Avoids scope)
    (hx : x ∈ ["i", "j", "o", "p", "acc", "x"]) : x ∉ scope :=
  fun hmem => h x hmem (.inl hx)

namespace Tidy

theorem skip : Tidy .skip := ⟨fun _ => trivial, rfl⟩

theorem comment {text : String} (h : Tidy st) : Tidy (.seq (.comment text) st) where
  fresh hscope := ⟨trivial, h.fresh hscope⟩
  declared_eq := by rw [Stmt.declared, h.declared_eq]; rfl

theorem store {place value : Expr} : Tidy (.store place value) := ⟨fun _ => trivial, rfl⟩

theorem all (h : ∀ st ∈ sts, Tidy st) : Tidy (.all sts) := by
  induction sts with
  | nil => exact skip
  | cons st sts ih =>
    obtain ⟨hst, hsts⟩ := List.forall_mem_cons.1 h
    have hrest : Tidy (.all sts) := ih hsts
    refine ⟨fun {scope} hscope => ⟨hst.fresh hscope, ?_⟩, ?_⟩
    · rw [hst.declared_eq]
      exact hrest.fresh hscope
    · rw [Stmt.all, List.foldr_cons, Stmt.declared, hst.declared_eq, List.append_nil]
      exact hrest.declared_eq

/-- A loop nest has a counter for every axis. -/
theorem nest {r : Region} {place value : Expr} :
    Tidy (.nest (regionLoops r) (.store place value)) where
  fresh {scope} hscope := by
    refine Stmt.fresh_nest (fun _ => trivial) ?_ fun l hl hmem => ?_
    · have hvars : (regionLoops r).map Loop.var = (List.range' 0 r.length).map counter := by
        rw [regionLoops, List.map_map, ← List.zipIdx_map_snd, List.map_map]
        rfl
      rw [hvars]
      exact List.Nodup.map counter_injective (List.nodup_range' _)
    · obtain ⟨⟨s, axis⟩, -, rfl⟩ := List.mem_map.1 hl
      exact hscope _ hmem (.inr ⟨axis, rfl⟩)
  declared_eq := Stmt.declared_nest rfl

end Tidy

theorem tidy_kernel {root : NodeId} {k : Kernel} (h : kernel scope root k = .ok st) : Tidy st := by
  obtain ⟨_, -, h⟩ := Except.bind_eq_ok.1 h
  obtain ⟨_, -, h⟩ := Except.bind_eq_ok.1 h
  obtain ⟨_, -, h⟩ := Except.bind_eq_ok.1 h
  obtain ⟨_, -, h⟩ := Except.bind_eq_ok.1 h
  cases h
  exact .comment .nest

theorem tidy_transpose (h : transpose scope n inputs = .ok st) : Tidy st := by
  obtain ⟨_, -, h⟩ := Except.bind_eq_ok.1 h
  obtain ⟨_, -, h⟩ := Except.bind_eq_ok.1 h
  obtain ⟨_, -, h⟩ := Except.bind_eq_ok.1 h
  cases h
  exact .comment .nest

theorem tidy_slice {selection : Selection} (h : slice scope n selection inputs = .ok st) :
    Tidy st := by
  obtain ⟨_, -, h⟩ := Except.bind_eq_ok.1 h
  obtain ⟨_, -, h⟩ := Except.bind_eq_ok.1 h
  obtain ⟨_, -, h⟩ := Except.bind_eq_ok.1 h
  obtain ⟨_, -, h⟩ := Except.bind_eq_ok.1 h
  cases h
  exact .comment .nest

theorem tidy_assign {target value : NodeId} {selection : Selection}
    (h : assign scope n target selection value = .ok st) : Tidy st := by
  obtain ⟨_, -, h⟩ := Except.bind_eq_ok.1 h
  obtain ⟨_, -, h⟩ := Except.bind_eq_ok.1 h
  obtain ⟨_, -, h⟩ := Except.bind_eq_ok.1 h
  obtain ⟨_, -, h⟩ := Except.bind_eq_ok.1 h
  obtain ⟨_, -, h⟩ := Except.bind_eq_ok.1 h
  cases h
  exact .comment .nest

theorem tidy_copyBlocks {target value : Expr} {outer outBlock start block : Nat} :
    Tidy (copyBlocks target outer outBlock start block value) where
  fresh {scope} hscope := by
    have ho := hscope.not_mem (x := "o") (by decide)
    have hj := hscope.not_mem (x := "j") (by decide)
    simp [copyBlocks, Stmt.Fresh, ho, hj]
  declared_eq := rfl

theorem tidy_concatParts {target : Expr} {axis start : Nat} {r : List String × List Stmt}
    (h : concatParts scope n target axis start inputs = .ok r) : ∀ st ∈ r.2, Tidy st := by
  induction inputs generalizing start r with
  | nil =>
    cases h
    exact nofun
  | cons id inputs ih =>
    rw [concatParts] at h
    obtain ⟨_, -, h⟩ := Except.bind_eq_ok.1 h
    obtain ⟨_, -, h⟩ := Except.bind_eq_ok.1 h
    obtain ⟨rest, hrest, h⟩ := Except.bind_eq_ok.1 h
    cases h
    exact List.forall_mem_cons.2 ⟨tidy_copyBlocks, ih hrest⟩

theorem tidy_concat {axis : Nat} (h : concat scope n axis inputs = .ok st) : Tidy st := by
  obtain ⟨_, -, h⟩ := Except.bind_eq_ok.1 h
  obtain ⟨_, hparts, h⟩ := Except.bind_eq_ok.1 h
  cases h
  exact .comment (.all (tidy_concatParts hparts))

theorem tidy_stackParts {target : Expr} {k : Nat} {r : List String × List Stmt}
    (h : stackParts scope n target k inputs = .ok r) : ∀ st ∈ r.2, Tidy st := by
  induction inputs generalizing k r with
  | nil =>
    cases h
    exact nofun
  | cons id inputs ih =>
    rw [stackParts] at h
    obtain ⟨_, -, h⟩ := Except.bind_eq_ok.1 h
    obtain ⟨_, -, h⟩ := Except.bind_eq_ok.1 h
    obtain ⟨rest, hrest, h⟩ := Except.bind_eq_ok.1 h
    cases h
    refine List.forall_mem_cons.2 ⟨⟨fun hscope => ⟨?_, trivial⟩, rfl⟩, ih hrest⟩
    exact hscope.not_mem (x := "j") (by decide)

theorem tidy_stack (h : stack scope n inputs = .ok st) : Tidy st := by
  obtain ⟨_, -, h⟩ := Except.bind_eq_ok.1 h
  obtain ⟨_, hparts, h⟩ := Except.bind_eq_ok.1 h
  cases h
  exact .comment (.all (tidy_stackParts hparts))

theorem tidy_matmul (h : matmul scope n inputs = .ok st) : Tidy st := by
  obtain ⟨_, -, h⟩ := Except.bind_eq_ok.1 h
  dsimp only at h
  split at h
  · obtain ⟨_, -, h⟩ := Except.bind_eq_ok.1 h
    obtain ⟨_, -, h⟩ := Except.bind_eq_ok.1 h
    obtain ⟨_, -, h⟩ := Except.bind_eq_ok.1 h
    cases h
    refine .comment ⟨fun {scope} hscope => ?_, rfl⟩
    have hi := hscope.not_mem (x := "i") (by decide)
    have hj := hscope.not_mem (x := "j") (by decide)
    have hacc := hscope.not_mem (x := "acc") (by decide)
    have hp := hscope.not_mem (x := "p") (by decide)
    simp [Stmt.all, Stmt.Fresh, Stmt.declared, hi, hj, hacc, hp]
  · cases h

theorem tidy_cross (h : cross scope n inputs = .ok st) : Tidy st := by
  obtain ⟨_, -, h⟩ := Except.bind_eq_ok.1 h
  obtain ⟨_, -, h⟩ := Except.bind_eq_ok.1 h
  obtain ⟨_, -, h⟩ := Except.bind_eq_ok.1 h
  obtain ⟨_, -, h⟩ := Except.bind_eq_ok.1 h
  cases h
  refine .comment (.all fun st hst => ?_)
  simp only [List.mem_cons, List.not_mem_nil, or_false] at hst
  rcases hst with rfl | rfl | rfl <;> exact .store

theorem tidy_sum (h : sum scope n inputs = .ok st) : Tidy st := by
  obtain ⟨_, -, h⟩ := Except.bind_eq_ok.1 h
  obtain ⟨_, -, h⟩ := Except.bind_eq_ok.1 h
  obtain ⟨_, -, h⟩ := Except.bind_eq_ok.1 h
  cases h
  refine .comment ⟨fun {scope} hscope => ?_, rfl⟩
  have hacc := hscope.not_mem (x := "acc") (by decide)
  have hj := hscope.not_mem (x := "j") (by decide)
  simp [Stmt.all, Stmt.Fresh, Stmt.declared, hacc, hj]

theorem tidy_norm {order : NormOrder} (h : norm scope n order inputs = .ok st) : Tidy st := by
  obtain ⟨_, -, h⟩ := Except.bind_eq_ok.1 h
  obtain ⟨_, -, h⟩ := Except.bind_eq_ok.1 h
  obtain ⟨_, -, h⟩ := Except.bind_eq_ok.1 h
  cases h
  refine .comment ⟨fun {scope} hscope => ?_, rfl⟩
  have hacc := hscope.not_mem (x := "acc") (by decide)
  have hj := hscope.not_mem (x := "j") (by decide)
  have hx := hscope.not_mem (x := "x") (by decide)
  cases order <;> simp [Stmt.all, Stmt.Fresh, Stmt.declared, hacc, hj, hx]

theorem tidy_emitApply {op : Op} (h : Trace.emitApply scope n op inputs = .ok st) : Tidy st := by
  cases op with
  | binary _ | unary _ | cast _ | choose => exact tidy_kernel h
  | matmul => exact tidy_matmul h
  | cross => exact tidy_cross h
  | transpose => exact tidy_transpose h
  | slice => exact tidy_slice h
  | concat => exact tidy_concat h
  | stack => exact tidy_stack h
  | sum => exact tidy_sum h
  | norm => exact tidy_norm h

/-- The code of every step declares its names within blocks of its own. -/
theorem tidy_emitStep {step : Step} (h : Trace.emitStep scope step = .ok st) : Tidy st := by
  cases step with
  | fused root k => exact tidy_kernel h
  | single id =>
    rw [Trace.emitStep] at h
    obtain ⟨_, -, h⟩ := Except.bind_eq_ok.1 h
    split at h
    · cases h
      exact .skip
    · cases h
      exact .skip
    · cases h
      exact .skip
    · exact tidy_emitApply h
    · exact tidy_assign h

/-- Names of arrays, which have an underscore in second place, are not local to steps. -/
theorem not_isLocal_label (s : Storage) : ¬ IsLocal s.label := by
  have hsecond : Reserved s.label := .inl (by simp [Storage.toList_label])
  rintro (hmem | ⟨axis, he⟩)
  · have hlocals : ∀ x ∈ ["i", "j", "o", "p", "acc", "x"], ¬ Reserved x := by decide
    exact hlocals _ hmem hsecond
  · exact not_reserved_counter axis (he ▸ hsecond)

end Emit

/-! ## Units -/

namespace Trace
variable {t : Trace} {s : Schedule} {plan : Plan} {p : Program} {options : CompileOptions}
  {unitName : String} {steps results rest : List C.Stmt} {n : Node} {ps : List (Node × Nat)}
  {A : List NodeId} {outputs : List NodeId}

theorem avoids_callScope : Emit.Avoids C.SourceFile.callScope := by
  have hlocals : ∀ x ∈ C.SourceFile.callScope,
      x ∉ ["i", "j", "o", "p", "acc", "x"] ∧ x.toList.head? ≠ some 'i' := by decide
  rintro x hx (hmem | ⟨axis, rfl⟩)
  · exact (hlocals x hx).1 hmem
  · refine (hlocals _ hx).2 ?_
    rw [Emit.counter, String.toList_append]
    rfl

/-- The names of parameters are new to each other and to the statements after them. -/
theorem fresh_bindings (hnames : (ps.map fun p => p.1.name).Nodup) {scope : List String}
    (hscope : ∀ p ∈ ps, Storage.label ⟨.parameter, p.1.name⟩ ∉ scope)
    (havoids : Emit.Avoids scope)
    (hrest : ∀ {scope}, Emit.Avoids scope → (C.Stmt.all rest).Fresh scope) :
    (C.Stmt.all (ps.map (fun p => bindParameter A p.1 p.2) ++ rest)).Fresh scope := by
  induction ps generalizing scope with
  | nil => exact hrest havoids
  | cons p ps ih =>
    obtain ⟨hp, hnames⟩ := List.nodup_cons.1 hnames
    obtain ⟨hpscope, hscope⟩ := List.forall_mem_cons.1 hscope
    rw [List.map_cons, List.cons_append, C.Stmt.all, List.foldr_cons, bindParameter]
    split
    · exact ⟨trivial, ih hnames hscope havoids⟩
    · refine ⟨hpscope, ih hnames (fun q hq => List.not_mem_cons_of_ne_of_not_mem ?_ (hscope q hq))
        (List.forall_mem_cons.2 ⟨Emit.not_isLocal_label _, havoids⟩)⟩
      intro he
      have hname : q.1.name = p.1.name := congrArg Storage.name (Storage.label_injective he)
      exact hp (List.mem_map.2 ⟨q, hq, hname⟩)

section
variable (ht : t.WellFormed) (h : t.Ready plan) (hnodup : plan.roots.Nodup)
include ht

/-- No statement of a unit declares a name that is in scope. -/
theorem fresh_body {storage : List (NodeId × Storage)}
    (hsteps : plan.steps.mapM (emitStep ⟨t, storage⟩) = .ok steps)
    (hresults : (t.nodesAt plan.outputs).zipIdx.mapM (copyOut ⟨t, storage⟩) = .ok results) :
    (t.unitOf plan unitName steps results).body.Fresh C.SourceFile.callScope := by
  have hbody : (t.unitOf plan unitName steps results).body =
      .all (t.bindings plan ++ (steps ++ results)) := congrArg C.Stmt.all (List.append_assoc _ _ _)
  rw [hbody]
  refine fresh_bindings ?_ (fun p _ hmem => ?_) avoids_callScope fun hscope =>
    (Emit.Tidy.all (List.forall_mem_append.2 ⟨fun st hst => ?_, fun st hst => ?_⟩)).fresh hscope
  · have hnames : ((t.passed plan).map Node.name).Nodup := names_passed ht
    rwa [← List.zipIdx_map_fst 0 (t.passed plan), List.map_map] at hnames
  · have hlabels : ∀ x ∈ C.SourceFile.callScope, x.toList.head? ≠ some 'p' := by decide
    exact hlabels _ hmem (by rw [Storage.toList_label]; rfl)
  · obtain ⟨step, -, hemit⟩ := exists_of_forall₂ (Except.mapM_eq_ok.1 hsteps).flip hst
    exact Emit.tidy_emitStep hemit
  · obtain ⟨p, -, hcopy⟩ := exists_of_forall₂ (Except.mapM_eq_ok.1 hresults).flip hst
    obtain ⟨_, -, hcopy⟩ := Except.bind_eq_ok.1 hcopy
    cases hcopy
    exact ⟨fun _ => trivial, rfl⟩

include h hnodup

/-- The members of the state have names of their own. -/
theorem nodup_memberNames : (t.unitOf plan unitName steps results).memberNames.Nodup := by
  refine List.nodup_cons.2 ⟨fun hmem => ?_, members_nodup ht h hnodup⟩
  obtain ⟨m, hm, hname⟩ := List.mem_map.1 hmem
  have hlabel : ∃ storage : Storage, m.name = storage.label := by
    simp only [unitOf, List.mem_append, List.mem_map] at hm
    rcases hm with (⟨n, -, rfl⟩ | ⟨n, -, rfl⟩) | ⟨n, -, rfl⟩
    · exact ⟨⟨.state, n.name⟩, rfl⟩
    · exact ⟨⟨.workingCopy, n.name⟩, rfl⟩
    · exact ⟨⟨.temporary, n.name⟩, rfl⟩
  obtain ⟨storage, hlabel⟩ := hlabel
  exact Storage.ne_label (x := "reserved") (by decide) storage (hname.symm.trans hlabel)

end

/-- The tables of a unit are those of the nodes that its plan computes. -/
theorem mem_tables_iff {x : String} :
    x ∈ ((t.unitOf plan unitName steps results).constants ++
      (t.unitOf plan unitName steps results).initials).map C.Table.name ↔
      ∃ n ∈ t.nodesAt plan.roots, n.tableName? = some x := by
  simp only [unitOf, List.map_append, List.mem_append, List.mem_map, List.mem_filterMap]
  constructor
  · rintro (⟨c, ⟨n, hn, hc⟩, rfl⟩ | ⟨c, ⟨n, hn, hc⟩, rfl⟩)
    · obtain ⟨hname, hk⟩ := name_of_constantTable? hc
      exact ⟨n, hn, by rw [Node.tableName?, hk, hname]⟩
    · obtain ⟨hname, hk⟩ := name_of_initialTable? hc
      exact ⟨n, hn, by rw [Node.tableName?, hk, hname]⟩
  · rintro ⟨n, hn, hx⟩
    cases hk : n.kind with
    | constant value =>
      simp only [Node.tableName?, hk, Option.some.injEq] at hx
      exact .inl ⟨⟨"c_" ++ n.name, value⟩, ⟨n, hn, by simp [Node.constantTable?, hk]⟩, hx⟩
    | state initial =>
      simp only [Node.tableName?, hk, Option.some.injEq] at hx
      exact .inr ⟨⟨"i_" ++ n.name, initial⟩, ⟨n, hn, by simp [Node.initialTable?, hk]⟩, hx⟩
    | _ => simp [Node.tableName?, hk] at hx

/-- Constants and variables are never merged. -/
theorem mem_roots_iff_of_tableName? (ht : t.WellFormed) (hs : t.Scheduled s) (fuse : Bool)
    (hn : n ∈ t.nodes) (hx : n.tableName?.isSome = true) :
    n.id ∈ (t.planOf s fuse).roots ↔ n.id ∈ s.nodes := by
  cases fuse with
  | false => rw [planOf, if_neg (by simp), roots_ofSchedule]
  | true =>
    rw [planOf, if_pos rfl, roots_fuse, mem_roots]
    refine and_iff_left fun hmerged => ?_
    have helementwise := ((merged_iff hs).1 hmerged).elementwise
    rw [isElementwise, ht.node?_id hn] at helementwise
    cases hk : n.kind <;> simp_all [Node.tableName?, Node.isElementwise]

theorem isWord_of_isIdentifier {name : String} (h : isIdentifier name = true) :
    C.isWord name = true := by
  rw [isIdentifier] at h
  rw [C.isWord]
  cases hlist : name.toList with
  | nil => rfl
  | cons c cs =>
    rw [hlist] at h
    obtain ⟨hc, hcs⟩ := Bool.and_eq_true_iff.1 h
    refine Bool.and_eq_true_iff.2 ⟨?_, hcs⟩
    simp only [C.isWordChar, Char.isAlphanum, Bool.or_eq_true] at hc ⊢
    exact hc.imp_left .inl

theorem isWord_tableName? {x : String} (hname : isIdentifier n.name = true)
    (hx : n.tableName? = some x) : C.isWord x = true := by
  have hword := isWord_of_isIdentifier hname
  have hprefixes : C.isWord "c_" = true ∧ C.isWord "i_" = true := by decide
  rw [Node.tableName?] at hx
  split at hx
  · cases hx
    rw [C.isWord_append, hprefixes.1, hword]
    rfl
  · cases hx
    rw [C.isWord_append, hprefixes.2, hword]
    rfl
  · cases hx

theorem head?_tableName? {x : String} (hx : n.tableName? = some x) :
    x.toList.head? = some 'c' ∨ x.toList.head? = some 'i' := by
  rw [Node.tableName?] at hx
  split at hx <;> cases hx <;> simp [String.toList_append]

/-- The text of a unit defines the names of the helper functions, of its tables and of its
entry points. -/
theorem Represented.definedNames_unitOf (ht : t.Represented)
    (hname : isIdentifier unitName = true) :
    (t.unitOf plan unitName steps results).lines.filterMap C.definedName? =
      (t.unitOf plan unitName steps results).fileNames := by
  refine C.SourceFile.definedNames_eq (isWord_of_isIdentifier hname) fun c hc => ?_
  obtain ⟨n, hn, hx⟩ := mem_tables_iff.1 (List.mem_map_of_mem hc)
  exact isWord_tableName? (ht.isIdentifier_name (ht.mem_nodesAt.1 hn).1) hx

/-- Definitions of a unit clash exactly when some table has the name of an entry point. -/
theorem Ready.nodup_fileNames_iff (h : t.Ready plan) (ht : t.WellFormed)
    (hnodup : plan.roots.Nodup) :
    (t.unitOf plan unitName steps results).fileNames.Nodup ↔
      ∀ n ∈ t.nodesAt plan.roots, ∀ suffix ∈ C.entryPoints,
        n.tableName? ≠ some (unitName ++ "_" ++ suffix) := by
  rw [C.SourceFile.nodup_fileNames_iff (tables_nodup ht h hnodup) fun c hc => by
    obtain ⟨n, -, hx⟩ := mem_tables_iff.1 (List.mem_map_of_mem hc)
    exact head?_tableName? hx]
  constructor
  · intro hne n hn suffix hsuffix hx
    obtain ⟨c, hc, hname⟩ := List.mem_map.1 (mem_tables_iff.2 ⟨n, hn, hx⟩)
    exact hne c hc suffix hsuffix hname
  · intro hne c hc suffix hsuffix he
    obtain ⟨n, hn, hx⟩ := mem_tables_iff.1 (List.mem_map_of_mem hc)
    exact hne n hn suffix hsuffix (hx.trans (congrArg some he))

/-- What the unit of a compiled program consists of. -/
theorem Reachable.exists_unit_of_compile (ht : t.Reachable)
    (hp : t.compile outputs options = .ok p) :
    t.Ready p.plan ∧ p.plan.roots.Nodup ∧ ∃ storage steps results,
      p.plan.steps.mapM (emitStep ⟨t, storage⟩) = .ok steps ∧
      (t.nodesAt p.plan.outputs).zipIdx.mapM (copyOut ⟨t, storage⟩) = .ok results ∧
      t.unit p.plan options.unitName =
        .ok (t.unitOf p.plan options.unitName steps results, p.signature) ∧
      p.unit.source = (t.unitOf p.plan options.unitName steps results).render := by
  obtain ⟨hready, hnodup, storage, steps, results, -, hunit⟩ := ht.exists_storage_of_compile hp
  exact ⟨hready, hnodup, storage, steps, results, hunit⟩

/-- The text of a unit defines no name twice exactly when no scheduled constant or variable
has, with its prefix, the name of an entry point. Members of the state and local names never
clash. -/
theorem Reachable.compile_fresh (ht : t.Reachable)
    (hp : t.compile outputs options = .ok p) :
    ∃ u, t.unit p.plan options.unitName = .ok (u, p.signature) ∧ p.unit.source = u.render ∧
      u.lines.filterMap C.definedName? = u.fileNames ∧
      (u.fileNames.Nodup ↔ ∀ n ∈ p.nodes, ∀ suffix ∈ C.entryPoints,
        n.tableName? ≠ some (options.unitName ++ "_" ++ suffix)) ∧
      u.memberNames.Nodup ∧ u.body.Fresh C.SourceFile.callScope := by
  have hwf := ht.wellFormed
  obtain ⟨-, houtputs, hname, hcompiled⟩ := ht.of_compile_eq_ok hp
  obtain ⟨hready, hnodup, storage, steps, results, hsteps, hresults, hunit, hsource⟩ :=
    ht.exists_unit_of_compile hp
  have hmem : ∀ {n x}, n.tableName? = some x → (n ∈ t.nodesAt p.plan.roots ↔ n ∈ p.nodes) := by
    intro n x hx
    rw [hwf.mem_nodesAt, hcompiled.mem_nodes hwf, hcompiled.plan_eq]
    exact and_congr_right fun hn => mem_roots_iff_of_tableName? hwf
      (ht.scheduled_needed houtputs) options.fuse hn (by rw [hx]; rfl)
  refine ⟨_, hunit, hsource, ht.represented.definedNames_unitOf hname, ?_,
    nodup_memberNames hwf hready hnodup, fresh_body hwf hsteps hresults⟩
  rw [hready.nodup_fileNames_iff hwf hnodup]
  exact ⟨fun h n hn suffix hsuffix hx => h n ((hmem hx).2 hn) suffix hsuffix hx,
    fun h n hn suffix hsuffix hx => h n ((hmem hx).1 hn) suffix hsuffix hx⟩

/-- A constant called `new`. -/
def renewed : Trace :=
  [Call.constant "new" (.scalar .i64 1)].foldl Trace.after { id := 0 }

theorem reachable_renewed : renewed.Reachable := .calls (.start 0 {}) _

/-- In a unit called `k` every name is defined once. -/
theorem compile_fresh_renewed :
    ∃ (p : Program) (u : C.SourceFile),
      renewed.compile [⟨0, 0⟩] { unitName := "k" } = .ok p ∧ p.unit.source = u.render ∧
      (u.lines.filterMap C.definedName?).Nodup ∧ u.memberNames.Nodup ∧
      u.body.Fresh C.SourceFile.callScope := by
  have houtputs : ∀ o ∈ [(⟨0, 0⟩ : NodeId)], renewed.contains o = true := by decide
  obtain ⟨p, hp, hcompiled⟩ := reachable_renewed.compile_eq_ok houtputs { unitName := "k" } rfl
    (by decide)
  obtain ⟨u, -, hsource, hnames, hnodup, hmembers, hfresh⟩ :=
    Reachable.compile_fresh reachable_renewed hp
  refine ⟨p, u, hp, hsource, ?_, hmembers, hfresh⟩
  rw [hnames, hnodup, hcompiled.nodes_eq]
  decide

/-- In a unit called `c` the constant has the name of the function that creates the state. -/
theorem not_nodup_definedNames :
    ¬ ∀ (t : Trace) (outputs : List NodeId) (options : CompileOptions) (p : Program)
      (u : C.SourceFile), t.Reachable → t.compile outputs options = .ok p →
      t.unit p.plan options.unitName = .ok (u, p.signature) →
      (u.lines.filterMap C.definedName?).Nodup := by
  intro h
  have houtputs : ∀ o ∈ [(⟨0, 0⟩ : NodeId)], renewed.contains o = true := by decide
  obtain ⟨p, hp, hcompiled⟩ := reachable_renewed.compile_eq_ok houtputs { unitName := "c" } rfl
    (by decide)
  obtain ⟨hready, hnodup, storage, steps, results, -, -, hunit, -⟩ :=
    reachable_renewed.exists_unit_of_compile hp
  have hnames := h _ _ _ p _ reachable_renewed hp hunit
  rw [reachable_renewed.represented.definedNames_unitOf (by decide),
    hready.nodup_fileNames_iff reachable_renewed.wellFormed hnodup, hcompiled.plan_eq] at hnames
  revert hnames
  decide

end Trace
end ArrayTrace
