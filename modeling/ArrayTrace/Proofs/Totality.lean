import ArrayTrace.Proofs.Broadcasting
import ArrayTrace.Proofs.Calls
import Mathlib.Data.List.Sort

/-!
# Compiling is total

Compiling is refused for three reasons, looked for in a fixed order: nodes kept that no
output needs, an output that is not of the trace, a unit name that is no identifier.
Otherwise it succeeds, whatever the nodes, and the signature describes exactly the
placeholders, variables and outputs that are needed. No later stage has a reason of its
own to fail.
-/

namespace ArrayTrace.Trace
variable {t : Trace} {s : Schedule} {p : Program} {n : Node} {ids outputs : List NodeId}
  {options : CompileOptions} {unitName : String}

/-- The first reason to refuse to compile. -/
def refusal? (t : Trace) (outputs : List NodeId) (options : CompileOptions) :
    Option CompileError :=
  if options.raw then some (.emit .rawSchedule)
  else
    match outputs.find? fun id => !t.contains id with
    | some id => some (.schedule (.unboundOutput id))
    | none =>
      if isIdentifier options.unitName then none
      else some (.emit (.invalidUnitName options.unitName))

theorem emit_of_invalid {plan : Plan} (h : ¬ isIdentifier unitName = true) :
    t.emit plan unitName = .error (.invalidUnitName unitName) := by
  rw [emit, unit, if_pos (by simpa using h)]
  rfl

/-- A reason to refuse to compile is what compiling fails with. -/
theorem Reachable.compile_eq_error (ht : t.Reachable) {e : CompileError}
    (h : t.refusal? outputs options = some e) : t.compile outputs options = .error e := by
  rw [refusal?] at h
  split at h
  · cases h
    rw [compile, if_pos ‹_›]
    rfl
  · rename_i hraw
    split at h
    · rename_i id hfind
      cases h
      rw [compile, if_neg hraw, schedule, scheduleBy_of_unknown hfind]
      rfl
    · rename_i hfind
      split at h
      · cases h
      · rename_i hname
        cases h
        have hknown : ∀ o ∈ outputs, t.contains o = true := fun o ho => by
          simpa using List.find?_eq_none.1 hfind o ho
        rw [compile, if_neg hraw, ht.schedule_eq hknown]
        simp only [emit_of_invalid hname]
        rfl

theorem refusal?_eq_none_iff :
    t.refusal? outputs options = none ↔ options.raw = false ∧
      (∀ o ∈ outputs, t.contains o = true) ∧ isIdentifier options.unitName = true := by
  have hfind : (outputs.find? fun id => !t.contains id) = none ↔
      ∀ o ∈ outputs, t.contains o = true := by simp
  rw [refusal?, ← hfind]
  cases options.raw with
  | true => simp
  | false =>
    cases outputs.find? fun id => !t.contains id with
    | some id => simp
    | none => cases isIdentifier options.unitName <;> simp

/-- What holds of options and outputs that compile, and of the program. -/
theorem Reachable.of_compile_eq_ok (ht : t.Reachable) (hp : t.compile outputs options = .ok p) :
    options.raw = false ∧ (∀ o ∈ outputs, t.contains o = true) ∧
      isIdentifier options.unitName = true ∧
      t.Compiled ⟨t.needed outputs, outputs⟩ options p := by
  have hnone : t.refusal? outputs options = none := by
    cases hrefusal : t.refusal? outputs options with
    | none => rfl
    | some e => simp [ht.compile_eq_error hrefusal] at hp
  obtain ⟨hraw, houtputs, hname⟩ := refusal?_eq_none_iff.1 hnone
  exact ⟨hraw, houtputs, hname, ht.compiled houtputs hraw hname hp⟩

theorem Reachable.compile_eq_error_iff (ht : t.Reachable) {e : CompileError} :
    t.compile outputs options = .error e ↔ t.refusal? outputs options = some e := by
  refine ⟨fun herror => ?_, ht.compile_eq_error⟩
  cases hrefusal : t.refusal? outputs options with
  | none =>
    obtain ⟨hraw, houtputs, hname⟩ := refusal?_eq_none_iff.1 hrefusal
    obtain ⟨p, hp, -⟩ := ht.compile_eq_ok houtputs options hraw hname
    rw [hp] at herror
    cases herror
  | some e' =>
    rw [ht.compile_eq_error hrefusal] at herror
    rw [Except.error.inj herror]

/-! ## Signatures -/

end ArrayTrace.Trace
