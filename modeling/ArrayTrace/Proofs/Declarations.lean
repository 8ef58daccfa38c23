import ArrayTrace.C.SourceFile
import Mathlib.Data.List.DropRight
import Mathlib.Data.List.Nodup

/-!
# Names that units define

The names that a unit defines at the level of the file can be read off its text: they stand
in front of the first bracket of a line that is not indented. They are those of the helper
functions, of the tables and of the entry points. Helpers never clash with the rest, but
tables and entry points share one space of names: they clash exactly when the name of a
table happens to be that of an entry point.
-/

namespace ArrayTrace

namespace C

/-! ## Names at the level of the file -/

/-- Whether a character can be part of a name. -/
def isWordChar (c : Char) : Bool := c.isAlphanum || c = '_'

/-- The name that a line of a written unit defines at the level of the file: the word in
front of the first bracket. Lines that are indented belong to a definition begun before. -/
def definedName? (line : String) : Option String :=
  let head := line.toList.takeWhile fun c => c ≠ '(' && c ≠ '['
  if line.toList.head? = some ' ' || head.length = line.toList.length then none
  else some (String.ofList (head.rtakeWhile isWordChar))

/-- What follows the name of a unit in the names of its entry points. -/
def entryPoints : List String :=
  ["new", "free", "variable_count", "variable_name", "variable_data", "call"]

namespace SourceFile

/-- Names declared at the level of the file. -/
def fileNames (u : SourceFile) : List String :=
  helpers.map Helper.name ++ (u.constants ++ u.initials).map Table.name ++
    entryPoints.map u.entry

end SourceFile

/-! ## Reading names off the text -/

section
variable {line lead name : String}

theorem definedName?_of_blank (h : line.toList.head? = some ' ') : definedName? line = none := by
  simp [definedName?, h]

/-- Whether all characters of a text can be part of a name. -/
def isWord (s : String) : Bool := s.toList.all isWordChar

/-- Whether a text has no bracket in front of which a name is defined. -/
def isPlain (s : String) : Bool := s.toList.all fun c => c ≠ '(' && c ≠ '['

theorem isWord_append (r s : String) : isWord (r ++ s) = (isWord r && isWord s) := by
  rw [isWord, String.toList_append, List.all_append, isWord, isWord]

theorem isPlain_append (r s : String) : isPlain (r ++ s) = (isPlain r && isPlain s) := by
  rw [isPlain, String.toList_append, List.all_append, isPlain, isPlain]

theorem isPlain_of_isWord (h : isWord name = true) : isPlain name = true := by
  refine List.all_eq_true.2 fun c hc => ?_
  have hword := List.all_eq_true.1 h c hc
  by_contra hne
  have hbracket : c = '(' ∨ c = '[' := by
    by_contra hor
    rw [not_or] at hor
    simp [hor] at hne
  rcases hbracket with rfl | rfl <;> revert hword <;> decide

theorem definedName?_of_plain (h : isPlain line = true) : definedName? line = none := by
  rw [definedName?, List.takeWhile_eq_self_iff.2 (List.all_eq_true.1 h)]
  simp

/-- Text in front of a name that is defined: words that end with a blank. -/
def Leads (lead : String) : Prop :=
  lead.toList.head? ≠ some ' ' ∧ lead.toList.getLast? = some ' ' ∧ isPlain lead = true

instance (lead : String) : Decidable (Leads lead) := inferInstanceAs (Decidable (_ ∧ _))

theorem definedName?_eq (tail : String) (hlead : Leads lead) (hname : isWord name = true)
    (htail : tail.toList.head? = some '(' ∨ tail.toList.head? = some '[') :
    definedName? (lead ++ (name ++ tail)) = some name := by
  obtain ⟨hhead, hlast, hplain⟩ := hlead
  obtain ⟨front, hfront⟩ := List.getLast?_eq_some_iff.1 hlast
  obtain ⟨b, rest, htail, hbracket⟩ : ∃ b rest, tail.toList = b :: rest ∧
      (b ≠ '(' && b ≠ '[') = false := by
    cases ht : tail.toList with
    | nil => simp [ht] at htail
    | cons b rest =>
      refine ⟨b, rest, rfl, ?_⟩
      rcases htail with h | h <;>
        · rw [ht, List.head?_cons, Option.some.injEq] at h
          subst h
          rfl
  have htake : (lead ++ (name ++ tail)).toList.takeWhile (fun c => c ≠ '(' && c ≠ '[') =
      lead.toList ++ name.toList := by
    rw [String.toList_append, String.toList_append, ← List.append_assoc,
      List.takeWhile_append_of_pos (List.forall_mem_append.2
        ⟨List.all_eq_true.1 hplain, List.all_eq_true.1 (isPlain_of_isWord hname)⟩), htail,
      List.takeWhile_cons_of_neg (by rw [hbracket]; exact Bool.false_ne_true), List.append_nil]
  have hend : (lead.toList ++ name.toList).rtakeWhile isWordChar = name.toList := by
    rw [hfront, List.append_assoc, List.rtakeWhile, List.reverse_append, List.reverse_append,
      List.append_assoc,
      List.takeWhile_append_of_pos fun c hc => List.all_eq_true.1 hname c (List.mem_reverse.1 hc)]
    simp [isWordChar]
  have hblank : (lead ++ (name ++ tail)).toList.head? ≠ some ' ' := by
    rw [hfront] at hhead
    rw [String.toList_append, hfront]
    cases front with
    | nil => exact absurd rfl hhead
    | cons c front => exact hhead
  have hlength : (lead.toList ++ name.toList).length ≠ (lead ++ (name ++ tail)).toList.length := by
    simp [String.toList_append, htail]
  rw [definedName?]
  simp only [htake, hend, String.ofList_toList, hblank, hlength, decide_false, Bool.or_false,
    Bool.false_eq_true, if_false]

end

/-! ## Lines that define nothing -/

section
variable {l : String}

theorem definedName?_indented (s : String) : definedName? ("  " ++ s) = none :=
  definedName?_of_blank (by simp [String.toList_append])

theorem toList_pushn (c : Char) (n : Nat) : ("".pushn c n).toList = List.replicate n c := by
  rw [String.pushn]
  induction n with
  | zero => rfl
  | succ n ih => rw [Nat.repeat, String.toList_push, ih, List.replicate_succ']

theorem definedName?_line (level : Nat) (text : String) :
    definedName? (Stmt.line (level + 1) text) = none := by
  refine definedName?_of_blank ?_
  rw [Stmt.line, String.toList_append, toList_pushn, Nat.mul_succ, List.replicate_succ]
  rfl

/-- Statements within a function define nothing. -/
theorem definedName?_of_mem_lines {s : Stmt} {level : Nat} (h : l ∈ s.lines (level + 1)) :
    definedName? l = none := by
  induction s generalizing level with
  | skip => cases h
  | seq s₁ s₂ ih₁ ih₂ => exact (List.mem_append.1 h).elim ih₁ ih₂
  | loop _ _ ih | block _ ih =>
    rcases List.mem_append.1 h with h | h
    · rcases List.mem_cons.1 h with rfl | h
      · exact definedName?_line _ _
      · exact ih h
    · obtain rfl := List.mem_singleton.1 h
      exact definedName?_line _ _
  | _ =>
    obtain rfl := List.mem_singleton.1 h
    exact definedName?_line _ _

theorem definedNames_lines (s : Stmt) (level : Nat) :
    (s.lines (level + 1)).filterMap definedName? = [] :=
  List.filterMap_eq_nil_iff.2 fun _ => definedName?_of_mem_lines

theorem definedNames_indented {α : Type} (f : α → String) (xs : List α) :
    (xs.map fun x => "  " ++ f x).filterMap definedName? = [] := by
  refine List.filterMap_eq_nil_iff.2 fun l hl => ?_
  obtain ⟨x, -, rfl⟩ := List.mem_map.1 hl
  exact definedName?_indented _

end

/-! ## Names that a unit defines -/

/-- A table defines its name. -/
theorem Table.definedNames (t : Table) (h : isWord t.name = true) :
    t.lines.filterMap definedName? = [t.name] := by
  have hlead : Leads ("static const " ++ t.value.dtype.cType ++ " ") := by
    cases t.value.dtype <;> decide
  have hhead := definedName?_eq ("[" ++ (t.texts.length.repr ++ "] = \x7b")) hlead h
    (.inr (by simp [String.toList_append]))
  have hrows : ((chunks 8 t.texts.length t.texts).map
      fun row => "  " ++ ", ".intercalate row ++ ",").filterMap definedName? = [] := by
    simp only [String.append_assoc]
    exact definedNames_indented _ _
  have hclose : definedName? "\x7d;" = none := definedName?_of_plain (by decide)
  simp only [String.append_assoc] at hhead
  simp only [lines, String.append_assoc] at hrows ⊢
  simp [hhead, hrows, hclose]

/-- A helper function defines its name. -/
theorem Helper.definedNames (f : Helper) (h : isWord f.name = true) :
    f.lines.filterMap definedName? = [f.name] := by
  have hlead : Leads ("static inline " ++ f.result.cType ++ " ") := by
    cases f.result <;> decide
  have hhead : ∀ tail, definedName? ("static inline " ++ (f.result.cType ++ (" " ++ (f.name ++
      ("(" ++ tail))))) = some f.name := by
    intro tail
    have := definedName?_eq ("(" ++ tail) hlead h (.inl (by simp [String.toList_append]))
    simpa only [String.append_assoc] using this
  have hclose : definedName? "\x7d" = none := definedName?_of_plain (by decide)
  simp only [lines, String.append_assoc]
  split
  · simp [hhead]
  · simp [hhead, definedNames_lines, hclose]

/-- Definitions one after the other. -/
theorem definedNames_flatMap {α : Type} {lines : α → List String} {name : α → String}
    {xs : List α} (h : ∀ x ∈ xs, (lines x).filterMap definedName? = [name x]) :
    (xs.flatMap lines).filterMap definedName? = xs.map name := by
  induction xs with
  | nil => rfl
  | cons x xs ih =>
    obtain ⟨hx, hxs⟩ := List.forall_mem_cons.1 h
    rw [List.flatMap_cons, List.filterMap_append, hx, ih hxs]
    rfl

theorem definedNames_preamble :
    SourceFile.preamble.filterMap definedName? = helpers.map Helper.name := by
  have hincludes : (["#include <math.h>", "#include <stddef.h>", "#include <stdint.h>",
      "#include <stdlib.h>", "#include <string.h>", ""].filterMap definedName?) = [] := by decide
  have hwords : ∀ f ∈ helpers, isWord f.name = true := by decide
  rw [SourceFile.preamble, List.filterMap_append, hincludes, List.nil_append]
  exact definedNames_flatMap fun f hf => f.definedNames (hwords f hf)

namespace SourceFile
variable {u : SourceFile}

theorem isWord_entry (hname : isWord u.name = true) {suffix : String}
    (hsuffix : suffix ∈ entryPoints) : isWord (u.entry suffix) = true := by
  have hword : ∀ s ∈ entryPoints, isWord s = true := by decide
  have hline : isWord "_" = true := by decide
  rw [entry, isWord_append, isWord_append, hname, hline, hword suffix hsuffix]
  rfl

/-- The line that begins an entry point. -/
theorem definedName?_entry (hname : isWord u.name = true)
    (suffix lead tail : String) (hsuffix : suffix ∈ entryPoints) (hlead : Leads lead)
    (htail : tail.toList.head? = some '(') :
    definedName? (lead ++ u.entry suffix ++ tail) = some (u.entry suffix) := by
  rw [String.append_assoc]
  exact definedName?_eq tail hlead (isWord_entry hname hsuffix) (.inl htail)

theorem definedNames_stateLines (hname : isWord u.name = true) :
    u.stateLines.filterMap definedName? = [] := by
  have hhead : definedName? (u.stateType ++ " \x7b") = none := by
    refine definedName?_of_plain ?_
    simp only [stateType, isPlain_append, isPlain_of_isWord hname]
    decide
  have hreserved : definedName? "  int reserved;" = none := definedName?_of_blank (by decide)
  have hclose : definedName? "\x7d;" = none := definedName?_of_plain (by decide)
  have hmembers := definedNames_indented
    (fun m : Member => m.type.cType ++ (" " ++ (m.name ++ ("[" ++ (m.length.repr ++ "];")))))
    u.members
  simp only [stateLines, String.append_assoc]
  simp [hhead, hreserved, hclose, hmembers]

theorem definedNames_slotSwitch (result : String → String) :
    (u.slotSwitch result).filterMap definedName? = [] := by
  have hcases := definedNames_indented
    (fun p : String × Nat => "  case " ++ (p.2.repr ++ (": return " ++ (result p.1 ++ ";"))))
    u.states.zipIdx
  have hindent : ∀ s : String, "    case " ++ s = "  " ++ ("  case " ++ s) := fun s => by
    rw [← String.append_assoc]
    rfl
  have hswitch : definedName? "  switch (i) \x7b" = none := definedName?_of_blank (by decide)
  have hdefault : definedName? "    default: return NULL;" = none :=
    definedName?_of_blank (by decide)
  have hend : definedName? "  \x7d" = none := definedName?_of_blank (by decide)
  have hclose : definedName? "\x7d" = none := definedName?_of_plain (by decide)
  simp only [slotSwitch, String.append_assoc, hindent]
  simp [hswitch, hcases, hdefault, hend, hclose]

theorem definedNames_stateFunctions (hname : isWord u.name = true) :
    u.stateFunctions.filterMap definedName? =
      ["new", "free", "variable_count", "variable_name", "variable_data"].map u.entry := by
  have hnew := definedName?_entry hname "new" "void* " "(void) \x7b" (by decide) (by decide)
    (by decide)
  have hfree := definedName?_entry hname "free" "void " "(void* state) \x7b free(state); \x7d"
    (by decide) (by decide) (by decide)
  have hcount := definedName?_entry hname "variable_count" "size_t "
    ("(void) \x7b return " ++ u.states.length.repr ++ "; \x7d") (by decide) (by decide)
    (by simp [String.toList_append])
  have hvname := definedName?_entry hname "variable_name" "const char* " "(size_t i) \x7b"
    (by decide) (by decide) (by decide)
  have hdata := definedName?_entry hname "variable_data" "void* "
    "(void* state_ptr, size_t i) \x7b" (by decide) (by decide) (by decide)
  have hclose : definedName? "\x7d" = none := definedName?_of_plain (by decide)
  have hnull : definedName? "  if (state == NULL) return NULL;" = none :=
    definedName?_of_blank (by decide)
  have hreturn : definedName? "  return state;" = none := definedName?_of_blank (by decide)
  simp only [String.append_assoc] at hnew hfree hcount hvname hdata
  simp only [stateFunctions, String.append_assoc, List.filterMap_append, definedNames_lines,
    definedNames_slotSwitch, List.filterMap_cons, List.filterMap_nil, definedName?_indented,
    hnew, hfree, hcount, hvname, hdata, hclose, hnull, hreturn]
  rfl

theorem definedNames_callFunction (hname : isWord u.name = true) :
    u.callFunction.filterMap definedName? = [u.entry "call"] := by
  have hcall := definedName?_entry hname "call" "int "
    ("(void* state_ptr, const void* const* args, size_t n_args, " ++
      "void* const* outs, size_t n_outs) \x7b") (by decide) (by decide) (by simp)
  have htest : ∀ s : String, definedName? ("  if (state == NULL || n_args != " ++ s) = none :=
    fun s => definedName?_of_blank (by simp [String.toList_append])
  have hclose : definedName? "\x7d" = none := definedName?_of_plain (by decide)
  have hreturn : definedName? "  return 0;" = none := definedName?_of_blank (by decide)
  simp only [String.append_assoc] at hcall
  simp only [callFunction, String.append_assoc, List.filterMap_append, definedNames_lines,
    List.filterMap_cons, List.filterMap_nil, definedName?_indented, hcall, htest, hclose, hreturn]
  rfl

/-- The names that the text of a unit defines. -/
theorem definedNames_eq (hname : isWord u.name = true)
    (htables : ∀ t ∈ u.constants ++ u.initials, isWord t.name = true) :
    u.lines.filterMap definedName? = u.fileNames := by
  have hheading : definedName? ("/* " ++ u.name ++ ": generated by whisper-jit */") = none := by
    refine definedName?_of_plain ?_
    simp only [isPlain_append, isPlain_of_isWord hname]
    decide
  obtain ⟨hconstants, hinitials⟩ := List.forall_mem_append.1 htables
  have hconstants := definedNames_flatMap fun c hc => Table.definedNames c (hconstants c hc)
  have hinitials := definedNames_flatMap fun c hc => Table.definedNames c (hinitials c hc)
  have hempty : definedName? "" = none := definedName?_of_plain (by decide)
  simp only [lines, List.filterMap_append, List.filterMap_cons, List.filterMap_nil, hheading,
    definedNames_preamble, hempty, hconstants, hinitials,
    definedNames_stateLines hname, definedNames_stateFunctions hname,
    definedNames_callFunction hname]
  simp [fileNames, entryPoints]

end SourceFile

/-! ## Clashes -/

theorem getLast?_toList_append {r s : String} (hs : s.toList ≠ []) :
    (r ++ s).toList.getLast? = s.toList.getLast? := by
  rw [String.toList_append, List.getLast?_append_of_ne_nil _ hs]

namespace SourceFile
variable {u : SourceFile}

theorem entry_injective : Function.Injective u.entry := fun _ _ h =>
  (String.append_right_inj _).1 h

theorem nodup_entries : (entryPoints.map u.entry).Nodup :=
  List.Nodup.map entry_injective (by decide)

/-- Helper functions have names that end with a digit, entry points do not. -/
theorem helper_ne_entry {f : Helper} (hf : f ∈ helpers) {suffix : String}
    (hsuffix : suffix ∈ entryPoints) : f.name ≠ u.entry suffix := by
  intro he
  have hdigit : ∀ f ∈ helpers, (f.name.toList.getLast?.all Char.isDigit) = true := by decide
  have hletter : ∀ s ∈ entryPoints, s.toList ≠ [] ∧
      (s.toList.getLast?.all Char.isDigit) = false := by decide
  obtain ⟨hne, hlast⟩ := hletter suffix hsuffix
  have h := hdigit f hf
  rw [he, entry, getLast?_toList_append hne, hlast] at h
  cases h

/-- Definitions of a unit clash exactly when a table has the name of an entry point. -/
theorem nodup_fileNames_iff (htables : ((u.constants ++ u.initials).map Table.name).Nodup)
    (hletters : ∀ t ∈ u.constants ++ u.initials,
      t.name.toList.head? = some 'c' ∨ t.name.toList.head? = some 'i') :
    u.fileNames.Nodup ↔ ∀ t ∈ u.constants ++ u.initials, ∀ suffix ∈ entryPoints,
      t.name ≠ u.entry suffix := by
  have hhelper : ∀ f ∈ helpers, f.name.toList.head? = some 'w' := by decide
  have hhelpers :
      (helpers.map Helper.name ++ (u.constants ++ u.initials).map Table.name).Nodup := by
    refine List.nodup_append.2 ⟨by decide, htables, fun x hx y hy he => ?_⟩
    obtain ⟨f, hf, rfl⟩ := List.mem_map.1 hx
    obtain ⟨t, ht, rfl⟩ := List.mem_map.1 hy
    have hw := hhelper f hf
    rw [he] at hw
    rcases hletters t ht with h | h <;> simp [hw] at h
  constructor
  · intro h t ht suffix hsuffix
    exact (List.nodup_append.1 h).2.2 _ (List.mem_append_right _ (List.mem_map_of_mem ht)) _
      (List.mem_map_of_mem hsuffix)
  · intro h
    refine List.nodup_append.2 ⟨hhelpers, nodup_entries, fun x hx y hy => ?_⟩
    obtain ⟨suffix, hsuffix, rfl⟩ := List.mem_map.1 hy
    rcases List.mem_append.1 hx with hx | hx
    · obtain ⟨f, hf, rfl⟩ := List.mem_map.1 hx
      exact helper_ne_entry hf hsuffix
    · obtain ⟨t, ht, rfl⟩ := List.mem_map.1 hx
      exact h t ht suffix hsuffix

end SourceFile

end C
end ArrayTrace
