import ArrayTrace.C.Stmt
import ArrayTrace.Decimal
import ArrayTrace.Tensor

/-!
# C source files

An emitted file consists of tables for constants and initial values, a structure
that holds its state, functions that create and inspect the state, and the function
that is called with arguments and outputs. Helper functions come first.
-/

namespace ArrayTrace.C

/-! ## Tables -/

/-- Floats in C: the fewest digits, an exponent below 1e-4 and from 1e16 on. -/
def doubleLayout : FloatLayout := ⟨some (-4), some 16, ".0", "NAN", "INFINITY", ""⟩

/-- Single-precision floats in C carry a suffix. -/
def floatLayout : FloatLayout := { doubleLayout with suffix := "f" }

/-- Integers in C; the least one cannot be written as a negated constant. -/
def int64Text (x : Int64) : String :=
  if x = Int64.minValue then "INT64_MIN" else "INT64_C(" ++ x.toInt.repr ++ ")"

/-- Written form of an element. -/
def elemText : (d : DType) → d.Elem → String
  | .f64, x => doubleLayout.render (.ofFloat x)
  | .f32, x => floatLayout.render (.ofFloat32 x)
  | .i64, x => int64Text x
  | .bool, x => if x then "1" else "0"

/-- Cut into pieces of `n`; `fuel` is at least the number of pieces. -/
def chunks {α : Type} (n : Nat) : Nat → List α → List (List α)
  | 0, _ => []
  | _, [] => []
  | fuel + 1, xs => xs.take n :: chunks n fuel (xs.drop n)

/-- A constant array. -/
structure Table where
  name : String
  value : Tensor

namespace Table

/-- Written elements. An array without elements gets one slot. -/
def texts (t : Table) : List String :=
  if t.value.array.data.isEmpty then ["0"]
  else t.value.array.data.map (elemText t.value.dtype)

/-- Written definition, eight elements per line. -/
def lines (t : Table) : List String :=
  let texts := t.texts
  ["static const " ++ t.value.dtype.cType ++ " " ++ t.name ++ "[" ++ texts.length.repr ++
      "] = \x7b"] ++
    (chunks 8 texts.length texts).map (fun row => "  " ++ ", ".intercalate row ++ ",") ++
    ["\x7d;"]

end Table

/-! ## Helper functions -/

/-- A function that expressions may call. -/
structure Helper where
  result : DType
  name : String
  params : List String
  body : Stmt
  /-- Written on one line. -/
  isLine : Bool

namespace Helper

/-- Written definition. All parameters have the type of the result. -/
def lines (f : Helper) : List String :=
  let params := f.params.map fun p => f.result.cType ++ " " ++ p
  let head := "static inline " ++ f.result.cType ++ " " ++ f.name ++ "(" ++
    ", ".intercalate params ++ ") \x7b"
  if f.isLine then [head ++ " " ++ f.body.text ++ " \x7d"]
  else head :: f.body.lines 1 ++ ["\x7d"]

end Helper

open ArrayTrace.C.Expr ArrayTrace.C.Stmt in
/-- Floored remainder of integers, 0 for the divisor 0. -/
def modInt : Helper where
  result := .i64
  name := "wj_mod_i64"
  params := ["a", "b"]
  isLine := false
  body := .all
    [ifLine (bin .eq (var "b") (num 0)) (.ret (num 0)),
      declare .i64 "r" (bin .rem (var "a") (var "b")),
      ifLine
        (bin .and (bin .ne (var "r") (num 0))
          (group .ne (group .lt (var "r") (num 0)) (group .lt (var "b") (num 0))))
        (accumulate (var "r") (var "b")),
      .ret (var "r")]

open ArrayTrace.C.Expr ArrayTrace.C.Stmt in
/-- Floored remainder of floats, with the function that rounds down. -/
def modReal (d : DType) (name floor : String) : Helper where
  result := d
  name := name
  params := ["a", "b"]
  isLine := true
  body := .ret
    (bin .sub (var "a") (bin .mul (call floor (bin .div (var "a") (var "b"))) (var "b")))

open ArrayTrace.C.Expr ArrayTrace.C.Stmt in
/-- The operand preferred by a comparison. -/
def pickInt (name : String) (op : BinOp) : Helper where
  result := .i64
  name := name
  params := ["a", "b"]
  isLine := true
  body := .ret (cond (bin op (var "a") (var "b")) (var "a") (var "b"))

open ArrayTrace.C.Expr ArrayTrace.C.Stmt in
/-- Absolute value of an integer. -/
def absInt : Helper where
  result := .i64
  name := "wj_abs_i64"
  params := ["a"]
  isLine := true
  body := .ret (cond (bin .lt (var "a") (num 0)) (neg (var "a")) (var "a"))

/-- Every helper function. -/
def helpers : List Helper :=
  [modInt, modReal .f64 "wj_mod_f64" "floor", modReal .f32 "wj_mod_f32" "floorf",
    pickInt "wj_max_i64" .gt, pickInt "wj_min_i64" .lt, absInt]

/-! ## Units -/

/-- An array held in the state of a unit. -/
structure Member where
  type : DType
  name : String
  length : Nat

/-- What an emitted unit consists of. -/
structure SourceFile where
  name : String
  /-- Constants. -/
  constants : List Table
  /-- Initial values of the variables. -/
  initials : List Table
  members : List Member
  /-- Variables in the order of their slots. -/
  states : List String
  parameterCount : Nat
  outputCount : Nat
  /-- Body of the call, between the checks and the return of success. -/
  body : Stmt

namespace SourceFile

/-- Name of the structure that holds the state. -/
def stateType (u : SourceFile) : String := "struct " ++ u.name ++ "_state"

/-- Name of an entry point. -/
def entry (u : SourceFile) (suffix : String) : String := u.name ++ "_" ++ suffix

/-- Headers and helper functions. -/
def preamble : List String :=
  ["#include <math.h>", "#include <stddef.h>", "#include <stdint.h>", "#include <stdlib.h>",
    "#include <string.h>", ""] ++ helpers.flatMap Helper.lines

/-- The structure that holds the state. -/
def stateLines (u : SourceFile) : List String :=
  [u.stateType ++ " \x7b", "  int reserved;"] ++
    u.members.map (fun m =>
      "  " ++ m.type.cType ++ " " ++ m.name ++ "[" ++ m.length.repr ++ "];") ++
    ["\x7d;"]

/-- Statements that give every variable of a new state its initial value. -/
def initialCopies (u : SourceFile) : Stmt :=
  .all (u.states.map fun v => .copyWhole (.state ("v_" ++ v)) (.var ("i_" ++ v)))

/-- A switch over the variables' slots. -/
def slotSwitch (u : SourceFile) (result : String → String) : List String :=
  ["  switch (i) \x7b"] ++
    u.states.zipIdx.map (fun (v, i) =>
      "    case " ++ i.repr ++ ": return " ++ result v ++ ";") ++
    ["    default: return NULL;", "  \x7d", "\x7d"]

/-- Functions that create, free and inspect the state. -/
def stateFunctions (u : SourceFile) : List String :=
  let s := u.stateType
  ["void* " ++ u.entry "new" ++ "(void) \x7b",
    "  " ++ s ++ "* state = (" ++ s ++ "*)calloc(1, sizeof(" ++ s ++ "));",
    "  if (state == NULL) return NULL;"] ++
  u.initialCopies.lines 1 ++
  ["  return state;", "\x7d",
    "void " ++ u.entry "free" ++ "(void* state) \x7b free(state); \x7d",
    "size_t " ++ u.entry "variable_count" ++ "(void) \x7b return " ++
      u.states.length.repr ++ "; \x7d",
    "const char* " ++ u.entry "variable_name" ++ "(size_t i) \x7b"] ++
  u.slotSwitch (fun v => "\"" ++ v ++ "\"") ++
  ["void* " ++ u.entry "variable_data" ++ "(void* state_ptr, size_t i) \x7b",
    "  " ++ s ++ "* state = (" ++ s ++ "*)state_ptr;",
    "  if (state == NULL) return NULL;"] ++
  u.slotSwitch (fun v => "state->v_" ++ v)

/-- The function that runs the unit. -/
def callFunction (u : SourceFile) : List String :=
  let s := u.stateType
  ["int " ++ u.entry "call" ++ "(void* state_ptr, const void* const* args, size_t n_args, " ++
      "void* const* outs, size_t n_outs) \x7b",
    "  " ++ s ++ "* state = (" ++ s ++ "*)state_ptr;",
    "  if (state == NULL || n_args != " ++ u.parameterCount.repr ++ " || n_outs != " ++
      u.outputCount.repr ++ ") return 1;"] ++
  u.body.lines 1 ++
  ["  return 0;", "\x7d"]

/-- Written lines of the unit. -/
def lines (u : SourceFile) : List String :=
  ["/* " ++ u.name ++ ": generated by whisper-jit */"] ++ preamble ++ [""] ++
    u.constants.flatMap Table.lines ++ u.initials.flatMap Table.lines ++ [""] ++
    u.stateLines ++ [""] ++ u.stateFunctions ++ [""] ++ u.callFunction

/-- Written unit, every line ended by a line break. -/
def render (u : SourceFile) : String :=
  String.join (u.lines.map fun l => l ++ "\n")

end SourceFile

end ArrayTrace.C
