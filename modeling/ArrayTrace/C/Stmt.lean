import ArrayTrace.C.Expr

/-!
# C statements

The statements that emitted code is made of, and their written form: one line per
statement, two blanks of indentation per level.
-/

namespace ArrayTrace.C

/-- A counter that runs through a half-open range of naturals. -/
structure Loop where
  var : String
  start : Nat
  stop : Nat
deriving DecidableEq

/-- Written head of a loop. -/
def Loop.head (l : Loop) : String :=
  "for (size_t " ++ l.var ++ " = " ++ l.start.repr ++ "; " ++ l.var ++ " < " ++ l.stop.repr ++
    "; ++" ++ l.var ++ ")"

/-- Statements. -/
inductive Stmt
  | skip
  | seq (first second : Stmt)
  | comment (text : String)
  /-- Declare a local variable. -/
  | declare (type : DType) (name : String) (value : Expr)
  /-- Name the array passed as the argument at a position. -/
  | bind (type : DType) (name : String) (position : Nat)
  | store (place value : Expr)
  /-- Add to a place. -/
  | accumulate (place value : Expr)
  /-- Copy a number of bytes. -/
  | copy (target source : Expr) (bytes : Nat)
  /-- Copy as many bytes as the target array has. -/
  | copyWhole (target source : Expr)
  | ret (value : Expr)
  /-- A test and its statement on one line. -/
  | ifLine (test : Expr) (body : Stmt)
  /-- A loop and its statement on one line. -/
  | loopLine (loop : Loop) (body : Stmt)
  | loop (loop : Loop) (body : Stmt)
  | block (body : Stmt)
deriving DecidableEq

namespace Stmt

/-- One statement after the other. -/
def all (ss : List Stmt) : Stmt := ss.foldr seq skip

/-- Written form of a statement that fits on one line. -/
def text : Stmt → String
  | comment text => "/* " ++ text ++ " */"
  | declare d x v => d.cType ++ " " ++ x ++ " = " ++ v.render ++ ";"
  | bind d x i =>
    "const " ++ d.cType ++ "* " ++ x ++ " = (const " ++ d.cType ++ "*)args[" ++ i.repr ++ "];"
  | store p v => p.render ++ " = " ++ v.render ++ ";"
  | accumulate p v => p.render ++ " += " ++ v.render ++ ";"
  | copy p v n => "memcpy(" ++ p.render ++ ", " ++ v.render ++ ", " ++ n.repr ++ ");"
  | copyWhole p v =>
    "memcpy(" ++ p.render ++ ", " ++ v.render ++ ", sizeof(" ++ p.render ++ "));"
  | ret v => "return " ++ v.render ++ ";"
  | ifLine c s => "if (" ++ c.render ++ ") " ++ s.text
  | loopLine l s => l.head ++ " " ++ s.text
  | skip | seq .. | loop .. | block .. => ""

/-- A line at an indentation level. -/
def line (level : Nat) (text : String) : String := "".pushn ' ' (2 * level) ++ text

/-- Written lines. -/
def lines (level : Nat) : Stmt → List String
  | skip => []
  | seq s₁ s₂ => s₁.lines level ++ s₂.lines level
  | loop l s => line level (l.head ++ " \x7b") :: s.lines (level + 1) ++ [line level "\x7d"]
  | block s => line level "\x7b" :: s.lines (level + 1) ++ [line level "\x7d"]
  | s => [line level s.text]

/-- Loops nested in each other around a statement, the first one outermost. -/
def nest (loops : List Loop) (body : Stmt) : Stmt := loops.foldr loop body

end Stmt

end ArrayTrace.C
