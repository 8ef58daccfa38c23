import ArrayTrace.DType
import ArrayTrace.Text.Blank

/-!
# Options

What a caller can choose about tracing, compiling and building, the defaults, and
the environment variables that override them.
-/

namespace ArrayTrace

/-- Choices made when a trace begins. -/
structure TraceConfig where
  /-- Result type of true division and transcendental functions on integers. -/
  floatDType : DType := .f64
deriving DecidableEq

/-- Choices made when a program is compiled. -/
structure CompileOptions where
  /-- Merge single-use elementwise operations into their consumers. -/
  fuse : Bool := true
  /-- Keep every node of the trace. Such a program can be inspected but not emitted. -/
  raw : Bool := false
  unitName : String := "jit_unit"
deriving DecidableEq

/-- Choices made when an emitted unit is built. -/
structure BuildOptions where
  compiler : String := "cc"
  flags : List String := ["-O2", "-fwrapv", "-ffp-contract=off"]
deriving DecidableEq

/-- Names and values of the variables that are set. -/
abbrev Environment := List (String × String)

/-- Truth value of a word, whatever its case and surrounding blanks. -/
def parseBool (s : String) : Option Bool :=
  let word := String.ofList ((Text.trim s.toList).map Char.toLower)
  if word ∈ ["1", "true", "yes", "on"] then some true
  else if word ∈ ["0", "false", "no", "off"] then some false
  else none

namespace Environment

/-- Value of a variable that is set to more than blanks. -/
def text? (env : Environment) (key : String) : Option String :=
  (env.lookup key).filter fun s => !(Text.trim s.toList).isEmpty

/-- Truth value of a variable. -/
def flag? (env : Environment) (key : String) : Option Bool :=
  (env.text? key).bind parseBool

/-- Words of a variable. -/
def words? (env : Environment) (key : String) : Option (List String) :=
  (env.text? key).map fun s => (Text.words s.toList).map String.ofList

end Environment

/-- The defaults, overridden by `WHISPER_JIT_FUSION` and `WHISPER_JIT_UNIT`. -/
def CompileOptions.ofEnvironment (env : Environment) : CompileOptions :=
  let base : CompileOptions := {}
  { base with
    fuse := (env.flag? "WHISPER_JIT_FUSION").getD base.fuse
    unitName := (env.text? "WHISPER_JIT_UNIT").getD base.unitName }

/-- The defaults, overridden by `CC` and `WHISPER_JIT_CFLAGS`. -/
def BuildOptions.ofEnvironment (env : Environment) : BuildOptions :=
  let base : BuildOptions := {}
  { compiler := (env.text? "CC").getD base.compiler
    flags := (env.words? "WHISPER_JIT_CFLAGS").getD base.flags }

end ArrayTrace
