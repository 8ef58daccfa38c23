import ArrayTrace.Decimal
import ArrayTrace.Json

/-!
# Indented JSON text

Values written over several lines, two blanks of indentation per level. Empty arrays
and objects take no line of their own.
-/

namespace ArrayTrace

/-- Floats in JSON: the fewest digits, an exponent below 1e-5 and from 1e16 on. -/
def jsonLayout : FloatLayout := ⟨some (-5), some 16, ".0", "null", "null", ""⟩

namespace Json

/-- Blanks in front of a line. -/
def indentation (level : Nat) : String := "".pushn ' ' (2 * level)

/-- Parts between brackets, one per line. -/
def bracketed (level : Nat) (opening closing : String) (parts : List String) : String :=
  if parts.isEmpty then opening ++ closing
  else
    let lines := parts.map fun p => indentation (level + 1) ++ p
    opening ++ "\n" ++ ",\n".intercalate lines ++ "\n" ++ indentation level ++ closing

mutual

/-- Written value at an indentation level. -/
def pretty (level : Nat) : Json → String
  | null => "null"
  | bool b => if b then "true" else "false"
  | int n => n.repr
  | float x => if x.isFinite then jsonLayout.render (.ofFloat x) else "null"
  | str s => quoted s
  | arr items => bracketed level "[" "]" (prettyItems (level + 1) items)
  | obj fields => bracketed level "\x7b" "\x7d" (prettyFields (level + 1) fields)

/-- Written items of an array. -/
def prettyItems (level : Nat) : List Json → List String
  | [] => []
  | j :: js => j.pretty level :: prettyItems level js

/-- Written fields of an object. -/
def prettyFields (level : Nat) : List (String × Json) → List String
  | [] => []
  | (k, j) :: fs => (quoted k ++ ": " ++ j.pretty level) :: prettyFields level fs

end

end Json

end ArrayTrace
