/-!
# JSON values

Values as they are exchanged in serialized form. Integers and floats are told
apart, since a field may take one and refuse the other. Records are read from an
object, whose other fields do not matter, or from an array of the fields in order.
-/

namespace ArrayTrace

/-- A JSON value. -/
inductive Json
  | null
  | bool (b : Bool)
  | int (n : Int)
  | float (x : Float)
  | str (s : String)
  | arr (items : List Json)
  | obj (fields : List (String × Json))

instance : Inhabited Json := ⟨.null⟩

namespace Json

mutual

/-- Nesting depth. -/
def depth : Json → Nat
  | arr items => depthItems items + 1
  | obj fields => depthFields fields + 1
  | _ => 0

/-- Greatest depth among the items of an array. -/
def depthItems : List Json → Nat
  | [] => 0
  | j :: js => max j.depth (depthItems js)

/-- Greatest depth among the fields of an object. -/
def depthFields : List (String × Json) → Nat
  | [] => 0
  | (_, j) :: fs => max j.depth (depthFields fs)

end

/-- How deep values may be nested in a text that is read. -/
def maxDepth : Nat := 127

/-- The value read back from its written text. -/
def reread? (j : Json) : Option Json := if j.depth ≤ maxDepth then some j else none

/-! ## Reading -/

/-- A natural number that fits in 64 bits. -/
def nat? : Json → Option Nat
  | int n => if 0 ≤ n ∧ n < UInt64.size then some n.toNat else none
  | _ => none

/-- An integer that fits in 64 bits with sign. -/
def int64? : Json → Option Int
  | int n => if Int64.minValue.toInt ≤ n ∧ n ≤ Int64.maxValue.toInt then some n else none
  | _ => none

/-- A truth value. -/
def bool? : Json → Option Bool
  | bool b => some b
  | _ => none

/-- A text. -/
def str? : Json → Option String
  | str s => some s
  | _ => none

/-- A list of values that can all be read. -/
def list? {α : Type} (read : Json → Option α) : Json → Option (List α)
  | arr items => items.mapM read
  | _ => none

/-- A variant of a tagged union: its tag, and its content unless it is a bare tag. -/
def variant? : Json → Option (String × Option Json)
  | str tag => some (tag, none)
  | obj [(tag, content)] => some (tag, some content)
  | _ => none

/-- The tag of a variant without content. -/
def bareTag? (j : Json) : Option String :=
  match j.variant? with
  | some (tag, none) | some (tag, some null) => some tag
  | _ => none

/-- The fields of a record in the given order, each present or absent. -/
def record? (names : List String) : Json → Option (List (Option Json))
  | obj fields => some (names.map fun name => List.lookup name fields)
  | arr items =>
    if items.length ≤ names.length then
      some ((List.range names.length).map fun i => items[i]?)
    else none
  | _ => none

/-- The fields of a record that must all be present. -/
def fields? (names : List String) (j : Json) : Option (List Json) :=
  (j.record? names).bind fun fs => fs.mapM id

/-- The fields of the content of a variant, given as an object. -/
def content? (names : List String) : Json → Option (List Json)
  | obj fields => names.mapM fun name => List.lookup name fields
  | _ => none

/-! ## Writing -/

/-- A variant with content. -/
def tagged (tag : String) (content : Json) : Json := obj [(tag, content)]

/-- A list of naturals. -/
def nats (ns : List Nat) : Json := arr (ns.map fun n => int (Int.ofNat n))

/-- A character of a text. -/
def escapedChar (c : Char) : List Char :=
  match c with
  | '"' => ['\\', '"']
  | '\\' => ['\\', '\\']
  | '\n' => ['\\', 'n']
  | '\r' => ['\\', 'r']
  | '\t' => ['\\', 't']
  | '\x08' => ['\\', 'b']
  | '\x0c' => ['\\', 'f']
  | c =>
    if c.toNat < 0x20 then
      ['\\', 'u', '0', '0', Nat.digitChar (c.toNat / 16), Nat.digitChar (c.toNat % 16)]
    else [c]

/-- A text in quotes. -/
def quoted (s : String) : String :=
  "\"" ++ String.ofList (s.toList.flatMap escapedChar) ++ "\""

end Json

end ArrayTrace
