import ArrayTrace.C.SourceFile
import ArrayTrace.Proofs.Remainders
import Mathlib.Logic.Function.Basic

/-!
# Values of integer code

Expressions over the integer types of C and the functions that they call. Operands are
promoted to `int` at least, arithmetic wraps around, and a quotient or a remainder is
undefined when the divisor is 0 or the quotient is no number of the type. Elements of arrays
and the numbers of local variables are given by the surroundings of an expression.

## Main definitions

* `Expr.type?`, `Expr.eval?` — type and value of an expression.
* `Stmt.exec?` — what a statement does to the local variables.
* `Helper.call?` — the result of a helper function.
-/

namespace ArrayTrace.C

/-! ## Integer types -/

/-- The types `uint8_t`, `int` and `int64_t`. -/
inductive IntType
  | byte | int | long
deriving DecidableEq

namespace IntType

/-- The number of the type that a number is congruent to. -/
def wrap : IntType → Int → Int
  | byte, n => n % 0x100
  | int, n => n.bmod 0x100000000
  | long, n => n.bmod 0x10000000000000000

/-- Type in which two operands are computed. -/
def common (a b : IntType) : IntType := if a = long ∨ b = long then long else int

/-- Type of the stored elements, if they are integers or Booleans. -/
def ofDType? : DType → Option IntType
  | .i64 => some long
  | .bool => some byte
  | .f64 | .f32 => none

end IntType

/-- A number of a type. -/
structure Value where
  type : IntType
  n : Int
deriving DecidableEq

/-- The number that stands for a truth value. -/
def truth (b : Bool) : Int := if b then 1 else 0

/-- Value of an operation on two numbers, computed in a type. -/
def BinOp.compute? (op : BinOp) (type : IntType) (a b : Int) : Option Int :=
  match op with
  | add => some (type.wrap (a + b))
  | sub => some (type.wrap (a - b))
  | mul => some (type.wrap (a * b))
  | div => if b = 0 ∨ type.wrap (a.tdiv b) ≠ a.tdiv b then none else some (a.tdiv b)
  | rem => if b = 0 ∨ type.wrap (a.tdiv b) ≠ a.tdiv b then none else some (a.tmod b)
  | lt => some (truth (a < b))
  | gt => some (truth (b < a))
  | le => some (truth (a ≤ b))
  | ge => some (truth (b ≤ a))
  | eq => some (truth (a = b))
  | ne => some (truth (a ≠ b))
  | and => some (truth (a ≠ 0 ∧ b ≠ 0))
  | or => some (truth (a ≠ 0 ∨ b ≠ 0))

/-- Whether an operation always evaluates both operands. -/
def BinOp.isStrict : BinOp → Bool
  | and | or => false
  | _ => true

/-- Type of an operation on operands of two types. -/
def BinOp.type (op : BinOp) (a b : IntType) : IntType :=
  match op with
  | add | sub | mul | div | rem => IntType.common a b
  | lt | gt | le | ge | eq | ne | and | or => .int

/-! ## Expressions -/

/-- A function on integers. -/
structure IntFunction where
  result : IntType
  compute? : List Int → Option Int

/-- What the names of an expression stand for. -/
structure Surroundings where
  var? : String → Option Value
  /-- The element of an array at a position, both given as expressions. -/
  element? : Expr → Expr → Option Value
  function? : String → Option IntFunction

namespace Expr

/-- Type of an expression. -/
def type? (s : Surroundings) : Expr → Option IntType
  | var x => (s.var? x).map Value.type
  | num n => if n ≤ 0x7fffffff then some .int else none
  | paren e => e.type? s
  | index a i => (s.element? a i).map Value.type
  | call f _ | call₂ f _ _ => (s.function? f).map IntFunction.result
  | bin op x y => do return op.type (← x.type? s) (← y.type? s)
  | neg e => do return .common .int (← e.type? s)
  | not e => do
    let _ ← e.type? s
    return .int
  | cond _ x y => do return .common (← x.type? s) (← y.type? s)
  | cast d _ => IntType.ofDType? d
  | state _ | realZero => none

/-- Value of an expression. The second operand of a logical operation is evaluated only if
the first one leaves the result open, and of a choice the chosen operand only. -/
def eval? (s : Surroundings) : Expr → Option Int
  | var x => (s.var? x).map Value.n
  | num n => some n
  | paren e => e.eval? s
  | index a i => (s.element? a i).map Value.n
  | call f x => do (← s.function? f).compute? [← x.eval? s]
  | call₂ f x y => do (← s.function? f).compute? [← x.eval? s, ← y.eval? s]
  | bin .and x y => do
    if (← x.eval? s) = 0 then return 0
    return truth ((← y.eval? s) ≠ 0)
  | bin .or x y => do
    if (← x.eval? s) ≠ 0 then return 1
    return truth ((← y.eval? s) ≠ 0)
  | bin op x y => do
    op.compute? (.common (← x.type? s) (← y.type? s)) (← x.eval? s) (← y.eval? s)
  | neg e => do return (IntType.common .int (← e.type? s)).wrap (-(← e.eval? s))
  | not e => do return truth ((← e.eval? s) = 0)
  | cond c x y => do if (← c.eval? s) ≠ 0 then x.eval? s else y.eval? s
  | cast d e => do return (← IntType.ofDType? d).wrap (← e.eval? s)
  | state _ | realZero => none

end Expr

/-! ## Helper functions -/

/-- Local variables and their numbers. -/
abbrev Locals := String → Option Value

/-- How the execution of a statement ends. -/
inductive Outcome
  | normal (locals : Locals)
  | returned (n : Int)

/-- Surroundings that offer local variables only. -/
def Locals.surroundings (l : Locals) : Surroundings := ⟨l, fun _ _ => none, fun _ => none⟩

/-- Effect of a statement on the local variables. -/
def Stmt.exec? (l : Locals) : Stmt → Option Outcome
  | skip | comment _ => some (.normal l)
  | seq s₁ s₂ => do
    match ← s₁.exec? l with
    | .normal l => s₂.exec? l
    | .returned n => return .returned n
  | declare d x v => do
    let t ← IntType.ofDType? d
    return .normal (Function.update l x (some ⟨t, t.wrap (← v.eval? l.surroundings)⟩))
  | accumulate (.var x) v => do
    let old ← l x
    let common := IntType.common old.type (← v.type? l.surroundings)
    let sum := common.wrap (old.n + (← v.eval? l.surroundings))
    return .normal (Function.update l x (some ⟨old.type, old.type.wrap sum⟩))
  | ret v => do return .returned (← v.eval? l.surroundings)
  | ifLine c s => do
    if (← c.eval? l.surroundings) ≠ 0 then s.exec? l else return .normal l
  | _ => none

namespace Helper

/-- Parameters bound to arguments, which are converted to their type. -/
def locals (f : Helper) (t : IntType) (args : List Int) : Locals :=
  fun x => ((f.params.zip args).lookup x).map fun n => ⟨t, t.wrap n⟩

/-- Result of calling a function with arguments. -/
def call? (f : Helper) (args : List Int) : Option Int := do
  let t ← IntType.ofDType? f.result
  if args.length ≠ f.params.length then none
  match ← f.body.exec? (f.locals t args) with
  | .returned n => return t.wrap n
  | .normal _ => none

end Helper

/-- The function of a name. -/
def helper? (name : String) : Option IntFunction := do
  let f ← helpers.find? fun f => f.name = name
  return ⟨← IntType.ofDType? f.result, f.call?⟩

theorem Expr.eval?_bin {op : BinOp} (h : op.isStrict = true) (s : Surroundings) (x y : Expr) :
    (bin op x y).eval? s = (do
      op.compute? (.common (← x.type? s) (← y.type? s)) (← x.eval? s) (← y.eval? s)) := by
  cases op with
  | and | or => cases h
  | _ => rfl

/-! ## Words -/

@[simp] theorem wrap_toInt (a : Int64) : IntType.long.wrap a.toInt = a.toInt := by
  have hlower := a.le_toInt
  have hupper := a.toInt_lt
  exact Int.bmod_eq_of_le (by omega) (by omega)

theorem wrap_add (a b : Int64) : IntType.long.wrap (a.toInt + b.toInt) = (a + b).toInt :=
  (Int64.toInt_add a b).symm

/-- The quotient of the least integer by -1 is the only one that is no 64-bit integer. -/
theorem wrap_tdiv_eq_iff {a b : Int64} :
    IntType.long.wrap (a.toInt.tdiv b.toInt) = a.toInt.tdiv b.toInt ↔
      ¬ (a = Int64.minValue ∧ b = -1) := by
  have hwrap : IntType.long.wrap (a.toInt.tdiv b.toInt) = (a / b).toInt :=
    (Int64.toInt_div a b).symm
  rw [hwrap]
  constructor
  · rintro h ⟨rfl, rfl⟩
    revert h
    decide
  · intro h
    by_cases ha : a = Int64.minValue
    · exact Int64.toInt_div_of_ne_right a b fun hb => h ⟨ha, hb⟩
    · exact Int64.toInt_div_of_ne_left a b ha

@[simp] theorem truth_eq_zero {p : Bool} : truth p = 0 ↔ p = false := by
  cases p <;> simp [truth]

@[simp] theorem truth_inj {p q : Bool} : truth p = truth q ↔ p = q := by
  cases p <;> cases q <;> simp [truth]

/-! ## The integer remainder -/

section
variable {l : Locals} {a b r : Int64} (hb : l "b" = some ⟨.long, b.toInt⟩)
include hb

theorem exec?_guard :
    (Stmt.ifLine (.bin .eq (.var "b") (.num 0)) (.ret (.num 0))).exec? l =
      some (if b = 0 then .returned 0 else .normal l) := by
  by_cases h : b = 0 <;>
    simp [Stmt.exec?, Expr.eval?, Expr.type?, Locals.surroundings, BinOp.compute?, hb, h]

theorem exec?_remainder (ha : l "a" = some ⟨.long, a.toInt⟩) (hb0 : b ≠ 0) :
    (Stmt.declare .i64 "r" (.bin .rem (.var "a") (.var "b"))).exec? l =
      if a = Int64.minValue ∧ b = -1 then none
      else some (.normal (Function.update l "r" (some ⟨.long, (a % b).toInt⟩))) := by
  have hrem : a.toInt.tmod b.toInt = (a % b).toInt := (Int64.toInt_mod a b).symm
  have hvalue : (Expr.bin .rem (.var "a") (.var "b")).eval? l.surroundings =
      if a = Int64.minValue ∧ b = -1 then none else some (a % b).toInt := by
    simp only [Expr.eval?, Expr.type?, Locals.surroundings, ha, hb, Option.map_some,
      Option.bind_eq_bind, Option.bind_some, IntType.common, BinOp.compute?, toInt_eq_zero, hb0,
      false_or, ne_eq, or_self, if_true, wrap_tdiv_eq_iff, not_not, hrem]
  rw [Stmt.exec?, hvalue]
  split <;> simp [IntType.ofDType?, -Int64.toInt_mod]

theorem exec?_adjust (hr : l "r" = some ⟨.long, r.toInt⟩) :
    (Stmt.ifLine
        (.bin .and (.bin .ne (.var "r") (.num 0))
          (.group .ne (.group .lt (.var "r") (.num 0)) (.group .lt (.var "b") (.num 0))))
        (.accumulate (.var "r") (.var "b"))).exec? l =
      some (.normal (if r ≠ 0 ∧ decide (r < 0) ≠ decide (b < 0) then
        Function.update l "r" (some ⟨.long, (r + b).toInt⟩) else l)) := by
  by_cases h0 : r = 0 <;> by_cases hsign : decide (r < 0) = decide (b < 0) <;>
    simp_all [Stmt.exec?, Expr.eval?, Expr.type?, Expr.group, Locals.surroundings, BinOp.compute?,
      IntType.common, wrap_add, -Int64.toInt_add]

end

theorem exec?_seq {l : Locals} (s₁ s₂ : Stmt) :
    (Stmt.seq s₁ s₂).exec? l = (s₁.exec? l).bind fun
      | .normal l => s₂.exec? l
      | .returned n => some (.returned n) := rfl

theorem call?_eq {f : Helper} {t : IntType} {args : List Int}
    (ht : IntType.ofDType? f.result = some t) (hlen : args.length = f.params.length) :
    f.call? args = (f.body.exec? (f.locals t args)).bind fun
      | .returned n => some (t.wrap n)
      | .normal _ => none := by
  simp [Helper.call?, ht, hlen]

theorem exec?_modInt {l : Locals} {a b : Int64} (ha : l "a" = some ⟨.long, a.toInt⟩)
    (hb : l "b" = some ⟨.long, b.toInt⟩) :
    modInt.body.exec? l =
      if a = Int64.minValue ∧ b = -1 then none else some (.returned (floorMod a b).toInt) := by
  rw [modInt, Stmt.all, List.foldr, exec?_seq, exec?_guard hb, Option.bind_some]
  by_cases hb0 : b = 0
  · subst hb0
    simp [floorMod]
  simp only [if_neg hb0]
  rw [List.foldr, exec?_seq, exec?_remainder hb ha hb0]
  by_cases hundefined : a = Int64.minValue ∧ b = -1
  · simp [hundefined]
  simp only [if_neg hundefined, Option.bind_some]
  rw [List.foldr, exec?_seq, exec?_adjust (r := a % b) (by simpa using hb) (by simp),
    Option.bind_some]
  rw [floorMod, if_neg hb0]
  by_cases hsign : a % b ≠ 0 ∧ decide (a % b < 0) ≠ decide (b < 0)
  · simp only [if_pos hsign, List.foldr, Stmt.exec?, Expr.eval?, Locals.surroundings,
      Function.update_self, Option.map_some, Option.bind_eq_bind, Option.bind_some, Option.pure_def]
  · simp only [if_neg hsign, List.foldr, Stmt.exec?, Expr.eval?, Locals.surroundings,
      Function.update_self, Option.map_some, Option.bind_eq_bind, Option.bind_some, Option.pure_def]

/-- The emitted remainder is the floored one, except that the remainder of the least integer
by -1 is undefined. -/
theorem call?_modInt (a b : Int64) :
    modInt.call? [a.toInt, b.toInt] =
      if a = Int64.minValue ∧ b = -1 then none else some (floorMod a b).toInt := by
  rw [call?_eq rfl rfl, exec?_modInt (a := a) (b := b) (by simp [Helper.locals, modInt])
    (by simp [Helper.locals, modInt, List.lookup_cons])]
  split <;> simp

/-- The quotient of the least integer by -1 does not fit, so this call has no result, while
the floored remainder of the two is 0. -/
theorem not_call?_modInt_eq_floorMod :
    ¬ ∀ a b : Int64, modInt.call? [a.toInt, b.toInt] = some (floorMod a b).toInt := by
  intro h
  have hcall : modInt.call? [Int64.minValue.toInt, (-1 : Int64).toInt] = none := by decide
  rw [h] at hcall
  cases hcall

end ArrayTrace.C
