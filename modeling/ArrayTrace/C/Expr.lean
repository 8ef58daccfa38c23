import ArrayTrace.DType

/-!
# C expressions

The expressions that emitted code is made of. Parentheses are part of the syntax
tree, so a tree says exactly which text is written.
-/

namespace ArrayTrace.C

/-- Binary operators. -/
inductive BinOp
  | add | sub | mul | div | rem
  | lt | gt | le | ge | eq | ne
  | and | or
deriving DecidableEq

/-- Written operator. -/
def BinOp.symbol : BinOp → String
  | add => "+" | sub => "-" | mul => "*" | div => "/" | rem => "%"
  | lt => "<" | gt => ">" | le => "<=" | ge => ">=" | eq => "==" | ne => "!="
  | and => "&&" | or => "||"

/-- Expressions. -/
inductive Expr
  | var (name : String)
  /-- A member of the unit's state. -/
  | state (name : String)
  | num (n : Nat)
  /-- The floating-point constant zero. -/
  | realZero
  | paren (e : Expr)
  | index (array position : Expr)
  | call (function : String) (arg : Expr)
  | call₂ (function : String) (arg₁ arg₂ : Expr)
  | bin (op : BinOp) (left right : Expr)
  | neg (e : Expr)
  | not (e : Expr)
  | cond (test yes no : Expr)
  | cast (type : DType) (e : Expr)
deriving DecidableEq

namespace Expr

/-- Written expression. -/
def render : Expr → String
  | var x => x
  | state x => "state->" ++ x
  | num n => n.repr
  | realZero => "0.0"
  | paren e => "(" ++ e.render ++ ")"
  | index a i => a.render ++ "[" ++ i.render ++ "]"
  | call f x => f ++ "(" ++ x.render ++ ")"
  | call₂ f x y => f ++ "(" ++ x.render ++ ", " ++ y.render ++ ")"
  | bin op x y => x.render ++ " " ++ op.symbol ++ " " ++ y.render
  | neg e => "-" ++ e.render
  | not e => "!" ++ e.render
  | cond c x y => c.render ++ " ? " ++ x.render ++ " : " ++ y.render
  | cast d e => "(" ++ d.cType ++ ")" ++ e.render

/-- A binary operation in parentheses. -/
def group (op : BinOp) (x y : Expr) : Expr := paren (bin op x y)

/-- Conversion between element types: a comparison with zero for Booleans, a cast
otherwise, and nothing between equal types. -/
def convert (e : Expr) (src dst : DType) : Expr :=
  if src = dst then e
  else if dst = .bool then group .ne (paren e) (num 0)
  else paren (cast dst (paren e))

@[simp] theorem convert_self (e : Expr) (d : DType) : e.convert d d = e := by
  simp [convert]

end Expr

end ArrayTrace.C
