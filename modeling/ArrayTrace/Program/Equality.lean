import ArrayTrace.Program

/-!
# Equality of programs

Two programs are equal when all their parts are. Elements of arrays are compared by
value, so that a program holding a NaN differs from itself.
-/

namespace ArrayTrace

namespace Kernel

mutual

/-- Equality of kernels. -/
def beq : Kernel → Kernel → Bool
  | leaf a, leaf b => a = b
  | apply m f xs, apply n g ys => m = n && f = g && beqAll xs ys
  | _, _ => false

/-- Equality of lists of kernels. -/
def beqAll : List Kernel → List Kernel → Bool
  | [], [] => true
  | x :: xs, y :: ys => beq x y && beqAll xs ys
  | _, _ => false

end

end Kernel

/-- Equality of steps. -/
def Step.beq : Step → Step → Bool
  | single a, single b => a = b
  | fused a x, fused b y => a = b && x.beq y
  | _, _ => false

/-- Equality of what two nodes stand for. -/
def NodeKind.beq : NodeKind → NodeKind → Bool
  | placeholder, placeholder => true
  | state a, state b => a.beq b
  | constant a, constant b => a.beq b
  | apply f xs, apply g ys => f = g && xs = ys
  | assign t s v, assign u r w => t = u && s = r && v = w
  | _, _ => false

/-- Equality of nodes. -/
def Node.beq (a b : Node) : Bool :=
  a.id = b.id && a.name = b.name && a.type = b.type && a.kind.beq b.kind

/-- Lists whose elements are equal one by one. -/
def equalLists {α : Type} (eq : α → α → Bool) : List α → List α → Bool
  | [], [] => true
  | x :: xs, y :: ys => eq x y && equalLists eq xs ys
  | _, _ => false

/-- Equality of plans. -/
def Plan.beq (a b : Plan) : Bool :=
  equalLists Step.beq a.steps b.steps && a.outputs = b.outputs

/-- Equality of programs. -/
def Program.beq (a b : Program) : Bool :=
  equalLists Node.beq a.nodes b.nodes && a.plan.beq b.plan && a.unit = b.unit

end ArrayTrace
