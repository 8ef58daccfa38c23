import ArrayTrace.Shape

/-!
# Signatures

The calling convention of a compiled unit: which arrays go in and out, and which
ones it keeps.
-/

namespace ArrayTrace

/-- An array that crosses the boundary of a unit. -/
structure ArrayDecl where
  name : String
  type : TensorType
deriving DecidableEq

/-- Calling convention of a unit. -/
structure Signature where
  unitName : String
  /-- Inputs in the order in which they are passed. -/
  parameters : List ArrayDecl
  /-- Results in declared order. -/
  outputs : List ArrayDecl
  /-- Arrays kept between calls, in slot order. -/
  states : List ArrayDecl
deriving DecidableEq

namespace Signature

/-- Name of an entry point of the unit. -/
def symbol (s : Signature) (suffix : String) : String := s.unitName ++ "_" ++ suffix

/-- Slot and declaration of a variable. -/
def slot? (s : Signature) (name : String) : Option (Nat × ArrayDecl) :=
  (s.states.zipIdx.find? fun p => p.1.name = name).map fun (decl, slot) => (slot, decl)

end Signature

end ArrayTrace
