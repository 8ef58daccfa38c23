import ArrayTrace.Trace.Node

/-!
# Kernels

A kernel is an expression over scheduled values that one loop computes element by
element. Its leaves are values computed before, its inner nodes apply elementwise
operations.
-/

namespace ArrayTrace

/-- Expression over scheduled values. -/
inductive Kernel
  /-- A value that is already there. -/
  | leaf (id : NodeId)
  /-- The operation of a node, applied to the values of its arguments. -/
  | apply (node : NodeId) (op : Op) (args : List Kernel)

namespace Kernel

mutual

/-- Nodes whose operations the kernel applies, arguments first. -/
def applied : Kernel → List NodeId
  | leaf _ => []
  | apply node _ args => appliedAll args ++ [node]

/-- Nodes whose operations a list of kernels applies. -/
def appliedAll : List Kernel → List NodeId
  | [] => []
  | k :: ks => k.applied ++ appliedAll ks

end

mutual

/-- Leaves in order of use, with repeats. -/
def leaves : Kernel → List NodeId
  | leaf id => [id]
  | apply _ _ args => leavesAll args

/-- Leaves of a list of kernels. -/
def leavesAll : List Kernel → List NodeId
  | [] => []
  | k :: ks => k.leaves ++ leavesAll ks

end

end Kernel

end ArrayTrace
