import ArrayTrace.Op

/-!
# Nodes

A node is one recorded value: an input, a persistent state, a constant, an applied
operation, or an assignment into part of an array. Nodes refer to each other by the
trace they belong to and their number in it.
-/

namespace ArrayTrace

/-- Handle to a node, valid within the trace that created it. -/
structure NodeId where
  context : Nat
  index : Nat
deriving DecidableEq

namespace NodeId

/-- Written form, such as `#3@0`. -/
def describe (id : NodeId) : String := "#" ++ id.index.repr ++ "@" ++ id.context.repr

/-- Order by trace, then by number. -/
def before (a b : NodeId) : Bool :=
  a.context < b.context || (a.context = b.context && a.index < b.index)

/-- Add an id to a strictly increasing list. -/
def insert (id : NodeId) : List NodeId → List NodeId
  | [] => [id]
  | a :: rest =>
    if id = a then a :: rest
    else if id.before a then id :: a :: rest
    else a :: insert id rest

/-- The ids of a list in strictly increasing order. -/
def sorted (ids : List NodeId) : List NodeId := ids.foldr insert []

@[simp] theorem mem_insert {a id : NodeId} {ids : List NodeId} :
    a ∈ insert id ids ↔ a = id ∨ a ∈ ids := by
  induction ids with
  | nil => simp [insert]
  | cons b rest ih =>
    by_cases h : id = b
    · subst h; simp [insert]
    · by_cases hb : id.before b
      · simp [insert, h, hb]
      · simp only [insert, h, if_false, hb, Bool.false_eq_true, List.mem_cons, ih]
        exact ⟨fun o => by rcases o with o | o | o <;> simp [o],
          fun o => by rcases o with o | o | o <;> simp [o]⟩

@[simp] theorem mem_sorted {a : NodeId} {ids : List NodeId} : a ∈ sorted ids ↔ a ∈ ids := by
  induction ids with
  | nil => simp [sorted]
  | cons b rest ih =>
    have h : sorted (b :: rest) = insert b (sorted rest) := rfl
    simp [h, ih]

end NodeId

/-- What a node stands for. -/
inductive NodeKind
  /-- Supplied with every call. -/
  | placeholder
  /-- Kept between calls. -/
  | state (initial : Tensor)
  | constant (value : Tensor)
  | apply (op : Op) (inputs : List NodeId)
  /-- `target[selection] = value`, performed in place. -/
  | assign (target : NodeId) (selection : Selection) (value : NodeId)

namespace NodeKind

/-- Name of the kind in messages and exports. -/
def name : NodeKind → String
  | placeholder => "placeholder"
  | state _ => "variable"
  | constant _ => "constant"
  | apply .. => "operation"
  | assign .. => "mutation"

end NodeKind

/-- One recorded value. -/
structure Node where
  id : NodeId
  name : String
  type : TensorType
  kind : NodeKind

namespace Node

/-- Nodes whose values this one is computed from, with repeats. -/
def inputs (n : Node) : List NodeId :=
  match n.kind with
  | .apply _ inputs => inputs
  | .assign target _ value => [target, value]
  | _ => []

/-- Whether the node applies an elementwise operation. -/
def isElementwise (n : Node) : Bool :=
  match n.kind with
  | .apply op _ => op.isElementwise
  | _ => false

/-- The assigned array, if the node is an assignment. -/
def target? (n : Node) : Option NodeId :=
  match n.kind with
  | .assign target _ _ => some target
  | _ => none

/-- Whether the node is an assignment. -/
def isAssignment (n : Node) : Bool := n.target?.isSome

/-- Whether the node names storage that can be assigned into. -/
def isStorage (n : Node) : Bool :=
  match n.kind with
  | .placeholder | .state _ => true
  | _ => false

end Node

end ArrayTrace
