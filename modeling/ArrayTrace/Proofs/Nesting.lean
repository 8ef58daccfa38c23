import ArrayTrace.Proofs.Pointwise
import ArrayTrace.Serial.Program

/-!
# How deeply serialized programs are nested

A text that is nested too deeply cannot be read back. Of the parts of a program only its kernels
can be nested deeply: each operation on the way to a leaf adds the tag, the record of the
operation and the array of its arguments.

## Main definitions

* `Kernel.height` — the greatest number of operations on the way to a leaf.
-/

namespace ArrayTrace

namespace Json
variable {js : List Json} {fs : List (String × Json)} {d : Nat}

theorem depthItems_le_iff : depthItems js ≤ d ↔ ∀ j ∈ js, j.depth ≤ d := by
  induction js with
  | nil => simp [depthItems]
  | cons j js ih => rw [depthItems, Nat.max_le, ih, List.forall_mem_cons]

theorem depthFields_le_iff : depthFields fs ≤ d ↔ ∀ f ∈ fs, f.2.depth ≤ d := by
  induction fs with
  | nil => simp [depthFields]
  | cons f fs ih => rw [depthFields, Nat.max_le, ih, List.forall_mem_cons]

theorem depth_arr_le_iff : (arr js).depth ≤ d + 1 ↔ ∀ j ∈ js, j.depth ≤ d := by
  rw [depth, Nat.add_le_add_iff_right, depthItems_le_iff]

theorem depth_obj_le_iff : (obj fs).depth ≤ d + 1 ↔ ∀ f ∈ fs, f.2.depth ≤ d := by
  rw [depth, Nat.add_le_add_iff_right, depthFields_le_iff]

@[simp] theorem depth_int (n : Int) : (int n).depth = 0 := rfl

@[simp] theorem depth_str (s : String) : (str s).depth = 0 := rfl

@[simp] theorem depth_tagged (tag : String) (j : Json) : (tagged tag j).depth = j.depth + 1 := by
  simp [tagged, depth, depthFields]

theorem depth_nats_le (ns : List Nat) : (nats ns).depth ≤ 1 :=
  depth_arr_le_iff.2 (List.forall_mem_map.2 fun _ _ => Nat.le_refl 0)

end Json

/-! ## Parts of bounded depth -/

@[simp] theorem NodeId.depth_toJson (id : NodeId) : id.toJson.depth = 1 := by
  simp [toJson, Json.depth, Json.depthFields]

theorem NodeId.depth_listToJson_le (ids : List NodeId) : (listToJson ids).depth ≤ 2 :=
  Json.depth_arr_le_iff.2 (List.forall_mem_map.2 fun id _ => id.depth_toJson.le)

@[simp] theorem DType.depth_toJson (d : DType) : d.toJson.depth = 0 := rfl

theorem DType.depth_elemToJson (d : DType) (x : d.Elem) : (d.elemToJson x).depth = 0 := by
  cases d <;> simp only [elemToJson] <;> (try split) <;> rfl

theorem Selector.depth_toJson_le (s : Selector) : s.toJson.depth ≤ 2 := by
  cases s <;> simp [toJson, Json.depth, Json.depthFields]

theorem Selection.depth_toJson_le (s : Selection) : s.toJson.depth ≤ 3 :=
  Json.depth_arr_le_iff.2 (List.forall_mem_map.2 fun s _ => s.depth_toJson_le)

theorem TensorType.depth_toJson_le (t : TensorType) : t.toJson.depth ≤ 2 :=
  Json.depth_obj_le_iff.2 (by simp [Json.depth_nats_le])

theorem Op.depth_toJson_le (op : Op) : op.toJson.depth ≤ 5 := by
  cases op with
  | slice s =>
    have := s.depth_toJson_le
    simp only [toJson, Json.depth_tagged, Json.depth, Json.depthFields]
    omega
  | _ => simp [toJson, Json.depth, Json.depthFields]

theorem Op.depth_toJson {op : Op} (h : op.isElementwise = true) : op.toJson.depth = 2 := by
  cases op with
  | binary | unary | cast | choose => simp [toJson, Json.depth, Json.depthFields]
  | _ => cases h

theorem Tensor.depth_toJson_le (t : Tensor) : t.toJson.depth ≤ 3 := by
  have hdata : (Json.arr (t.array.data.map t.dtype.elemToJson)).depth ≤ 1 :=
    Json.depth_arr_le_iff.2 (List.forall_mem_map.2 fun x _ => (t.dtype.depth_elemToJson x).le)
  rw [toJson, Json.depth_tagged, Nat.add_le_add_iff_right]
  exact Json.depth_obj_le_iff.2 (by simp [Json.depth_nats_le, hdata])

theorem Node.depth_toJson_le (n : Node) : n.toJson.depth ≤ 8 := by
  have hkind : n.kind.toJson.depth ≤ 7 := by
    cases n.kind with
    | placeholder => simp [NodeKind.toJson]
    | state initial =>
      have := initial.depth_toJson_le
      simp only [NodeKind.toJson, Json.depth_tagged, Json.depth, Json.depthFields]
      omega
    | constant value =>
      have := value.depth_toJson_le
      simp only [NodeKind.toJson, Json.depth_tagged, Json.depth, Json.depthFields]
      omega
    | apply op inputs =>
      have := op.depth_toJson_le
      have := NodeId.depth_listToJson_le inputs
      simp only [NodeKind.toJson, Json.depth_tagged, Json.depth, Json.depthFields]
      omega
    | assign target selection value =>
      have := selection.depth_toJson_le
      simp only [NodeKind.toJson, Json.depth_tagged, Json.depth, Json.depthFields,
        NodeId.depth_toJson]
      omega
  have htype := n.type.depth_toJson_le
  exact Json.depth_obj_le_iff.2 (by simp [hkind]; omega)

theorem EmittedUnit.depth_toJson_le (u : EmittedUnit) : u.toJson.depth ≤ 5 := by
  have hdecls (ds : List ArrayDecl) : (Json.arr (ds.map ArrayDecl.toJson)).depth ≤ 3 :=
    Json.depth_arr_le_iff.2 (List.forall_mem_map.2 fun d _ =>
      Json.depth_obj_le_iff.2 (by simp [Json.depth_nats_le]))
  have hsignature : u.signature.toJson.depth ≤ 4 :=
    Json.depth_obj_le_iff.2 (by simp [hdecls])
  exact Json.depth_obj_le_iff.2 (by simp [hsignature])

/-! ## Kernels -/

namespace Kernel

mutual

/-- The greatest number of operations on the way to a leaf. -/
def height : Kernel → Nat
  | leaf _ => 0
  | apply _ _ args => heights args + 1

/-- The greatest height among kernels. -/
def heights : List Kernel → Nat
  | [] => 0
  | k :: ks => max k.height (heights ks)

end

variable {t : Trace}

mutual

/-- Each operation of a kernel adds three levels. -/
theorem depth_toJson : (k : Kernel) → k.Typed t →
    3 * k.height + 1 ≤ k.toJson.depth ∧ k.toJson.depth ≤ 3 * k.height + 2
  | leaf id, _ => by simp [height, toJson]
  | apply node op args, ⟨hop, hargs, _⟩ => by
    have hdepths := depthItems_listToJson args hargs
    have hdepth := Op.depth_toJson hop
    simp only [height, toJson, Json.depth_tagged, Json.depth, Json.depthFields,
      NodeId.depth_toJson, hdepth]
    omega

theorem depthItems_listToJson : (ks : List Kernel) → TypedAll t ks →
    (heights ks = 0 ∨ 3 * heights ks + 1 ≤ Json.depthItems (listToJson ks)) ∧
      Json.depthItems (listToJson ks) ≤ 3 * heights ks + 2
  | [], _ => by simp [heights, listToJson, Json.depthItems]
  | k :: ks, ⟨hk, hks⟩ => by
    have hdepth := depth_toJson k hk
    have hdepths := depthItems_listToJson ks hks
    rw [heights, listToJson, Json.depthItems]
    omega

end

end Kernel

/-- The greatest number of operations that a step applies on the way to a leaf. -/
def Step.height : Step → Nat
  | single _ => 0
  | fused _ kernel => kernel.height

end ArrayTrace
