import ArrayTrace.Proofs.Widening
import ArrayTrace.Serial.Node
import Mathlib.Algebra.Order.BigOperators.Group.List
import Mathlib.Algebra.Order.Ring.Nat

/-!
# Nodes are read back as they were written

The serialized form of a node is read back as the node itself, provided that all floats in
its data are finite, and is refused otherwise. Numbers are taken to fit in 64 bits, as all
numbers do that a program can hold.
-/

namespace ArrayTrace

/-! ## Numbers that fit -/

/-- Whether a natural number fits in 64 bits. -/
def InWord (n : Nat) : Prop := n < UInt64.size

instance (n : Nat) : Decidable (InWord n) := inferInstanceAs (Decidable (n < UInt64.size))

/-- Whether an integer fits in 64 bits with sign. -/
def InInt64 (n : Int) : Prop := Int64.minValue.toInt ≤ n ∧ n ≤ Int64.maxValue.toInt

instance (n : Int) : Decidable (InInt64 n) :=
  inferInstanceAs (Decidable (Int64.minValue.toInt ≤ n ∧ n ≤ Int64.maxValue.toInt))

/-- Whether the parts of an id fit. -/
def NodeId.Fits (id : NodeId) : Prop := InWord id.context ∧ InWord id.index

instance (id : NodeId) : Decidable id.Fits :=
  inferInstanceAs (Decidable (InWord id.context ∧ InWord id.index))

/-- Whether the bounds of a selector fit. -/
def Selector.Fits : Selector → Prop
  | point i => InInt64 i
  | range a b step => InInt64 a ∧ InInt64 b ∧ InInt64 step
  | whole => True

instance : (s : Selector) → Decidable s.Fits
  | .point i => inferInstanceAs (Decidable (InInt64 i))
  | .range a b step => inferInstanceAs (Decidable (InInt64 a ∧ InInt64 b ∧ InInt64 step))
  | .whole => .isTrue trivial

/-- Whether the bounds of a selection fit. -/
def Selection.Fits (s : Selection) : Prop := ∀ x ∈ s, Selector.Fits x

instance (s : Selection) : Decidable s.Fits :=
  inferInstanceAs (Decidable (∀ x ∈ s, Selector.Fits x))

/-- Whether the parameters of an operation fit. -/
def Op.Fits : Op → Prop
  | slice s => s.Fits
  | concat axis => InWord axis
  | _ => True

instance : (op : Op) → Decidable op.Fits
  | .slice s => inferInstanceAs (Decidable s.Fits)
  | .concat axis => inferInstanceAs (Decidable (InWord axis))
  | .binary _ | .unary _ | .cast _ | .choose | .matmul | .cross | .transpose | .stack | .sum
  | .norm _ => .isTrue trivial

/-- Whether the lengths of the axes fit. -/
def TensorType.Fits (t : TensorType) : Prop := ∀ d ∈ t.shape, InWord d

instance (t : TensorType) : Decidable t.Fits :=
  inferInstanceAs (Decidable (∀ d ∈ t.shape, InWord d))

/-- Whether a tensor can be addressed. -/
def Tensor.Fits (t : Tensor) : Prop := t.shape.addressable = true

instance (t : Tensor) : Decidable t.Fits :=
  inferInstanceAs (Decidable (t.shape.addressable = true))

/-- Whether everything that a kind of node holds fits. -/
def NodeKind.Fits : NodeKind → Prop
  | placeholder => True
  | state value | constant value => value.Fits
  | apply op inputs => op.Fits ∧ ∀ id ∈ inputs, id.Fits
  | assign target selection value => target.Fits ∧ selection.Fits ∧ value.Fits

instance : (k : NodeKind) → Decidable k.Fits
  | .placeholder => .isTrue trivial
  | .state value | .constant value => inferInstanceAs (Decidable value.Fits)
  | .apply op inputs => inferInstanceAs (Decidable (op.Fits ∧ ∀ id ∈ inputs, id.Fits))
  | .assign target selection value =>
    inferInstanceAs (Decidable (target.Fits ∧ selection.Fits ∧ value.Fits))

/-- Whether everything that a node holds fits. -/
structure Node.Fits (n : Node) : Prop where
  id : n.id.Fits
  type : n.type.Fits
  kind : n.kind.Fits

instance (n : Node) : Decidable n.Fits :=
  decidable_of_iff (n.id.Fits ∧ n.type.Fits ∧ n.kind.Fits)
    ⟨fun ⟨hid, htype, hkind⟩ => ⟨hid, htype, hkind⟩, fun h => ⟨h.id, h.type, h.kind⟩⟩

/-! ## Finite data -/

/-- Whether an element is finite, as all integers and truth values are. -/
def DType.isFinite : (d : DType) → d.Elem → Bool
  | f64, x => x.isFinite
  | f32, x => x.isFinite
  | i64, _ | bool, _ => true

/-- Whether all elements are finite. -/
def Tensor.isFinite (t : Tensor) : Bool := t.array.data.all t.dtype.isFinite

/-- Whether the data of a state or constant are finite. -/
def NodeKind.isFinite : NodeKind → Bool
  | state value | constant value => value.isFinite
  | _ => true

/-- Whether a node holds finite data only. -/
def Node.isFinite (n : Node) : Bool := n.kind.isFinite

/-! ## Reading what was written -/

namespace Json
variable {α : Type} {read : Json → Option α} {write : α → Json} {xs : List α}

theorem nat?_int {n : Nat} (h : InWord n) : (int (Int.ofNat n)).nat? = some n := by
  rw [nat?, if_pos ⟨Int.natCast_nonneg n, Int.ofNat_lt.2 h⟩]
  rfl

theorem int64?_int {n : Int} (h : InInt64 n) : (int n).int64? = some n := if_pos h

/-- A list is read back when its elements are, and refused as soon as one of them is. -/
theorem list?_arr_map {p : α → Bool}
    (h : ∀ x ∈ xs, read (write x) = if p x then some x else none) :
    (arr (xs.map write)).list? read = if xs.all p then some xs else none := by
  show (xs.map write).mapM read = _
  induction xs with
  | nil => rfl
  | cons x xs ih =>
    obtain ⟨hx, hxs⟩ := List.forall_mem_cons.1 h
    rw [List.map_cons, List.mapM_cons, hx, ih hxs, List.all_cons]
    cases p x <;> cases xs.all p <;> rfl

theorem list?_arr_map_of_forall (h : ∀ x ∈ xs, read (write x) = some x) :
    (arr (xs.map write)).list? read = some xs := by
  have := list?_arr_map (p := fun _ => true) fun x hx => by simpa using h x hx
  simpa using this

theorem list?_nats {ns : List Nat} (h : ∀ n ∈ ns, InWord n) : (nats ns).list? nat? = some ns :=
  list?_arr_map_of_forall fun n hn => nat?_int (h n hn)

end Json

theorem DType.ofTag?_tag (d : DType) : ofTag? d.tag = some d := by
  cases d <;> decide

theorem DType.ofJson?_toJson (d : DType) : ofJson? d.toJson = some d := d.ofTag?_tag

theorem NodeId.ofJson?_obj (context index : Json) :
    ofJson? (.obj [("context", context), ("index", index)]) =
      context.nat?.bind fun context => index.nat?.bind fun index => some ⟨context, index⟩ := rfl

theorem NodeId.ofJson?_toJson {id : NodeId} (h : id.Fits) : ofJson? id.toJson = some id := by
  rw [toJson, ofJson?_obj, Json.nat?_int h.1, Json.nat?_int h.2]
  rfl

theorem NodeId.list?_listToJson {ids : List NodeId} (h : ∀ id ∈ ids, id.Fits) :
    (listToJson ids).list? ofJson? = some ids :=
  Json.list?_arr_map_of_forall fun id hid => ofJson?_toJson (h id hid)

theorem Selector.ofJson?_toJson {s : Selector} (h : s.Fits) : ofJson? s.toJson = some s := by
  cases s with
  | point i => simp [toJson, ofJson?, Json.tagged, Json.variant?, Json.int64?_int h]
  | range a b step =>
    simp [toJson, ofJson?, Json.tagged, Json.variant?, Json.content?, List.lookup,
      Json.int64?_int h.1, Json.int64?_int h.2.1, Json.int64?_int h.2.2]
  | whole => rfl

theorem Selection.ofJson?_toJson {s : Selection} (h : s.Fits) : ofJson? s.toJson = some s :=
  Json.list?_arr_map_of_forall fun x hx => Selector.ofJson?_toJson (h x hx)

theorem TensorType.ofJson?_toJson {t : TensorType} (h : t.Fits) : ofJson? t.toJson = some t := by
  simp [toJson, ofJson?, Json.fields?, Json.record?, List.lookup, Json.list?_nats h,
    DType.ofJson?_toJson]

theorem UnaryOp.ofJson?_name (op : UnaryOp) : ofJson? (.str op.name) = some op := by
  cases op <;> decide

theorem BinaryOp.ofJson?_name (op : BinaryOp) : ofJson? (.str op.name) = some op := by
  cases op <;> decide

theorem NormOrder.ofJson?_name (order : NormOrder) : ofJson? (.str order.name) = some order := by
  cases order <;> decide

theorem Op.ofJson?_toJson {op : Op} (h : op.Fits) : ofJson? op.toJson = some op := by
  cases op with
  | binary op =>
    show (BinaryOp.ofJson? (.str op.name)).bind (fun op => some (binary op)) = _
    rw [BinaryOp.ofJson?_name, Option.bind_some]
  | unary op =>
    show (UnaryOp.ofJson? (.str op.name)).bind (fun op => some (unary op)) = _
    rw [UnaryOp.ofJson?_name, Option.bind_some]
  | cast d =>
    show (DType.ofJson? d.toJson).bind (fun d => some (cast d)) = _
    rw [DType.ofJson?_toJson, Option.bind_some]
  | slice s =>
    show (Selection.ofJson? s.toJson).bind (fun s => some (slice s)) = _
    rw [Selection.ofJson?_toJson h, Option.bind_some]
  | concat axis =>
    have hconcat (j : Json) : ofJson? (.tagged "Concat" (.obj [("axis", j)])) =
        j.nat?.bind fun axis => some (concat axis) := rfl
    rw [toJson, hconcat, Json.nat?_int h, Option.bind_some]
  | norm order =>
    show (NormOrder.ofJson? (.str order.name)).bind (fun order => some (norm order)) = _
    rw [NormOrder.ofJson?_name, Option.bind_some]
  | _ => rfl

/-! ## Elements and tensors -/

theorem inInt64_toInt (x : Int64) : InInt64 x.toInt := ⟨x.minValue_le_toInt, x.toInt_le⟩

/-- Exactly the finite elements are read back. -/
theorem DType.elemOfJson?_elemToJson (d : DType) (x : d.Elem) :
    d.elemOfJson? (d.elemToJson x) = if d.isFinite x then some x else none := by
  cases d with
  | f64 =>
    rw [elemToJson, isFinite]
    split
    · rfl
    · rfl
  | f32 =>
    rw [elemToJson, isFinite]
    split
    · rename_i hx
      show some (narrow (widen x)) = some x
      rw [narrow_widen hx]
    · rfl
  | i64 =>
    show (Json.int x.toInt).int64?.map Int64.ofInt = some x
    rw [Json.int64?_int (inInt64_toInt x), Option.map_some, Int64.ofInt_toInt]
  | bool => rfl

theorem Tensor.ofJson?_tagged (d : DType) (dim data : Json) :
    ofJson? (.tagged d.tag
        (.obj [("v", .int formatVersion), ("dim", dim), ("data", data)])) =
      (dim.list? Json.nat?).bind fun shape => (data.list? d.elemOfJson?).bind fun elems =>
        (ofList d shape elems).toOption := by
  cases d <;> rfl

theorem Shape.size_eq_prod (s : Shape) : s.size = s.prod := by
  induction s with
  | nil => rfl
  | cons d s ih => rw [size_cons, List.prod_cons, ih]

/-- No axis of an addressable array is too long. -/
theorem Shape.inWord_of_addressable {s : Shape} (h : s.addressable = true) {d : Nat}
    (hd : d ∈ s) : InWord d := by
  rw [addressable, decide_eq_true_eq, size_eq_prod] at h
  rcases Nat.eq_zero_or_pos d with rfl | hpos
  · exact Nat.two_pow_pos 64
  · have hmem : d ∈ s.filter (· ≠ 0) := by simp [hd, Nat.pos_iff_ne_zero.1 hpos]
    have hone : ∀ d ∈ s.filter (· ≠ 0), 1 ≤ d := fun d hd =>
      Nat.pos_iff_ne_zero.2 (by simpa using (List.mem_filter.1 hd).2)
    have hle : d ≤ maxSize := Nat.le_trans (List.single_le_prod hone d hmem) h
    exact Nat.lt_of_le_of_lt hle (by decide)

/-- Exactly the finite tensors are read back. -/
theorem Tensor.ofJson?_toJson {t : Tensor} (h : t.Fits) :
    ofJson? t.toJson = if t.isFinite then some t else none := by
  have hlist : ofList t.dtype t.shape t.array.data = .ok t := by
    rw [ofList, NDArray.ofList, if_pos (show t.shape.addressable = true from h),
      dif_pos (show t.array.data.length = t.shape.size from t.array.length_data)]
    rfl
  rw [toJson, ofJson?_tagged, Json.list?_nats fun d => Shape.inWord_of_addressable h,
    Option.bind_some, Json.list?_arr_map fun x _ => t.dtype.elemOfJson?_elemToJson x, isFinite]
  split
  · rw [Option.bind_some, hlist]
    rfl
  · rfl

/-! ## Nodes -/

theorem NodeKind.ofJson?_mutation (target selection value : Json) :
    ofJson? (.tagged "Mutation" (.obj
        [("target", target), ("index", selection), ("value", value)])) =
      (NodeId.ofJson? target).bind fun target => (Selection.ofJson? selection).bind fun selection =>
        (NodeId.ofJson? value).bind fun value => some (assign target selection value) := rfl

theorem NodeKind.ofJson?_toJson {k : NodeKind} (h : k.Fits) :
    ofJson? k.toJson = if k.isFinite then some k else none := by
  cases k with
  | placeholder => rfl
  | state value =>
    show (Tensor.ofJson? value.toJson).bind (fun value => some (state value)) = _
    rw [Tensor.ofJson?_toJson h, isFinite]
    split <;> rfl
  | constant value =>
    show (Tensor.ofJson? value.toJson).bind (fun value => some (constant value)) = _
    rw [Tensor.ofJson?_toJson h, isFinite]
    split <;> rfl
  | apply op inputs =>
    show (Op.ofJson? op.toJson).bind (fun op =>
      ((NodeId.listToJson inputs).list? NodeId.ofJson?).bind fun inputs =>
        some (apply op inputs)) = _
    rw [Op.ofJson?_toJson h.1, NodeId.list?_listToJson h.2]
    rfl
  | assign target selection value =>
    rw [toJson, ofJson?_mutation, NodeId.ofJson?_toJson h.1, Selection.ofJson?_toJson h.2.1,
      NodeId.ofJson?_toJson h.2.2]
    rfl

theorem Node.ofJson?_obj (id name type kind : Json) :
    ofJson? (.obj [("id", id), ("name", name), ("info", type), ("kind", kind)]) =
      (NodeId.ofJson? id).bind fun id => name.str?.bind fun name =>
        (TensorType.ofJson? type).bind fun type => (NodeKind.ofJson? kind).bind fun kind =>
          some ⟨id, name, type, kind⟩ := rfl

/-- Exactly the nodes with finite data are read back. -/
theorem Node.ofJson?_toJson {n : Node} (h : n.Fits) :
    ofJson? n.toJson = if n.isFinite then some n else none := by
  rw [toJson, ofJson?_obj, NodeId.ofJson?_toJson h.id, TensorType.ofJson?_toJson h.type,
    NodeKind.ofJson?_toJson h.kind, isFinite]
  cases n.kind.isFinite <;> rfl

end ArrayTrace
