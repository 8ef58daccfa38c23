import ArrayTrace.Proofs.Encoding
import ArrayTrace.Proofs.FloatProducts
import ArrayTrace.Proofs.Nesting
import ArrayTrace.Proofs.Totality

/-!
# Programs survive being serialized

A compiled program is read back from its serialized form exactly when the initial values of its
variables and its constants are finite, and then it is the program itself. A text of it is refused
moreover where it is nested too deeply, which kernels of many levels are. What the form does not
keep is how arrays lie in memory, on which products of floats depend.
-/

namespace ArrayTrace

/-! ## Kernels -/

namespace Kernel

mutual

/-- Whether everything that a kernel holds fits. -/
def Fits : Kernel → Prop
  | leaf id => id.Fits
  | apply node op args => node.Fits ∧ op.Fits ∧ FitAll args

/-- Whether everything that a list of kernels holds fits. -/
def FitAll : List Kernel → Prop
  | [] => True
  | k :: ks => k.Fits ∧ FitAll ks

end

theorem fitAll_iff {ks : List Kernel} : FitAll ks ↔ ∀ k ∈ ks, k.Fits := by
  induction ks with
  | nil => simp [FitAll]
  | cons k ks ih => rw [FitAll, ih, List.forall_mem_cons]

theorem ofJsonWithin?_leaf (depth : Nat) (id : Json) :
    ofJsonWithin? (depth + 1) (.tagged "Leaf" id) =
      (NodeId.ofJson? id).bind fun id => some (leaf id) := rfl

theorem ofJsonWithin?_apply (depth : Nat) (node op args : Json) :
    ofJsonWithin? (depth + 1) (.tagged "Op" (.obj [("node", node), ("op", op), ("args", args)])) =
      (NodeId.ofJson? node).bind fun node => (Op.ofJson? op).bind fun op =>
        (args.list? (ofJsonWithin? depth)).bind fun args => some (apply node op args) := rfl

mutual

/-- A kernel is read back within any depth that exceeds its own. -/
theorem ofJsonWithin?_toJson : (k : Kernel) → k.Fits → (depth : Nat) → k.toJson.depth < depth →
    ofJsonWithin? depth k.toJson = some k
  | _, _, 0, hdepth => absurd hdepth (Nat.not_lt_zero _)
  | leaf id, hid, depth + 1, _ => by
    rw [toJson, ofJsonWithin?_leaf, NodeId.ofJson?_toJson hid, Option.bind_some]
  | apply node op args, ⟨hnode, hop, hargs⟩, depth + 1, hdepth => by
    have hlt : Json.depthItems (listToJson args) < depth := by
      simp only [toJson, Json.tagged, Json.depth, Json.depthFields] at hdepth
      omega
    rw [toJson, ofJsonWithin?_apply, NodeId.ofJson?_toJson hnode, Op.ofJson?_toJson hop,
      list?_listToJson args hargs depth hlt]
    rfl

theorem list?_listToJson : (ks : List Kernel) → FitAll ks → (depth : Nat) →
    Json.depthItems (listToJson ks) < depth →
    (Json.arr (listToJson ks)).list? (ofJsonWithin? depth) = some ks
  | [], _, _, _ => rfl
  | k :: ks, ⟨hk, hks⟩, depth, hdepth => by
    rw [listToJson, Json.depthItems, Nat.max_lt] at hdepth
    have hrest : (listToJson ks).mapM (ofJsonWithin? depth) = some ks :=
      list?_listToJson ks hks depth hdepth.2
    show (k.toJson :: listToJson ks).mapM (ofJsonWithin? depth) = _
    rw [List.mapM_cons, ofJsonWithin?_toJson k hk depth hdepth.1, hrest]
    rfl

end

theorem ofJson?_toJson {k : Kernel} (h : k.Fits) : ofJson? k.toJson = some k :=
  ofJsonWithin?_toJson k h _ (Nat.lt_succ_self _)

end Kernel

/-! ## Plans -/

/-- Whether everything that a step holds fits. -/
def Step.Fits : Step → Prop
  | single id => id.Fits
  | fused root kernel => root.Fits ∧ kernel.Fits

theorem Step.ofJson?_toJson {s : Step} (h : s.Fits) : ofJson? s.toJson = some s := by
  cases s with
  | single id =>
    have hsingle (id : Json) : ofJson? (.tagged "Node" id) =
        (NodeId.ofJson? id).bind fun id => some (single id) := rfl
    rw [toJson, hsingle, NodeId.ofJson?_toJson h, Option.bind_some]
  | fused root kernel =>
    have hfused (root kernel : Json) :
        ofJson? (.tagged "Fused" (.obj [("root", root), ("tree", kernel)])) =
          (NodeId.ofJson? root).bind fun root => (Kernel.ofJson? kernel).bind fun kernel =>
            some (fused root kernel) := rfl
    rw [toJson, hfused, NodeId.ofJson?_toJson h.1, Kernel.ofJson?_toJson h.2]
    rfl

/-- Whether everything that a plan holds fits. -/
structure Plan.Fits (p : Plan) : Prop where
  steps : ∀ s ∈ p.steps, s.Fits
  outputs : ∀ id ∈ p.outputs, id.Fits

theorem Plan.ofJson?_obj (steps outputs : Json) :
    ofJson? (.obj [("items", steps), ("outputs", outputs)]) =
      (steps.list? Step.ofJson?).bind fun steps => (outputs.list? NodeId.ofJson?).bind
        fun outputs => some ⟨steps, outputs⟩ := rfl

theorem Plan.ofJson?_toJson {p : Plan} (h : p.Fits) : ofJson? p.toJson = some p := by
  rw [toJson, ofJson?_obj, NodeId.list?_listToJson h.outputs,
    Json.list?_arr_map_of_forall fun s hs => Step.ofJson?_toJson (h.steps s hs)]
  rfl

/-! ## Units -/

theorem ArrayDecl.ofJson?_obj (name shape dtype : Json) :
    ofJson? (.obj [("name", name), ("shape", shape), ("dtype", dtype)]) =
      name.str?.bind fun name => (shape.list? Json.nat?).bind fun shape =>
        (DType.ofJson? dtype).bind fun dtype => some ⟨name, shape, dtype⟩ := rfl

theorem ArrayDecl.ofJson?_toJson {d : ArrayDecl} (h : d.type.Fits) :
    ofJson? d.toJson = some d := by
  rw [toJson, ofJson?_obj, Json.list?_nats h, DType.ofJson?_toJson]
  rfl

/-- Whether the lengths of the axes of all arrays fit. -/
structure Signature.Fits (s : Signature) : Prop where
  parameters : ∀ d ∈ s.parameters, d.type.Fits
  outputs : ∀ d ∈ s.outputs, d.type.Fits
  states : ∀ d ∈ s.states, d.type.Fits

theorem Signature.ofJson?_obj (unitName parameters outputs states : Json) :
    ofJson? (.obj [("unit_name", unitName), ("parameters", parameters), ("outputs", outputs),
        ("variables", states)]) =
      unitName.str?.bind fun unitName => (parameters.list? ArrayDecl.ofJson?).bind
        fun parameters => (outputs.list? ArrayDecl.ofJson?).bind fun outputs =>
          (states.list? ArrayDecl.ofJson?).bind fun states =>
            some ⟨unitName, parameters, outputs, states⟩ := rfl

theorem Signature.ofJson?_toJson {s : Signature} (h : s.Fits) : ofJson? s.toJson = some s := by
  have hdecls {ds : List ArrayDecl} (hds : ∀ d ∈ ds, d.type.Fits) :
      (Json.arr (ds.map ArrayDecl.toJson)).list? ArrayDecl.ofJson? = some ds :=
    Json.list?_arr_map_of_forall fun d hd => ArrayDecl.ofJson?_toJson (hds d hd)
  rw [toJson, ofJson?_obj, hdecls h.parameters, hdecls h.outputs, hdecls h.states]
  rfl

theorem EmittedUnit.ofJson?_toJson {u : EmittedUnit} (h : u.signature.Fits) :
    ofJson? u.toJson = some u := by
  have hobj (source signature : Json) :
      ofJson? (.obj [("source", source), ("signature", signature)]) =
        source.str?.bind fun source => (Signature.ofJson? signature).bind fun signature =>
          some ⟨source, signature⟩ := rfl
  rw [toJson, hobj, Signature.ofJson?_toJson h]
  rfl

/-! ## Programs -/

/-- Whether everything that a program holds fits. -/
structure Program.Fits (p : Program) : Prop where
  nodes : ∀ n ∈ p.nodes, n.Fits
  plan : p.plan.Fits
  signature : p.signature.Fits

theorem Program.ofJson?_obj (nodes plan unit : Json) :
    ofJson? (.obj [("nodes", nodes), ("schedule", plan), ("module", unit)]) =
      (nodes.list? Node.ofJson?).bind fun nodes => (Plan.ofJson? plan).bind fun plan =>
        (EmittedUnit.ofJson? unit).bind fun unit => some ⟨nodes, plan, unit⟩ := rfl

/-- Exactly the programs with finite data are read back. -/
theorem Program.ofJson?_toJson {p : Program} (h : p.Fits) :
    ofJson? p.toJson = if p.nodes.all Node.isFinite then some p else none := by
  rw [toJson, ofJson?_obj, Plan.ofJson?_toJson h.plan, EmittedUnit.ofJson?_toJson h.signature,
    Json.list?_arr_map fun n hn => Node.ofJson?_toJson (h.nodes n hn)]
  cases p.nodes.all Node.isFinite <;> rfl

namespace Trace
variable {t : Trace} {s : Schedule} {p : Program} {outputs : List NodeId}
  {options : CompileOptions}

/-- Whether everything that the nodes of a trace hold fits. -/
def Fits (t : Trace) : Prop := ∀ n ∈ t.nodes, n.Fits

instance (t : Trace) : Decidable t.Fits := inferInstanceAs (Decidable (∀ n ∈ t.nodes, n.Fits))

theorem Fits.id (hfits : t.Fits) (ht : t.WellFormed) {id : NodeId} (h : t.contains id = true) :
    id.Fits := by
  obtain ⟨n, hn⟩ := exists_node_of_contains h
  exact ht.id_of_node? hn ▸ (hfits n (mem_of_node? hn)).id

/-- The induction is on the depth to which merged inputs are expanded. -/
theorem Fits.kernel (hfits : t.Fits) (merged : List NodeId) (depth : Nat) {id : NodeId}
    (hid : id.Fits) : (t.kernel merged depth id).Fits := by
  induction depth generalizing id with
  | zero => exact hid
  | succ depth ih =>
    rw [Trace.kernel]
    split
    · rename_i op inputs hkind
      obtain ⟨n, hn, hk⟩ := Option.map_eq_some_iff.1 hkind
      have hkind := (hfits n (mem_of_node? hn)).kind
      rw [hk] at hkind
      refine ⟨hid, hkind.1, Kernel.fitAll_iff.2 fun k hk => ?_⟩
      obtain ⟨i, hi, rfl⟩ := List.mem_map.1 hk
      split
      · exact ih (hkind.2 i hi)
      · exact hkind.2 i hi
    · exact hid

theorem Fits.planOf (hfits : t.Fits) (ht : t.WellFormed) (hs : t.Scheduled s) (fuse : Bool) :
    (t.planOf s fuse).Fits := by
  have hid {id : NodeId} (h : id ∈ s.nodes) : id.Fits := hfits.id ht (hs.known h)
  cases fuse with
  | false =>
    refine ⟨fun step hstep => ?_, fun id h => hid (hs.output_mem h)⟩
    obtain ⟨id, h, rfl⟩ := List.mem_map.1 hstep
    exact hid h
  | true =>
    refine ⟨fun step hstep => ?_, fun id h => hid (hs.output_mem h)⟩
    obtain ⟨id, h, rfl⟩ := List.mem_map.1 hstep
    have h := hid (List.mem_filter.1 h).1
    split
    · exact ⟨h, hfits.kernel _ _ h⟩
    · exact h

/-- A program compiled from a trace that fits does so too. -/
theorem Fits.program (hfits : t.Fits) (ht : t.WellFormed) (hs : t.Scheduled s)
    (hp : t.Compiled s options p) : p.Fits := by
  have hdecl {ids : List NodeId} {keep : Node → Bool} :
      ∀ d ∈ ((t.nodesAt ids).filter keep).map Node.decl, d.type.Fits := fun d hd => by
    obtain ⟨n, hn, rfl⟩ := List.mem_map.1 hd
    exact (hfits n (ht.mem_nodesAt.1 (List.mem_filter.1 hn).1).1).type
  refine ⟨fun n hn => hfits n (hp.mem_trace ht n hn), hp.plan_eq ▸ hfits.planOf ht hs _, ?_⟩
  rw [hp.signature_eq]
  refine ⟨fun d hd => ?_, fun d hd => ?_, hdecl⟩
  · obtain ⟨n, hn, rfl⟩ := List.mem_map.1 hd
    exact (hfits n (ht.mem_passed.1 hn).1).type
  · obtain ⟨n, hn, rfl⟩ := List.mem_map.1 hd
    exact (hfits n (ht.mem_nodesAt.1 hn).1).type

end Trace

end ArrayTrace
