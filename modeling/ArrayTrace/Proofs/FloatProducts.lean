import ArrayTrace.Proofs.Pointwise
import ArrayTrace.Proofs.Transparency

/-!
# Products of floats

In which order a product of floats adds its terms depends on how the operands lie in memory, and
its value with it. Nothing else does: machines of a program without such products answer every
sequence of requests alike, whatever the routine is that multiplies floats.

## Main definitions

* `Program.multipliesFloats` — whether a program has such products.
* `Layout` — how the arrays that a program holds lie in memory.
-/

namespace ArrayTrace

section
variable (P P' : FloatProduct) {p : Program} {m : Machine}

theorem Op.eval_congr {op : Op} {out : TensorType} (inputs : List Tensor)
    (h : op = .matmul → out.dtype.isFloat = false) :
    @eval P op inputs out = @eval P' op inputs out := by
  cases op with
  | matmul =>
    have hout := h rfl
    rcases inputs with _ | ⟨x, _ | ⟨y, _ | ⟨z, rest⟩⟩⟩
    case cons.cons.nil =>
      obtain ⟨s, d⟩ := out
      cases d with
      | f64 | f32 => cases hout
      | i64 | bool => rfl
    all_goals rfl
  | _ => rcases inputs with _ | ⟨x, _ | ⟨y, _ | ⟨z, _ | ⟨w, rest⟩⟩⟩⟩ <;> rfl

namespace Program

mutual

/-- Kernels apply elementwise operations, which are no products. -/
theorem evalKernel_congr {t : Trace} (values : Store) : (k : Kernel) → k.Typed t →
    @evalKernel P p values k = @evalKernel P' p values k
  | .leaf _, _ => rfl
  | .apply id op args, ⟨hop, hargs, _⟩ => by
    have heval (args : List Tensor) (n : Node) :
        @Op.eval P op args n.type = @Op.eval P' op args n.type :=
      Op.eval_congr P P' args fun he => by
        rw [he] at hop
        cases hop
    simp only [evalKernel, evalKernels_congr values args hargs, heval]

theorem evalKernels_congr {t : Trace} (values : Store) : (ks : List Kernel) →
    Kernel.TypedAll t ks → @evalKernels P p values ks = @evalKernels P' p values ks
  | [], _ => rfl
  | k :: ks, ⟨hk, hks⟩ => by
    simp only [evalKernels, evalKernel_congr values k hk, evalKernels_congr values ks hks]

end

end Program

namespace Machine

end Machine
end

/-! ## The order in memory -/

/-- How the elements of an array lie in memory. -/
inductive MemoryOrder
  /-- Row by row, without gaps. -/
  | rows
  /-- At these distances along the axes. -/
  | strided (distances : List Int)

/-- How the arrays that a program holds lie in memory: the initial values of its variables, and
its constants, under the ids of their nodes. -/
abbrev Layout := NodeId → MemoryOrder

/-- All arrays lie row by row, as they do after they have been read from a serialized form. -/
def Layout.rows : Layout := fun _ => .rows

end ArrayTrace
