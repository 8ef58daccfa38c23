import ArrayTrace.Diagram
import ArrayTrace.Machine
import ArrayTrace.Program.Equality
import ArrayTrace.Proofs.CallingConvention
import ArrayTrace.Proofs.Containment
import ArrayTrace.Proofs.Representation
import ArrayTrace.Proofs.Soundness
import ArrayTrace.Proofs.Totality
import ArrayTrace.Serial.Program
import ArrayTrace.Tensor.Display
import ArrayTrace.Proofs.Declarations
import ArrayTrace.Proofs.Stability
import ArrayTrace.Proofs.Scoping
import ArrayTrace.Proofs.Widening
import ArrayTrace.Proofs.Encoding
import ArrayTrace.Proofs.Serialization
import ArrayTrace.Proofs.Renaming
import ArrayTrace.Proofs.RenamedPrograms
import ArrayTrace.Proofs.Replay
import ArrayTrace.Proofs.Frames
import ArrayTrace.Proofs.Precedence
import ArrayTrace.Proofs.Regrouping
import ArrayTrace.Proofs.IntegerKernels
import ArrayTrace.Proofs.Relocation
import ArrayTrace.Proofs.Lenses
import ArrayTrace.Proofs.Preference
import ArrayTrace.Proofs.CommonShapes
import ArrayTrace.Proofs.Splitting
import ArrayTrace.Proofs.Resolution
import ArrayTrace.Proofs.FreshNames
import ArrayTrace.Proofs.Tables
import ArrayTrace.Proofs.IntegerAlgebra
import ArrayTrace.Proofs.Overlaps
import ArrayTrace.Proofs.Remainders
import ArrayTrace.Proofs.Products
