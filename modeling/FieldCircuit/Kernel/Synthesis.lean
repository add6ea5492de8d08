import FieldCircuit.Kernel.Synthesis.Convolution
import FieldCircuit.Kernel.Synthesis.Correlation
import FieldCircuit.Kernel.Synthesis.Fourier
import FieldCircuit.Kernel.Synthesis.Pointwise
import FieldCircuit.Kernel.Synthesis.Reduction
import FieldCircuit.Kernel.Synthesis.TensorSum
import FieldCircuit.Plan.Key

/-!
# Synthesis

From an opcode and the types of its operands to an operation. Point operations, tensor sums and
convolutions are built at once. The others are described by a recipe, because their operations are
worth sharing: a recipe has a key, under which the operation may be kept, and can be built.
-/

namespace FieldCircuit

/-- An accepted request for an operation that is worth sharing. -/
inductive Recipe
  | reduction (op : ReduceOp) (input output : FieldType)
  | correlation (size : Nat) (image gradient output : FieldType)
  | transform (direction : Direction) (fieldType : FieldType)
  deriving DecidableEq

namespace Recipe

def key (caps : Capabilities) : Recipe → PlanKey
  | reduction op input _ => ⟨.fieldReduce op, input, 0, caps⟩
  | correlation size image _ _ => ⟨.filterAdjoint, image, size, caps⟩
  | transform direction t => ⟨.fft direction, t, 0, caps⟩

def build (caps : Capabilities) : Recipe → Except KernelError Operation
  | reduction op input output => Synthesis.Reduction.build op input output caps
  | correlation size image gradient output =>
    Synthesis.Correlation.build size image gradient output caps
  | transform direction t => Synthesis.Fourier.build direction t caps

end Recipe

namespace Synthesis

def outputType (o : Opcode) (inputs : List FieldType) : Except KernelError FieldType :=
  match o with
  | .unary _ | .scale _ | .offset _ | .binary _ | .complexBinary _ => Pointwise.outputType o inputs
  | .tensorReduce => TensorSum.outputType inputs
  | .convolve _ => Convolution.outputType inputs
  | .fieldReduce _ => Reduction.outputType inputs
  | .filterAdjoint size => Correlation.outputType size inputs
  | .fft _ => Fourier.outputType inputs
  | .constant | .sensor _ | .actuator _ | .host _ | .recurrence => .error (.hostOperation o.family)

/-- What remains to be done for a request. -/
inductive Request
  | built (operation : Operation)
  | planned (recipe : Recipe)

/-- Builds an operation that is not worth sharing, and checks the request for one that is. -/
def prepare (o : Opcode) (inputs : List FieldType) (caps : Capabilities) :
    Except KernelError Request :=
  match o with
  | .unary _ | .scale _ | .offset _ | .binary _ | .complexBinary _ =>
    .built <$> Pointwise.synthesize o inputs caps
  | .tensorReduce => .built <$> TensorSum.synthesize inputs caps
  | .convolve border => .built <$> Convolution.synthesize border inputs caps
  | .fieldReduce op => do
    let output ← Reduction.outputType inputs
    let input ← (fetch inputs.toArray 0 : Except KernelError FieldType)
    return .planned (.reduction op input output)
  | .filterAdjoint size => do
    let output ← Correlation.outputType size inputs
    let image ← (fetch inputs.toArray 0 : Except KernelError FieldType)
    let gradient ← (fetch inputs.toArray 1 : Except KernelError FieldType)
    return .planned (.correlation size image gradient output)
  | .fft direction => do
    let output ← Fourier.outputType inputs
    return .planned (.transform direction output)
  | .constant | .sensor _ | .actuator _ | .host _ | .recurrence => .error (.hostOperation o.family)

/-- The kernels of an operation on operands of these types, shared with nobody. -/
def synthesize (o : Opcode) (inputs : List FieldType) (caps : Capabilities) :
    Except KernelError Operation := do
  match ← prepare o inputs caps with
  | .built operation => return operation
  | .planned recipe => recipe.build caps

end Synthesis

end FieldCircuit
