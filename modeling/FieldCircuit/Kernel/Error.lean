import FieldCircuit.Field.Type
import FieldCircuit.Memory.Error
import FieldCircuit.Opcode.Text

/-!
# Errors of kernels

Everything that can go wrong while a kernel is planned, synthesized or launched, each as its cause,
and the one place where causes are put into words.
-/

namespace FieldCircuit

inductive Slot
  | input (index : Nat)
  | output (index : Nat)
  /-- A buffer that belongs to the operation and is shared by its stages. -/
  | intermediate (index : Nat)
  deriving DecidableEq, Repr

def Slot.render : Slot → String
  | input i => s!"Input({i})"
  | output i => s!"Output({i})"
  | intermediate i => s!"Intermediate({i})"

def Slot.name : Slot → String
  | input i => s!"input{i}"
  | output i => s!"output{i}"
  | intermediate i => s!"intermediate{i}"

inductive Mismatch
  | uncovered (input output : FieldType)
  | notPointwise (opcode : Opcode)
  | notComplex (op : BinaryOp)
  | operands (first second : FieldType)
  | gradient (image gradient : FieldType)
  deriving DecidableEq

def Mismatch.message : Mismatch → String
  | uncovered i o => s!"input {i.render} does not cover output {o.render}"
  | notPointwise o => s!"{o.render} is not a point operation"
  | notComplex op => s!"{op.name} is not defined on complex values"
  | operands a b => s!"{a.render} vs {b.render}"
  | gradient i g => s!"image {i.render} vs gradient {g.render}"

inductive Requirement
  | planarScalar
  | oddExtents
  | oddSize (size : Nat)
  | linearScalar
  | atLeastTwo
  deriving DecidableEq, Repr

def Requirement.message : Requirement → String
  | planarScalar => "expected a 2-D scalar field"
  | oddExtents => "kernel extents must be odd"
  | oddSize size => s!"filter size {size} must be odd"
  | linearScalar => "expected a 1-D or 2-D scalar field"
  | atLeastTwo => "transform length must be at least 2"

inductive LaunchProblem
  | unbound (slot : Slot)
  | wrongLength (argument : String) (expected actual : Nat)
  | intermediateCount (expected actual : Nat)
  deriving DecidableEq, Repr

def LaunchProblem.message : LaunchProblem → String
  | unbound slot => s!"no buffer bound for {slot.render}"
  | wrongLength argument expected actual =>
    s!"{argument} expects {expected} words, bound buffer has {actual}"
  | intermediateCount expected actual => s!"expects {expected} intermediates, got {actual}"

inductive KernelError
  | shapeMismatch (operation : String) (cause : Mismatch)
  | operandCount (operation : String) (expected actual : Nat)
  | unsupportedElement (operation : String) (element : Element)
  | unsupportedShape (operation : String) (fieldType : FieldType) (required : Requirement)
  | localMemoryExhausted (operation : String) (required available : Nat)
  | unresolvedPlaceholder (name : String)
  | notPowerOfTwo (operation : String) (extent : Nat)
  | hostOperation (operation : String)
  | unknownOpcode (text : String)
  | launch (kernel : String) (problem : LaunchProblem)
  | device (cause : DeviceError)
  | fieldType (cause : FieldError)
  | fault (cause : Fault)
  deriving DecidableEq

def KernelError.isFault : KernelError → Bool
  | fault _ => true
  | device cause => cause.isFault
  | _ => false

/-- A word for the cause of an error; causes from other parts of the library have two. -/
def KernelError.label : KernelError → String
  | shapeMismatch .. => "ShapeMismatch"
  | operandCount .. => "OperandCount"
  | unsupportedElement .. => "UnsupportedElement"
  | unsupportedShape .. => "UnsupportedShape"
  | localMemoryExhausted .. => "LocalMemoryExhausted"
  | unresolvedPlaceholder _ => "UnresolvedPlaceholder"
  | notPowerOfTwo .. => "NotPowerOfTwo"
  | hostOperation _ => "HostOperation"
  | unknownOpcode _ => "UnknownOpcode"
  | launch .. => "Launch"
  | device cause => "Device." ++ cause.label
  | fieldType cause => "FieldType." ++ cause.label
  | fault _ => "Fault"

def KernelError.message : KernelError → String
  | shapeMismatch operation cause => s!"{operation}: shape mismatch: {cause.message}"
  | operandCount operation expected actual =>
    s!"{operation} expects {expected} operands, got {actual}"
  | unsupportedElement operation element => s!"{operation} does not accept {element.name} fields"
  | unsupportedShape operation t required =>
    s!"{operation} does not accept {t.render}: {required.message}"
  | localMemoryExhausted operation required available =>
    s!"{operation}: local memory exhausted, need {required} bytes, device has {available}"
  | unresolvedPlaceholder name => s!"unresolved template placeholder %{name}%"
  | notPowerOfTwo operation extent => s!"{operation}: extent {extent} is not a power of two"
  | hostOperation operation =>
    s!"{operation} is a host-side operation and cannot be synthesized"
  | unknownOpcode text => s!"unknown opcode {text}"
  | launch kernel problem => s!"kernel {kernel}: {problem.message}"
  | device cause => s!"Device error: {cause.message}"
  | fieldType cause => s!"Invalid field type: {cause.message}"
  | fault _ => "fault"

instance : MonadLift (Except Fault) (Except KernelError) where
  monadLift x := x.mapError .fault

instance : MonadLift (Except FieldError) (Except KernelError) where
  monadLift x := x.mapError .fieldType

/-- Reads an opcode, or says which text is not one. -/
def Opcode.parse (text : String) : Except KernelError Opcode :=
  match Opcode.parse? text with
  | some o => .ok o
  | none => .error (.unknownOpcode text)

end FieldCircuit
