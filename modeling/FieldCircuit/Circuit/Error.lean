import FieldCircuit.Checkpoint.Version
import FieldCircuit.Kernel.Error

/-!
# Errors of circuits

Everything that can go wrong while a circuit is built, run, stored or restored.
-/

namespace FieldCircuit

/-- Kernels of a circuit are known by their position in the order in which they were added. -/
abbrev KernelId := Nat

abbrev RegisterId := Nat

def kernelLabel (id : KernelId) : String := s!"k{id}"

def registerLabel (id : RegisterId) : String := s!"r{id}"

inductive FieldKind
  | integer
  | text
  | words
  | versionNumber
  | extents
  | element
  deriving DecidableEq, Repr

def FieldKind.render : FieldKind → String
  | integer => "an integer"
  | text => "a string"
  | words => "a float array"
  | versionNumber => "a version number"
  | extents => "a list of extents"
  | element => "an element kind"

inductive CircuitError
  | kernel (cause : KernelError)
  | device (cause : DeviceError)
  | fieldType (cause : FieldError)
  /-- Parameters were stored by a newer version. -/
  | incompatibleVersion (kernel : String) (version stored : Version)
  | missingBinding (register : String)
  | duplicateBinding (register : String)
  | notARecurrence (register : String)
  | recurrenceType (register : String) (expected actual : FieldType)
  | selfBinding (register : String)
  | unknownRegister (id : RegisterId)
  /-- Somebody holds the register. -/
  | registerInUse (id : RegisterId)
  | unknownKernel (id : KernelId)
  | unknownTag (tag : String)
  | missingField (name : String)
  | fieldKind (name : String) (expected : FieldKind)
  /-- This many kernels are on a cycle or behind one. -/
  | cycle (remaining : Nat)
  | valueCount (register : String) (expected actual : Nat)
  | notCopyable (kernel : String)
  /-- A step before the first reset. -/
  | notReset
  | fault (cause : Fault)
  deriving DecidableEq

def CircuitError.isFault : CircuitError → Bool
  | fault _ => true
  | kernel cause => cause.isFault
  | device cause => cause.isFault
  | _ => false

/-- A word for the cause of an error; causes from other parts of the library have several. -/
def CircuitError.label : CircuitError → String
  | kernel cause => "Codegen." ++ cause.label
  | device cause => "Device." ++ cause.label
  | fieldType cause => "FieldType." ++ cause.label
  | incompatibleVersion .. => "IncompatibleVersion"
  | missingBinding _ => "MissingBinding"
  | duplicateBinding _ => "DuplicateBinding"
  | notARecurrence _ => "NotARecurrence"
  | recurrenceType .. => "RecurrenceType"
  | selfBinding _ => "SelfBinding"
  | unknownRegister _ => "UnknownRegister"
  | registerInUse _ => "RegisterInUse"
  | unknownKernel _ => "UnknownKernel"
  | unknownTag _ => "UnknownTag"
  | missingField _ => "MissingField"
  | fieldKind .. => "FieldKind"
  | cycle _ => "Cycle"
  | valueCount .. => "ValueCount"
  | notCopyable _ => "NotCopyable"
  | notReset => "NotReset"
  | fault _ => "Fault"

def CircuitError.message : CircuitError → String
  | kernel cause => s!"codegen error: {cause.message}"
  | device cause => s!"device error: {cause.message}"
  | fieldType cause => s!"field type error: {cause.message}"
  | incompatibleVersion name version stored =>
    s!"kernel {name} version {version.render} cannot restore parameters stored by version {stored.render}"
  | missingBinding register => s!"recurrence {register} has no driver at reset"
  | duplicateBinding register => s!"recurrence {register} is already bound"
  | notARecurrence register => s!"{register} is not a recurrence"
  | recurrenceType register expected actual =>
    s!"recurrence {register} is {expected.render}, driver is {actual.render}"
  | selfBinding register => s!"recurrence {register} cannot drive itself"
  | unknownRegister id => s!"unknown register {registerLabel id}"
  | registerInUse id => s!"register {registerLabel id} is in use"
  | unknownKernel id => s!"unknown kernel {kernelLabel id}"
  | unknownTag tag => s!"no restore constructor registered for tag {tag}"
  | missingField name => s!"checkpoint has no field {name}"
  | fieldKind name expected => s!"checkpoint field {name} is not {expected.render}"
  | cycle remaining => s!"kernel circuit has a cycle through {remaining} kernels"
  | valueCount register expected actual => s!"{register} expects {expected} values, got {actual}"
  | notCopyable name => s!"kernel {name} cannot be copied"
  | notReset => "scheduler must be reset before stepping"
  | fault _ => "fault"

instance : MonadLift (Except Fault) (Except CircuitError) where
  monadLift x := x.mapError .fault

instance : MonadLift (Except FieldError) (Except CircuitError) where
  monadLift x := x.mapError .fieldType

instance : MonadLift (Except DeviceError) (Except CircuitError) where
  monadLift x := x.mapError .device

instance : MonadLift (Except KernelError) (Except CircuitError) where
  monadLift x := x.mapError .kernel

/-- Succeeds unless parameters of the stored version are too new for a kernel of this version. -/
def Version.check (v stored : Version) (kernel : String) : Except CircuitError Unit :=
  if v.accepts stored then .ok () else .error (.incompatibleVersion kernel v stored)

end FieldCircuit
