import FieldCircuit.Size

/-!
# Sides, accesses and memory errors

Memory lies on one of two sides, and a kernel reaches it by reading or by writing. Everything that
can go wrong with memory and devices is a `DeviceError`.
-/

namespace FieldCircuit

/-- The side of the boundary between host and accelerator that memory lies on. -/
inductive Side
  | host
  | accelerator
  deriving DecidableEq, Repr

def Side.name : Side → String
  | host => "Host"
  | accelerator => "Accelerator"

inductive Access
  | read
  | write
  deriving DecidableEq, Repr

def Access.name : Access → String
  | read => "words"
  | write => "words_mut"

inductive DeviceError
  | sizeMismatch (expected actual : Nat)
  /-- An access to accelerator words of a buffer that lies elsewhere. -/
  | wrongSide (access : Access) (actual : Side)
  | outOfMemory (requested available : Nat)
  | invalidDevice (text : String)
  /-- An access to memory that another argument of the same launch writes, or a writing access to
  memory that another argument reads. -/
  | borrowed (access : Access)
  | fault (cause : Fault)
  deriving DecidableEq, Repr

def DeviceError.isFault : DeviceError → Bool
  | fault _ => true
  | _ => false

theorem DeviceError.isFault_eq_false {e : DeviceError} (h : ∀ cause, e ≠ fault cause) :
    e.isFault = false := by
  cases e with
  | fault cause => exact (h cause rfl).elim
  | _ => rfl

def DeviceError.label : DeviceError → String
  | sizeMismatch .. => "SizeMismatch"
  | wrongSide .. => "WrongSide"
  | outOfMemory .. => "OutOfMemory"
  | invalidDevice _ => "InvalidDevice"
  | borrowed _ => "Borrowed"
  | fault _ => "Fault"

def DeviceError.message : DeviceError → String
  | sizeMismatch expected actual => s!"size mismatch: expected {expected}, got {actual}"
  | wrongSide access actual =>
    s!"{access.name} needs {Side.accelerator.name} memory, buffer lives in {actual.name} memory"
  | outOfMemory requested available =>
    s!"out of accelerator memory: requested {requested} bytes, {available} available"
  | invalidDevice text => s!"invalid device: {text}"
  | borrowed .read => "buffer already borrowed: RefCell already mutably borrowed"
  | borrowed .write => "buffer already borrowed: RefCell already borrowed"
  | fault _ => "fault"

instance : MonadLift (Except Fault) (Except DeviceError) where
  monadLift x := x.mapError .fault

end FieldCircuit
