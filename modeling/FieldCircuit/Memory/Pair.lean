import FieldCircuit.Field.Layout
import FieldCircuit.Memory.Buffer

/-!
# Buffer pairs

The contents of a field live in two buffers: the master on the accelerator and the slave on the host.
The validity records which of the two is current; there is always one that is. Reading a side that
is not current copies it from the other one, and writing a side leaves it as the only current one.
-/

namespace FieldCircuit

inductive Validity
  | host
  | accelerator
  | both
  deriving DecidableEq, Repr

namespace Validity

def name : Validity → String
  | host => "HostValid"
  | accelerator => "AcceleratorValid"
  | both => "BothValid"

def holds : Validity → Side → Bool
  | both, _ => true
  | host, .host => true
  | accelerator, .accelerator => true
  | _, _ => false

/-- After a side has been written it alone is current. -/
def written : Side → Validity
  | .host => host
  | .accelerator => accelerator

@[simp] theorem holds_written (side : Side) : (written side).holds side = true := by
  cases side <;> rfl

end Validity

structure Pair where
  fieldType : FieldType
  master : Buffer
  slave : Buffer
  validity : Validity
  /-- Number of copies to the accelerator. -/
  uploads : Nat
  /-- Number of copies to the host. -/
  downloads : Nat

namespace Pair

def hostEncoding : Element → Encoding
  | .pixel => .pixel
  | _ => .single

/-- A pair with both sides zero, and hence current. The master is allocated first; if the slave
cannot be allocated the master is given back. -/
def allocate (fieldType : FieldType) (host accelerator : Nat) : BankM Pair := do
  let words ← (fieldType.words? : Except DeviceError Nat)
  let master ← Buffer.allocate accelerator words .single
  let slave ← tryCatch (Buffer.allocate host words (hostEncoding fieldType.element)) fun e => do
    master.release
    throw e
  return ⟨fieldType, master, slave, .both, 0, 0⟩

def release (p : Pair) : BankM Unit := do
  p.master.release
  p.slave.release

def length (p : Pair) : Nat := p.master.length

def buffer (p : Pair) : Side → Buffer
  | .host => p.slave
  | .accelerator => p.master

def withBuffer (p : Pair) (side : Side) (b : Buffer) : Pair :=
  match side with
  | .host => { p with slave := b }
  | .accelerator => { p with master := b }

def sync (p : Pair) (side : Side) : Except DeviceError Pair :=
  if p.validity.holds side then .ok p
  else match side with
    | .accelerator => do
      let master ← p.master.copyFrom p.slave
      return { p with master, uploads := p.uploads + 1, validity := .both }
    | .host => do
      let slave ← p.slave.copyFrom p.master
      return { p with slave, downloads := p.downloads + 1, validity := .both }

def raw (p : Pair) (side : Side) : Except DeviceError (Array Float32) := (p.buffer side).read

def read (p : Pair) (side : Side) : Except DeviceError (Array Float32 × Pair) := do
  let p ← p.sync side
  return (← p.raw side, p)

/-- The pair just before a side is written. -/
def claimed (p : Pair) (side : Side) : Pair := { p with validity := .written side }

/-- Replaces the words on a side. The side counts as written even if the words do not fit. -/
def write (p : Pair) (side : Side) (values : Array Float32) : Except DeviceError Unit × Pair :=
  match ((p.claimed side).buffer side).write values with
  | .ok b => (.ok (), (p.claimed side).withBuffer side b)
  | .error e => (.error e, p.claimed side)

/-- Replaces the contents from the host. Words that do not fit change nothing. -/
def writeHost (p : Pair) (values : Array Float32) : Except DeviceError Pair := do
  let slave ← p.slave.write values
  return { p with slave, validity := .host }

/-- Replaces the master by the current words of a source. The first component is the pair, the second
the source, which may have been made current on the way. -/
def latchFrom (p source : Pair) : Except DeviceError Unit × Pair × Pair :=
  match source.sync .accelerator with
  | .error e => (.error e, p, source)
  | .ok source =>
    match p.master.copyFrom source.master with
    | .error e => (.error e, p, source)
    | .ok master => (.ok (), { p with master, validity := .accelerator }, source)

end Pair

end FieldCircuit
