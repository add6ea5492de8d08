import FieldCircuit.Circuit.Error
import FieldCircuit.Entries

/-!
# Checkpoints

A checkpoint holds named fields. Writing a field replaces what was there under its name, and a field
is read back as the kind of value that it was written as.
-/

namespace FieldCircuit

inductive StoredValue
  | integer (n : Int)
  | text (s : String)
  | words (values : Array Float32)
  deriving DecidableEq

structure Checkpoint where
  fields : List (String × StoredValue)

namespace Checkpoint

def empty : Checkpoint := ⟨[]⟩

def size (c : Checkpoint) : Nat := c.fields.length

def get? (c : Checkpoint) (name : String) : Option StoredValue := c.fields.lookup name

def write (c : Checkpoint) (name : String) (value : StoredValue) : Checkpoint :=
  ⟨entered name value c.fields⟩

def read (c : Checkpoint) (name : String) : Except CircuitError StoredValue :=
  match c.get? name with
  | some value => .ok value
  | none => .error (.missingField name)

def readInteger (c : Checkpoint) (name : String) : Except CircuitError Int := do
  match ← c.read name with
  | .integer n => return n
  | _ => throw (.fieldKind name .integer)

def readText (c : Checkpoint) (name : String) : Except CircuitError String := do
  match ← c.read name with
  | .text s => return s
  | _ => throw (.fieldKind name .text)

def readWords (c : Checkpoint) (name : String) : Except CircuitError (Array Float32) := do
  match ← c.read name with
  | .words values => return values
  | _ => throw (.fieldKind name .words)

def readVersionNumber (c : Checkpoint) (name : String) : Except CircuitError Nat := do
  let n ← c.readInteger name
  if 0 ≤ n ∧ n < Version.bound then return n.toNat
  else throw (.fieldKind name .versionNumber)

end Checkpoint

end FieldCircuit
