import FieldCircuit.Circuit.Error
import FieldCircuit.Memory.Pair

/-!
# Registers

A register holds the contents of a field while a circuit runs, and remembers the cycle that last
changed them. A producer that has nothing new in a cycle marks its register as skipped, and the clock
at the end of the cycle then leaves it alone.
-/

namespace FieldCircuit

/-- The contents of a field in a running circuit. -/
structure Register where
  id : RegisterId
  name : String
  pair : Pair
  /-- The cycle that last changed the contents. -/
  lastUpdate : Option Nat
  /-- Whether the producer had nothing new in this cycle. -/
  skipped : Bool

namespace Register

def of (id : RegisterId) (name : String) (pair : Pair) : Register := ⟨id, name, pair, none, false⟩

def sync (r : Register) (side : Side) : Except CircuitError Register := do
  return { r with pair := ← r.pair.sync side }

def read (r : Register) : Except CircuitError (Array Float32 × Register) := do
  let (values, pair) ← (r.pair.read .host : Except CircuitError _)
  return (values, { r with pair })

def hostValues (r : Register) : Except CircuitError (Array Float32) :=
  (r.pair.raw .host : Except CircuitError _)

def write (r : Register) (values : Array Float32) : Except CircuitError Register := do
  if values.size ≠ r.pair.length then
    throw (.valueCount r.name r.pair.length values.size)
  return { r with pair := ← (r.pair.writeHost values : Except CircuitError _) }

def clock (r : Register) (cycle : Nat) : Register :=
  if r.skipped then { r with skipped := false } else { r with lastUpdate := some cycle }

/-- Forgets the cycles; the contents are left to the producer. -/
def reset (r : Register) : Register := { r with lastUpdate := none, skipped := false }

end Register

end FieldCircuit
