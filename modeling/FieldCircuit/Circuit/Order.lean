import FieldCircuit.Circuit.Graph

/-!
# Dependency order

The order in which the kernels of a circuit run: a kernel waits until all its inputs have been
produced, and kernels that are ready run in the order in which they became so. Every input counts,
so a kernel that reads a register twice waits for two inputs, and both arrive at once. No kernel becomes
ready twice, so that after as many turns as there are kernels none is ready any more.
-/

namespace FieldCircuit.Circuit

variable {σ : Type}

/-- How far the search for an order has come. -/
structure Sweep where
  /-- For each kernel the number of inputs that it still waits for. -/
  waiting : Array Nat
  /-- Kernels that wait for nothing, the one that became ready first in front. -/
  ready : List KernelId
  /-- Kernels that have run, the last one in front. -/
  done : List KernelId

namespace Sweep

def start (c : Circuit σ) : Sweep where
  waiting := c.kernels.map (·.inputs.length)
  ready := (c.kernels.toList.filter (·.inputs.isEmpty)).map (·.id)
  done := []

def deliver (c : Circuit σ) (register : RegisterId) (s : Sweep) (consumer : KernelId) :
    Except Fault Sweep := do
  let uses := (← fetch c.kernels consumer).inputs.count register
  let waits ← fetch s.waiting consumer
  if waits < uses then throw .sizeOverflow
  return { s with
    waiting := s.waiting.setIfInBounds consumer (waits - uses)
    ready := if waits = uses then s.ready ++ [consumer] else s.ready }

def deliverAll (c : Circuit σ) (s : Sweep) (register : RegisterId) : Except Fault Sweep := do
  (← fetch c.registers register).consumers.foldlM (deliver c register) s

/-- Runs the kernel that became ready first, if there is one. -/
def advance (c : Circuit σ) (s : Sweep) : Except Fault Sweep :=
  match s.ready with
  | [] => .ok s
  | k :: ready => do
    (← fetch c.kernels k).outputs.foldlM (deliverAll c) { s with ready, done := k :: s.done }

def run (c : Circuit σ) : Nat → Sweep → Except Fault Sweep
  | 0, s => .ok s
  | n + 1, s => do run c n (← s.advance c)

end Sweep

/-- The kernels in dependency order. Kernels on a cycle, or behind one, never become ready. -/
def order (c : Circuit σ) : Except CircuitError (List KernelId) := do
  let s ← (Sweep.run c c.kernels.size (Sweep.start c) : Except CircuitError Sweep)
  let remaining := c.kernels.size - s.done.length
  if remaining ≠ 0 then throw (.cycle remaining)
  return s.done.reverse

end FieldCircuit.Circuit
