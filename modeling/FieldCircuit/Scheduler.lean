import FieldCircuit.Circuit.Construction
import FieldCircuit.Circuit.Order

/-!
# Running circuits

A scheduler runs a circuit in cycles. In a step every kernel computes once, in dependency order, then
all recurrences take over the values of their drivers, and then the registers are clocked. A scheduler
knows that it is in the middle of a step, and is idle again at its end, whether the step has succeeded or
failed; only a fault leaves it in the middle.

Recurrences are latched in two phases, first from the drivers into staging buffers and then from there
into the recurrences, so that a recurrence that drives another one hands over the value from before
the latch.
-/

namespace FieldCircuit

/-- A recurrence in a running circuit. -/
structure Latch where
  register : RegisterId
  driver : Option RegisterId
  /-- The value of the driver on its way to the recurrence. -/
  staging : Pair

/-- What a scheduler is doing. It may be stepped once it has been reset. -/
inductive Phase
  | unreset
  | idle
  | stepping
  deriving DecidableEq, Repr

def Phase.name : Phase → String
  | unreset => "Unreset"
  | idle => "Idle"
  | stepping => "Stepping"

structure Scheduler where
  circuit : Circuit Action
  /-- The kernels in dependency order. -/
  order : List KernelId
  registers : Array Register
  latches : List Latch
  phase : Phase
  /-- Number of completed steps since the last reset. -/
  cycle : Nat

def KernelKind.inputSide : KernelKind → Option Side
  | device => some .accelerator
  | host | actuator => some .host
  | sensor | constant | recurrence => none

/-- Computations that run a circuit. What a failed one has changed stays changed. -/
abbrev SchedulerM := ExceptT CircuitError (StateM (Scheduler × Surroundings))

namespace Latch

/-- Takes the value of the driver into the staging buffer. -/
def take (l : Latch) (registers : Array Register) :
    Except CircuitError Unit × Latch × Array Register :=
  match l.driver with
  | none => (.ok (), l, registers)
  | some driver =>
    match registers[driver]? with
    | none => (.error (.fault .outOfRange), l, registers)
    | some r =>
      let (result, staging, pair) := l.staging.latchFrom r.pair
      (result.mapError .device, { l with staging },
        registers.setIfInBounds driver { r with pair })

/-- Hands the staging buffer over to the recurrence. -/
def handOver (l : Latch) (registers : Array Register) :
    Except CircuitError Unit × Latch × Array Register :=
  match registers[l.register]? with
  | none => (.error (.fault .outOfRange), l, registers)
  | some r =>
    let (result, pair, staging) := r.pair.latchFrom l.staging
    (result.mapError .device, { l with staging },
      registers.setIfInBounds l.register { r with pair })

/-- Does something to every latch, in order, until it fails. -/
def each (f : Latch → Array Register → Except CircuitError Unit × Latch × Array Register) :
    List Latch → Array Register → Except CircuitError Unit × List Latch × Array Register
  | [], registers => (.ok (), [], registers)
  | l :: rest, registers =>
    match f l registers with
    | (.error e, l, registers) => (.error e, l :: rest, registers)
    | (.ok (), l, registers) =>
      let (result, rest, registers) := each f rest registers
      (result, l :: rest, registers)

end Latch

namespace Scheduler

/-- Allocates the registers and the staging buffers of a circuit. If that fails, everything is given
back, the memory of the kernels included. -/
def build (c : Circuit Action) : EnvironmentM Scheduler := do
  let attempt : EnvironmentM Scheduler := do
    let order ← c.order
    let registers ← Environment.onBank <| Bank.all
      (fun (w : Circuit.Wire) => return Register.of w.id w.name (← Environment.newPair w.fieldType))
      (·.pair.release) c.registers.toList
    let types ← c.types (c.recurrences.map (·.register))
    let latches ← tryCatch
      (Environment.onBank <| Bank.all
        (fun (b, t) => return Latch.mk b.register b.driver (← Environment.newPair t))
        (·.staging.release) (c.recurrences.zip types))
      fun e => do
        Environment.onBank (registers.forM (·.pair.release))
        throw e
    return ⟨c, order, registers.toArray, latches, .unreset, 0⟩
  tryCatch attempt fun e => do
    Environment.onBank c.release
    throw e

def release (s : Scheduler) : BankM Unit := do
  s.circuit.release
  s.registers.toList.forM (·.pair.release)
  s.latches.forM (·.staging.release)

def enter (s : Scheduler) (around : Surroundings) (id : KernelId) :
    Except Fault (List Register × Call) := do
  let k ← fetch s.circuit.kernels id
  let inputs ← k.inputs.mapM (fetch s.registers)
  let outputs ← k.outputs.mapM (fetch s.registers)
  return (inputs, ⟨k.action, outputs, around⟩)

def leave (s : Scheduler) (id : KernelId) (c : Call) : Scheduler :=
  let outputs := (s.circuit.kernels[id]?.map (·.outputs)).getD []
  { s with
    circuit := { s.circuit with
      kernels := s.circuit.kernels.modify id fun k => { k with action := c.action } }
    registers := (outputs.zip c.outputs).foldl (fun registers (position, r) =>
      registers.setIfInBounds position r) s.registers }

def call (id : KernelId) (f : List Register → Call → Except CircuitError Unit × Call) :
    SchedulerM Unit := ExceptT.mk fun (s, around) =>
  match s.enter around id with
  | .error fault => (.error (.fault fault), s, around)
  | .ok (inputs, c) =>
    let (result, c) := f inputs c
    (result, s.leave id c, c.surroundings)

def syncRegister (side : Side) (id : RegisterId) : SchedulerM Unit :=
  ExceptT.mk fun (s, around) =>
    match s.registers[id]? with
    | none => (.error (.fault .outOfRange), s, around)
    | some r =>
      match r.sync side with
      | .error e => (.error e, s, around)
      | .ok r => (.ok (), { s with registers := s.registers.setIfInBounds id r }, around)

/-- Makes the inputs of a kernel current on the side where it reads them, and lets it compute. -/
def runKernel (id : KernelId) : SchedulerM Unit := do
  let k ← (fetch (← get).1.circuit.kernels id : Except CircuitError _)
  match k.kind.inputSide with
  | none => pure ()
  | some side => k.inputs.forM (syncRegister side)
  call id fun inputs c => c.compute inputs

def onLatches
    (f : Latch → Array Register → Except CircuitError Unit × Latch × Array Register) :
    SchedulerM Unit := ExceptT.mk fun (s, around) =>
  let (result, latches, registers) := Latch.each f s.latches s.registers
  (result, { s with latches, registers }, around)

def latch : SchedulerM Unit := do
  onLatches Latch.take
  onLatches Latch.handOver

def clocked (s : Scheduler) : Scheduler :=
  { s with registers := s.registers.map (·.clock s.cycle), cycle := s.cycle + 1 }

def withPhase (s : Scheduler) (phase : Phase) : Scheduler := { s with phase }

def enterPhase (phase : Phase) : SchedulerM Unit :=
  modify fun (s, around) => (s.withPhase phase, around)

/-- What a computation ends with, for those who go on in any case. Nothing goes on after a fault. -/
def outcome (m : SchedulerM Unit) : SchedulerM (Except CircuitError Unit) :=
  tryCatch (do m; return .ok ()) fun e => if e.isFault then throw e else return .error e

/-- Runs one cycle. A step that fails does not end the cycle. -/
def step : SchedulerM Unit := do
  let (s, _) ← get
  if s.phase = .unreset then throw .notReset
  enterPhase .stepping
  let result ← outcome do
    s.order.forM runKernel
    latch
  enterPhase .idle
  result
  modify fun (s, around) => (s.clocked, around)

/-- Runs a number of cycles, until one fails. -/
def run : Nat → SchedulerM Unit
  | 0 => pure ()
  | n + 1 => do
    step
    run n

def checkBindings (s : Scheduler) : Except CircuitError Unit :=
  s.latches.forM fun l =>
    if l.driver.isSome then .ok ()
    else do throw (.missingBinding (← s.circuit.register l.register).name)

def reset : SchedulerM Unit := do
  let (s, _) ← get
  s.checkBindings
  modify fun (s, around) => ({ s with registers := s.registers.map Register.reset }, around)
  s.order.forM fun id => call id fun _ c => c.reset
  modify fun (s, around) => ({ s with cycle := 0, phase := .idle }, around)

def register (s : Scheduler) (id : RegisterId) : Except CircuitError Register :=
  match s.registers[id]? with
  | some r => .ok r
  | none => .error (.unknownRegister id)

/-- The contents of a register, and the scheduler with the host side of the register current. -/
def read (s : Scheduler) (id : RegisterId) : Except CircuitError (Array Float32 × Scheduler) := do
  let (values, r) ← (← s.register id).read
  return (values, { s with registers := s.registers.setIfInBounds id r })

/-- The contents of a register while somebody holds another one, which may not be the same. -/
def readWhileHeld (s : Scheduler) (id held : RegisterId) :
    Except CircuitError (Array Float32 × Scheduler) := do
  let _ ← s.register held
  let _ ← s.register id
  if id = held then throw (.registerInUse id)
  s.read id

end Scheduler

end FieldCircuit
