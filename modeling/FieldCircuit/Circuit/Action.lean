import FieldCircuit.Circuit.Environment
import FieldCircuit.HostFunction
import FieldCircuit.Kernel.Launch
import FieldCircuit.Pacing
import FieldCircuit.Register
import FieldCircuit.Sensor

/-!
# What kernels do

The action of a kernel computes the contents of the registers that it drives, once in every cycle,
and restores its initial state at a reset. A call of an action sees the registers that the kernel
reads as they are, and changes the action itself, the registers that the kernel drives, and the
surroundings of the circuit. What a failed call has changed stays changed.
-/

namespace FieldCircuit

/-- A synthesized operation with the buffers that its stages share. -/
structure DeviceKernel where
  opcode : Opcode
  operation : Operation
  intermediates : List Buffer

structure SensorKernel where
  fieldType : FieldType
  sensor : Sensor
  pacing : Pacing
  /-- The frame that was fetched in the last cycle and is published in this one. -/
  staged : Option (Array Float32)

inductive Action
  | device (k : DeviceKernel)
  /-- Values that are written at a reset. -/
  | constant (fieldType : FieldType) (values : Array Float32)
  | sensor (k : SensorKernel)
  | actuator (a : Actuator)
  | host (output : FieldType) (function : HostFunction)
  /-- The contents come from a driver; at a reset they are the initial values, or zero. -/
  | recurrence (fieldType : FieldType) (initial : Option (Array Float32))

namespace DeviceKernel

def of (o : Opcode) (inputs : List FieldType) : EnvironmentM DeviceKernel := do
  let plan ← Environment.plan o inputs
  let intermediates ← Environment.onBank <|
    Bank.all (Buffer.allocate acceleratorHome · .single) Buffer.release plan.operation.intermediates
  return ⟨o, plan.operation, intermediates⟩

end DeviceKernel

namespace SensorKernel

def of (fieldType : FieldType) (sensor : Sensor) : Except Fault SensorKernel := do
  return ⟨fieldType, sensor, ← Pacing.ofRate sensor.rate, none⟩

def fetch (k : SensorKernel) : Option (Array Float32) × SensorKernel :=
  let (frame, sensor) := k.sensor.next
  if k.sensor.pipelined then (k.staged, { k with sensor, staged := frame })
  else (frame, { k with sensor })

def reset (k : SensorKernel) : SensorKernel :=
  { k with staged := none, pacing := k.pacing.reset, sensor := k.sensor.reset }

end SensorKernel

namespace Action

/-- Fixed values, which have to fill the field. -/
def ofValues (name : String) (t : FieldType) (values : Array Float32) :
    Except CircuitError Action := do
  let expected ← (t.words? : Except CircuitError Nat)
  if values.size ≠ expected then throw (.valueCount name expected values.size)
  return .constant t values

def outputTypes : Action → List FieldType
  | device k => [k.operation.output]
  | constant t _ => [t]
  | sensor k => [k.fieldType]
  | actuator _ => []
  | host output _ => [output]
  | recurrence t _ => [t]

/-- The same action on operands of other types. What is connected to the outside cannot be copied. -/
def copy (inputs : List FieldType) : Action → EnvironmentM Action
  | device k => return .device (← DeviceKernel.of k.opcode inputs)
  | sensor _ => throw (.notCopyable KernelKind.sensor.name)
  | actuator _ => throw (.notCopyable KernelKind.actuator.name)
  | constant t values => return .constant t values
  | host output function => return .host output function
  | recurrence t initial => return .recurrence t initial

def release : Action → BankM Unit
  | device k => k.intermediates.forM Buffer.release
  | _ => pure ()

end Action

/-- What a call of an action can change. -/
structure Call where
  action : Action
  /-- The registers that the kernel drives. -/
  outputs : List Register
  surroundings : Surroundings

namespace Call

def update (c : Call) (change : Register → Except CircuitError Register) :
    Except CircuitError Unit × Call :=
  match c.outputs with
  | [] => (.error (.fault .outOfRange), c)
  | r :: rest =>
    match change r with
    | .error e => (.error e, c)
    | .ok r => (.ok (), { c with outputs := r :: rest })

def writeZeros (c : Call) (t : FieldType) : Except CircuitError Unit × Call :=
  match t.words? with
  | .error f => (.error (.fault f), c)
  | .ok words => c.update (·.write (Array.replicate words 0.0))

def computeDevice (c : Call) (k : DeviceKernel) (inputs : List Register) :
    Except CircuitError Unit × Call :=
  let claimed := c.outputs.map fun r => r.pair.claimed .accelerator
  let buffers := inputs.map (·.pair.master) ++ claimed.map Pair.master ++ k.intermediates
  let bindings := Operation.distinct inputs.length claimed.length k.intermediates.length
  let (result, buffers) := k.operation.executeOn bindings buffers.toArray
  let changed := buffers.toList.drop inputs.length
  let pairs := (claimed.zip changed).map fun (pair, master) => { pair with master }
  let outputs := (c.outputs.zip pairs).map fun (r, pair) => { r with pair }
  let k := { k with intermediates := changed.drop claimed.length }
  (result.mapError .kernel, { c with action := .device k, outputs })

/-- Publishes a frame, or says that there is nothing new. -/
def publish (frame : Option (Array Float32)) (r : Register) : Except CircuitError Register :=
  match frame with
  | some values => do return { ← r.write values with skipped := false }
  | none => .ok { r with skipped := true }

/-- Fetches a frame and publishes the one that is due, in a window of the schedule. -/
def computeSensor (c : Call) (k : SensorKernel) : Except CircuitError Unit × Call :=
  match k.pacing.start c.surroundings.now with
  | .error f => (.error (.fault f), c)
  | .ok pacing =>
    let (frame, k) := { k with pacing }.fetch
    match { c with action := .sensor k }.update (publish frame) with
    | (.error e, c) => (.error e, c)
    | (.ok (), c) =>
      match k.pacing.finish c.surroundings.now with
      | .error f => (.error (.fault f), c)
      | .ok (slept, pacing) =>
        (.ok (), { c with
          action := .sensor { k with pacing }
          surroundings := c.surroundings.sleep slept })

def computeActuator (c : Call) (a : Actuator) (inputs : List Register) :
    Except CircuitError Unit × Call :=
  match inputs with
  | [] => (.error (.fault .outOfRange), c)
  | r :: _ =>
    match r.hostValues with
    | .error e => (.error e, c)
    | .ok frame => (.ok (), { c with surroundings := c.surroundings.consume frame a })

def computeHost (c : Call) (function : HostFunction) (inputs : List Register) :
    Except CircuitError Unit × Call :=
  match inputs.mapM Register.hostValues with
  | .error e => (.error e, c)
  | .ok values => c.update (·.write (function values))

def compute (c : Call) (inputs : List Register) : Except CircuitError Unit × Call :=
  match c.action with
  | .device k => c.computeDevice k inputs
  | .sensor k => c.computeSensor k
  | .actuator a => c.computeActuator a inputs
  | .host _ function => c.computeHost function inputs
  | .constant .. | .recurrence .. => (.ok (), c)

def reset (c : Call) : Except CircuitError Unit × Call :=
  match c.action with
  | .constant _ values => c.update (·.write values)
  | .sensor k => { c with action := .sensor k.reset }.writeZeros k.fieldType
  | .actuator a => (.ok (), { c with surroundings := c.surroundings.resetActuator a })
  | .recurrence _ (some initial) => c.update (·.write initial)
  | .recurrence t none => c.writeZeros t
  | .device _ | .host .. => (.ok (), c)

end Call

end FieldCircuit
