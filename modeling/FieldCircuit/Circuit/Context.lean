import FieldCircuit.Checkpoint.Restore

/-!
# Construction in place

A context is an environment with the circuit that is under construction in it. Its requests change the
circuit one piece after another: consumers of the inputs, registers, recurrences, and the kernel in the
end. What a failed request has changed stays changed, so that a request has to find everything that is
wrong with it before the first change.
-/

namespace FieldCircuit

/-- An environment and the circuit that is under construction in it. -/
structure Context where
  environment : Environment
  circuit : Circuit Action

abbrev ContextM := ExceptT CircuitError (StateM Context)

namespace Context

def new (environment : Environment) : Context := ⟨environment, .empty⟩

def onEnvironment {α : Type} (x : EnvironmentM α) : ContextM α := ExceptT.mk fun s =>
  let (result, environment) := x.run.run s.environment
  (result, { s with environment })

def ask {α : Type} (f : Circuit Action → Except CircuitError α) : ContextM α := do
  f (← get).circuit

def change (f : Circuit Action → Circuit Action) : ContextM Unit :=
  modify fun s => { s with circuit := f s.circuit }

/-- Replaces the circuit by one that has been constructed from it. -/
def commit {α : Type} (f : Circuit Action → EnvironmentM (α × Circuit Action)) : ContextM α := do
  let (a, c) ← onEnvironment (f (← get).circuit)
  change fun _ => c
  return a

def addConsumer (id : KernelId) (input : RegisterId) : ContextM Unit :=
  change fun c => { c with registers := c.registers.modify input (·.addConsumer id) }

def addRegister (id : KernelId) (name : String) (t : FieldType) : ContextM RegisterId := do
  let register := (← get).circuit.registers.size
  change fun c => { c with registers := c.registers.push ⟨register, name, t, id, []⟩ }
  return register

def addRecurrence (register : RegisterId) : ContextM Unit :=
  change fun c => { c with recurrences := c.recurrences ++ [⟨register, none⟩] }

/-- Adds a kernel that drives a register for each output. The inputs have to exist. -/
def addKernel (opcode : Opcode) (inputs : List RegisterId) (outputs : List (String × FieldType))
    (action : Action) : ContextM KernelId := do
  inputs.forM fun input => ask fun c => discard (c.register input)
  let id := (← get).circuit.kernels.size
  inputs.forM (addConsumer id)
  let registers ← outputs.mapM fun (name, t) => addRegister id name t
  if opcode.kind = .recurrence then registers.forM addRecurrence
  change fun c => { c with kernels := c.kernels.push ⟨id, opcode, inputs, registers, action⟩ }
  return id

def add (opcode : Opcode) (inputs : List RegisterId) (name : Option String) (action : Action) :
    ContextM KernelId := do
  let first := (← get).circuit.registers.size
  addKernel opcode inputs
    (action.outputTypes.zipIdx.map fun (t, i) => (Circuit.outputName opcode first name i, t)) action

def output (id : KernelId) : ContextM RegisterId := do
  match (← ask (·.kernel id)).outputs with
  | [] => throw (.fault .outOfRange)
  | register :: _ => return register

def addDriver (opcode : Opcode) (inputs : List RegisterId) (name : Option String) (action : Action) :
    ContextM RegisterId := do
  output (← add opcode inputs name action)

def constant (name : String) (t : FieldType) (values : Array Float32) : ContextM RegisterId := do
  addDriver .constant [] (some name) (← Action.ofValues name t values)

def sensor (name : String) (t : FieldType) (s : Sensor) : ContextM RegisterId := do
  let k ← (SensorKernel.of t s : Except CircuitError SensorKernel)
  addDriver (.sensor name) [] (some name) (.sensor k)

def actuator (name : String) (input : RegisterId) (a : Actuator) : ContextM KernelId :=
  add (.actuator name) [input] (some name) (.actuator a)

def host (name : String) (inputs : List RegisterId) (t : FieldType) (function : HostFunction) :
    ContextM RegisterId :=
  addDriver (.host name) inputs (some name) (.host t function)

def recurrence (name : String) (t : FieldType) (initial : Option (Array Float32)) :
    ContextM RegisterId := do
  match initial with
  | none => pure ()
  | some values =>
    let expected ← (t.words? : Except CircuitError Nat)
    if values.size ≠ expected then throw (.valueCount name expected values.size)
  addDriver .recurrence [] (some name) (.recurrence t initial)

def operation (name : Option String) (opcode : Opcode) (inputs : List RegisterId) :
    ContextM RegisterId := do
  let types ← ask (·.types inputs)
  let k ← onEnvironment (DeviceKernel.of opcode types)
  addDriver opcode inputs name (.device k)

/-- Lets a register drive a recurrence, the first one that is found for the register. -/
def bind (recurrence driver : RegisterId) : ContextM Unit := do
  let target ← ask (·.register recurrence)
  let source ← ask (·.register driver)
  if recurrence = driver then throw (.selfBinding target.name)
  if target.fieldType ≠ source.fieldType then
    throw (.recurrenceType target.name target.fieldType source.fieldType)
  match (← get).circuit.recurrences.find? (·.register == recurrence) with
  | none => throw (.notARecurrence target.name)
  | some binding =>
    if binding.driver.isSome then throw (.duplicateBinding target.name)
    change fun c => { c with
      recurrences := c.recurrences.replace binding { binding with driver := some driver } }

def copyKernel (id : KernelId) (inputs : List RegisterId) : ContextM KernelId := do
  let types ← ask (·.types inputs)
  let k ← ask (·.kernel id)
  let action ← onEnvironment (k.action.copy types)
  add k.opcode inputs none action

def restoreConstant (checkpoint : Checkpoint) : ContextM (List RegisterId) := do
  let field ← readExtents "field_shape" (← checkpoint.readText "field_shape")
  let tensor ← readExtents "tensor_shape" (← checkpoint.readText "tensor_shape")
  match Element.ofName? (← checkpoint.readText "element") with
  | none => throw (.fieldKind "element" .element)
  | some element =>
    let t ← (FieldType.of field tensor element : Except CircuitError FieldType)
    return [← constant constantTag t (← checkpoint.readWords "values")]

def restoreDevice (checkpoint : Checkpoint) (inputs : List RegisterId) :
    ContextM (List RegisterId) := do
  let opcode ← (Opcode.parse (← checkpoint.readText "opcode") : Except CircuitError Opcode)
  return [← operation none opcode inputs]

def restore (checkpoint : Checkpoint) (inputs : List RegisterId) : ContextM (List RegisterId) := do
  let tag ← checkpoint.readText Parameters.tagField
  if tag ≠ constantTag ∧ tag ≠ deviceTag then throw (.unknownTag tag)
  let major ← checkpoint.readVersionNumber Parameters.majorField
  let minor ← checkpoint.readVersionNumber Parameters.minorField
  storedVersion.check ⟨major, minor⟩ tag
  if tag = constantTag then restoreConstant checkpoint else restoreDevice checkpoint inputs

end Context

end FieldCircuit
