import FieldCircuit.Circuit.Action
import FieldCircuit.Circuit.Graph

/-!
# Construction of circuits

Kernels are added to a circuit one at a time, each after the kernels that it reads from. Operations on
the accelerator are synthesized when they are added, so that whatever is wrong with them is found
then. A request that is refused leaves the circuit as it was.
-/

namespace FieldCircuit.Circuit

/-- The names of the registers that a new kernel drives: its own name for the first and numbered ones
for the others. Without a name, they are called after the opcode and the number of the register. -/
def outputName (opcode : Opcode) (first : RegisterId) (name : Option String) (i : Nat) : String :=
  match name, i with
  | some name, 0 => name
  | some name, i => s!"{name}.{i}"
  | none, i => s!"{opcode.family}{first + i}"

def add (c : Circuit Action) (opcode : Opcode) (inputs : List RegisterId) (name : Option String)
    (action : Action) : Except CircuitError (KernelId × Circuit Action) :=
  let outputs := action.outputTypes.zipIdx.map fun (t, i) =>
    (outputName opcode c.registers.size name i, t)
  c.addKernel opcode inputs outputs action

def addDriver (c : Circuit Action) (opcode : Opcode) (inputs : List RegisterId)
    (name : Option String) (action : Action) :
    Except CircuitError (RegisterId × Circuit Action) := do
  let (id, c) ← c.add opcode inputs name action
  match (← c.kernel id).outputs with
  | [] => throw (.fault .outOfRange)
  | output :: _ => return (output, c)

def types (c : Circuit Action) (registers : List RegisterId) :
    Except CircuitError (List FieldType) :=
  registers.mapM fun r => return (← c.register r).fieldType

def constant (c : Circuit Action) (name : String) (t : FieldType) (values : Array Float32) :
    Except CircuitError (RegisterId × Circuit Action) := do
  c.addDriver .constant [] (some name) (← Action.ofValues name t values)

def sensor (c : Circuit Action) (name : String) (t : FieldType) (s : Sensor) :
    Except CircuitError (RegisterId × Circuit Action) := do
  let k ← (SensorKernel.of t s : Except CircuitError SensorKernel)
  c.addDriver (.sensor name) [] (some name) (.sensor k)

def actuator (c : Circuit Action) (name : String) (input : RegisterId) (a : Actuator) :
    Except CircuitError (KernelId × Circuit Action) :=
  c.add (.actuator name) [input] (some name) (.actuator a)

def host (c : Circuit Action) (name : String) (inputs : List RegisterId) (output : FieldType)
    (function : HostFunction) : Except CircuitError (RegisterId × Circuit Action) :=
  c.addDriver (.host name) inputs (some name) (.host output function)

/-- Adds a recurrence, which starts at zero unless it has initial values. -/
def recurrence (c : Circuit Action) (name : String) (t : FieldType)
    (initial : Option (Array Float32)) : Except CircuitError (RegisterId × Circuit Action) := do
  match initial with
  | none => pure ()
  | some values =>
    let expected ← (t.words? : Except CircuitError Nat)
    if values.size ≠ expected then throw (.valueCount name expected values.size)
  c.addDriver .recurrence [] (some name) (.recurrence t initial)

def operation (c : Circuit Action) (name : Option String) (opcode : Opcode)
    (inputs : List RegisterId) : EnvironmentM (RegisterId × Circuit Action) := do
  let types ← c.types inputs
  let k ← DeviceKernel.of opcode types
  c.addDriver opcode inputs name (.device k)

def copyKernel (c : Circuit Action) (id : KernelId) (inputs : List RegisterId) :
    EnvironmentM (KernelId × Circuit Action) := do
  let types ← c.types inputs
  let k ← c.kernel id
  let action ← k.action.copy types
  c.add k.opcode inputs none action

def release (c : Circuit Action) : BankM Unit := c.kernels.toList.forM (·.action.release)

end FieldCircuit.Circuit
