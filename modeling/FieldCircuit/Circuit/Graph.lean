import FieldCircuit.Circuit.Error

/-!
# Circuits

A circuit consists of kernels and of the wires between them. Every wire has one producer, and the
kernels that read it are its consumers. Recurrences are kept apart from the wires: the value that a
recurrence takes from its driver arrives one cycle later, so feedback through a recurrence is not a
dependency.

What a kernel does is a parameter of the circuit.
-/

namespace FieldCircuit

namespace Circuit

structure Kernel (σ : Type) where
  id : KernelId
  opcode : Opcode
  inputs : List RegisterId
  outputs : List RegisterId
  /-- What the kernel does. -/
  action : σ

def Kernel.kind {σ : Type} (k : Kernel σ) : KernelKind := k.opcode.kind

/-- An output of a kernel that other kernels may read. -/
structure Wire where
  id : RegisterId
  name : String
  fieldType : FieldType
  producer : KernelId
  consumers : List KernelId

/-- A recurrence and, once it is bound, the register that drives it. -/
structure Binding where
  register : RegisterId
  driver : Option RegisterId
  deriving DecidableEq, Repr

end Circuit

structure Circuit (σ : Type) where
  kernels : Array (Circuit.Kernel σ)
  registers : Array Circuit.Wire
  recurrences : List Circuit.Binding

namespace Circuit

variable {σ : Type}

def empty : Circuit σ := ⟨#[], #[], []⟩

def kernel (c : Circuit σ) (id : KernelId) : Except CircuitError (Kernel σ) :=
  match c.kernels[id]? with
  | some k => .ok k
  | none => .error (.unknownKernel id)

def register (c : Circuit σ) (id : RegisterId) : Except CircuitError Wire :=
  match c.registers[id]? with
  | some w => .ok w
  | none => .error (.unknownRegister id)

/-- The wire with one more consumer, which is listed once. -/
def Wire.addConsumer (w : Wire) (k : KernelId) : Wire :=
  if k ∈ w.consumers then w else { w with consumers := w.consumers ++ [k] }

def consume (registers : Array Wire) (inputs : List RegisterId) (k : KernelId) : Array Wire :=
  inputs.foldl (fun registers input => registers.modify input (·.addConsumer k)) registers

def produce (registers : Array Wire) (outputs : List (String × FieldType)) (k : KernelId) :
    Array Wire :=
  outputs.foldl (fun registers output =>
    registers.push ⟨registers.size, output.1, output.2, k, []⟩) registers

/-- The circuit with a kernel that drives a register for each output. The inputs have to exist. -/
def addKernel (c : Circuit σ) (opcode : Opcode) (inputs : List RegisterId)
    (outputs : List (String × FieldType)) (action : σ) :
    Except CircuitError (KernelId × Circuit σ) := do
  inputs.forM fun input => discard (c.register input)
  let id := c.kernels.size
  let fresh := (List.range outputs.length).map (c.registers.size + ·)
  let bindings := match opcode.kind with
    | .recurrence => fresh.map fun register => ⟨register, none⟩
    | _ => []
  return (id, {
    kernels := c.kernels.push ⟨id, opcode, inputs, fresh, action⟩
    registers := produce (consume c.registers inputs id) outputs id
    recurrences := c.recurrences ++ bindings })

/-- The circuit in which a kernel reads one more register. The register is not told. -/
def appendInput (c : Circuit σ) (k : KernelId) (input : RegisterId) :
    Except CircuitError (Circuit σ) := do
  let kernel ← c.kernel k
  return { c with
    kernels := c.kernels.setIfInBounds k { kernel with inputs := kernel.inputs ++ [input] } }

/-- Lets a register drive a recurrence. The two registers have to exist and to differ, and to be of
one type, and the recurrence has to be one that is not bound yet. -/
def bind (c : Circuit σ) (recurrence driver : RegisterId) : Except CircuitError (Circuit σ) := do
  let target ← c.register recurrence
  let source ← c.register driver
  if recurrence = driver then throw (.selfBinding target.name)
  if target.fieldType ≠ source.fieldType then
    throw (.recurrenceType target.name target.fieldType source.fieldType)
  match c.recurrences.find? (·.register == recurrence) with
  | none => throw (.notARecurrence target.name)
  | some binding =>
    if binding.driver.isSome then throw (.duplicateBinding target.name)
    return { c with
      recurrences := c.recurrences.map fun b =>
        if b.register = recurrence then { b with driver := some driver } else b }

end Circuit

end FieldCircuit
