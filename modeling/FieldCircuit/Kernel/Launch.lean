import FieldCircuit.Kernel.Stage
import FieldCircuit.Memory.Buffer

/-!
# Launches

Running the stages of an operation on memory. Memory is a sequence of buffers, and an operation is
bound to positions in it, which may repeat. The arguments of a stage are granted in order: the slot
has to be bound, to a buffer of the right length, on the accelerator, and memory that is written may
not be shared with another argument. A refused stage changes nothing, and the stages before it have
run.
-/

namespace FieldCircuit

/-- A buffer as a launch sees it: its length, and its words if it lies on the accelerator. -/
structure LaunchBuffer (α : Type) where
  length : Nat
  words : Option (Array α)

namespace LaunchBuffer

def ofWords {α : Type} (words : Array α) : LaunchBuffer α := ⟨words.size, some words⟩

end LaunchBuffer

structure Bindings where
  inputs : List Nat
  outputs : List Nat
  intermediates : List Nat
  deriving DecidableEq, Repr

namespace Bindings

def get? (b : Bindings) : Slot → Option Nat
  | .input i => b.inputs[i]?
  | .output i => b.outputs[i]?
  | .intermediate i => b.intermediates[i]?

end Bindings

/-- Positions that a stage may read and write, in the order of its arguments. -/
structure Grants where
  reads : List Nat
  writes : List Nat
  deriving DecidableEq, Repr

namespace Grants

def grant (g : Grants) (access : Access) (position : Nat) : Except DeviceError Grants :=
  match access with
  | .write =>
    if position ∈ g.reads ∨ position ∈ g.writes then .error (.borrowed .write)
    else .ok { g with writes := g.writes ++ [position] }
  | .read =>
    if position ∈ g.writes then .error (.borrowed .read)
    else .ok { g with reads := g.reads ++ [position] }

end Grants

def Argument.access (a : Argument) : Access := if a.isOutput then .write else .read

variable {α : Type}

def Argument.grant (kernel : String) (memory : Array (LaunchBuffer α)) (b : Bindings)
    (g : Grants) (a : Argument) : Except KernelError Grants :=
  match b.get? a.slot with
  | none => .error (.launch kernel (.unbound a.slot))
  | some position =>
    match memory[position]? with
    | none => .error (.fault .outOfRange)
    | some buffer =>
      if buffer.length ≠ a.words then
        .error (.launch kernel (.wrongLength a.name a.words buffer.length))
      else if buffer.words.isNone then .error (.device (.wrongSide a.access .host))
      else (g.grant a.access position).mapError .device

namespace Stage

def grants (s : Stage) (memory : Array (LaunchBuffer α)) (b : Bindings) :
    Except KernelError Grants :=
  s.arguments.foldlM (Argument.grant s.name memory b) ⟨[], []⟩

def wordsAt (memory : Array (LaunchBuffer α)) (position : Nat) : Except Fault (Array α) := do
  match (← fetch memory position).words with
  | some words => .ok words
  | none => .error .outOfRange

def runGranted (ar : Arithmetic α) (s : Stage) (g : Grants) (memory : Array (LaunchBuffer α)) :
    Except Fault (Array (LaunchBuffer α)) := do
  let inputs ← g.reads.mapM (wordsAt memory)
  let position ← fetch g.writes.toArray 0
  let output ← wordsAt memory position
  let words ← s.program.run ar s.workgroup inputs output
  return memory.modify position fun buffer => { buffer with words := some words }

def launch (ar : Arithmetic α) (s : Stage) (b : Bindings) (memory : Array (LaunchBuffer α)) :
    Except KernelError (Array (LaunchBuffer α)) := do
  let g ← s.grants memory b
  (s.runGranted ar g memory).mapError .fault

end Stage

namespace Operation

def runStages (ar : Arithmetic α) (b : Bindings) :
    List Stage → Array (LaunchBuffer α) → Except KernelError Unit × Array (LaunchBuffer α)
  | [], memory => (.ok (), memory)
  | s :: rest, memory =>
    match s.launch ar b memory with
    | .ok memory => runStages ar b rest memory
    | .error e => (.error e, memory)

def execute (ar : Arithmetic α) (op : Operation) (b : Bindings)
    (memory : Array (LaunchBuffer α)) : Except KernelError Unit × Array (LaunchBuffer α) :=
  if b.intermediates.length ≠ op.intermediates.length then
    (.error (.launch op.name
      (.intermediateCount op.intermediates.length b.intermediates.length)), memory)
  else runStages ar b op.stages memory

structure Outcome (α : Type) where
  result : Except KernelError Unit
  outputs : List (Array α)
  intermediates : List (Array α)

/-- Bindings to distinct positions: inputs first, then outputs, then intermediates. -/
def distinct (inputs outputs intermediates : Nat) : Bindings where
  inputs := List.range inputs
  outputs := (List.range outputs).map (inputs + ·)
  intermediates := (List.range intermediates).map (inputs + outputs + ·)

/-- Runs an operation on words that nothing else shares. -/
def run (ar : Arithmetic α) (op : Operation) (inputs outputs intermediates : List (Array α)) :
    Outcome α :=
  let b := distinct inputs.length outputs.length intermediates.length
  let memory := ((inputs ++ outputs ++ intermediates).map LaunchBuffer.ofWords).toArray
  let (result, memory) := op.execute ar b memory
  let words := memory.toList.map fun buffer => buffer.words.getD #[]
  { result
    outputs := (words.drop inputs.length).take outputs.length
    intermediates := words.drop (inputs.length + outputs.length) }

end Operation

namespace Buffer

def toLaunch (b : Buffer) : LaunchBuffer Float32 :=
  match b.contents with
  | .words data => ⟨b.length, some (data.extract 0 b.length)⟩
  | .bytes _ => ⟨b.length, none⟩

def afterLaunch (b : Buffer) (l : LaunchBuffer Float32) : Buffer :=
  match b.contents, l.words with
  | .words _, some words => { b with contents := b.contents.overwritten .single words }
  | _, _ => b

end Buffer

def Operation.executeOn (op : Operation) (b : Bindings) (buffers : Array Buffer) :
    Except KernelError Unit × Array Buffer :=
  let (result, memory) := op.execute .single b (buffers.map Buffer.toLaunch)
  (result, (buffers.zip memory).map fun (buffer, l) => buffer.afterLaunch l)

end FieldCircuit
