import FieldCircuit.Kernel.Convolution
import FieldCircuit.Kernel.Correlation
import FieldCircuit.Kernel.Fourier
import FieldCircuit.Kernel.Pointwise
import FieldCircuit.Kernel.Reduction
import FieldCircuit.Kernel.TensorSum

/-!
# Stages and operations

A stage is one kernel: its source text, the buffers it binds, its launch geometry, and the program
that carries out the same decomposition. An operation is a sequence of stages that share
intermediate buffers.
-/

namespace FieldCircuit

inductive Program
  | pointwise (k : Pointwise)
  | tensorSum (k : TensorSum)
  | convolution (k : Convolution)
  | planeReduction (k : PlaneReduction)
  | blockReduction (k : BlockReduction)
  | correlation (k : Correlation)
  | fourier (k : FourierPass)
  deriving DecidableEq

def Program.stores {α : Type} (ar : Arithmetic α) (p : Program) (w : WorkGroup)
    (inputs : List (Array α)) : Except Fault (List (Nat × α)) :=
  match p with
  | pointwise k => k.stores ar w inputs
  | tensorSum k => k.stores ar w inputs
  | convolution k => k.stores ar w inputs
  | planeReduction k => k.stores ar w inputs
  | blockReduction k => k.stores ar w inputs
  | correlation k => k.stores ar w inputs
  | fourier k => k.stores ar w inputs

def Program.run {α : Type} (ar : Arithmetic α) (p : Program) (w : WorkGroup)
    (inputs : List (Array α)) (output : Array α) : Except Fault (Array α) := do
  storeAll output (← p.stores ar w inputs)

structure Argument where
  /-- Position among the arguments. -/
  index : Nat
  name : String
  slot : Slot
  /-- Number of words that the buffer has to have. -/
  words : Nat
  isOutput : Bool
  deriving DecidableEq

/-- Arguments in order, numbered from zero: name, slot, words and whether it is written. -/
def Argument.list (args : List (String × Slot × Nat × Bool)) : List Argument :=
  args.zipIdx.map fun ((name, slot, words, isOutput), index) =>
    { index, name, slot, words, isOutput }

structure Stage where
  name : String
  source : String
  arguments : List Argument
  mode : AddressingMode
  workgroup : WorkGroup
  /-- Local memory of a workgroup in bytes. -/
  localBytes : Nat
  program : Program
  deriving DecidableEq

structure Operation where
  name : String
  output : FieldType
  stages : List Stage
  /-- Words of the buffers that the stages share. -/
  intermediates : List Nat
  deriving DecidableEq

namespace Operation

def single (stage : Stage) (output : FieldType) : Operation := ⟨stage.name, output, [stage], []⟩

def source (op : Operation) : String := "\n".intercalate (op.stages.map Stage.source)

def localBytes (op : Operation) : Nat := (op.stages.map Stage.localBytes).foldl Nat.max 0

end Operation

end FieldCircuit
