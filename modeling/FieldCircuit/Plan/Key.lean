import FieldCircuit.Device.Spec
import FieldCircuit.Field.Type
import FieldCircuit.Opcode.Basic

/-!
# Plan keys

The key under which an operation is shared: its family, the type of its leading operand, the literal
parameter of the family and the capabilities it was planned against.
-/

namespace FieldCircuit

/-- The families of operations that are worth sharing. -/
inductive PlanFamily
  | fieldReduce (op : ReduceOp)
  | filterAdjoint
  | fft (direction : Direction)
  deriving DecidableEq, Repr

def PlanFamily.name : PlanFamily → String
  | fieldReduce _ => "FieldReduce"
  | filterAdjoint => "FilterAdjoint"
  | fft _ => "Fft"

/-- What identifies a shared operation. -/
structure PlanKey where
  family : PlanFamily
  fieldType : FieldType
  /-- The size of a filter, and zero for the families without a parameter. -/
  parameter : Nat
  capabilities : Capabilities
  deriving DecidableEq

end FieldCircuit
