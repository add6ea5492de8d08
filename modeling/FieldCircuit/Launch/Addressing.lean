import FieldCircuit.Field.Layout
import FieldCircuit.Kernel.Error
import FieldCircuit.Launch.WorkGroup

/-!
# Addressing

How the work items of a launch are assigned to the points and tensor elements of a field. The mode
follows from the types of the operands and from how the operation uses the tensor at each point.
-/

namespace FieldCircuit

inductive AddressingMode
  /-- One item per point, holding its whole small tensor. -/
  | smallTensor
  /-- One item per tensor element of each point. -/
  | tensorElement
  /-- One item per point, looping over a large tensor. -/
  | bigTensor
  deriving DecidableEq, Repr

def AddressingMode.name : AddressingMode → String
  | smallTensor => "SmallTensor"
  | tensorElement => "TensorElement"
  | bigTensor => "BigTensor"

/-- How an operation uses the tensor at each point. -/
inductive OpClass
  /-- An output element depends on the same element of the inputs only. -/
  | elementWise
  /-- An output point needs the whole tensors of the inputs. -/
  | perPoint
  deriving DecidableEq, Repr

namespace Addressing

/-- Tensors with at most this many elements are held by one work item. -/
def maxSmallElements : Nat := 4

def isSmall (t : FieldType) : Bool := t.elements ≤ maxSmallElements

def isSmall? (t : FieldType) : Except Fault Bool := do
  let n ← t.elements?
  return n ≤ maxSmallElements

def mode? (cls : OpClass) (inputs : List FieldType) (output : FieldType) :
    Except Fault AddressingMode := do
  let small ← isSmall? output
  match cls with
  | .elementWise => return if small then .smallTensor else .tensorElement
  | .perPoint =>
    if small then
      return if ← inputs.allM isSmall? then .smallTensor else .bigTensor
    else return .bigTensor

/-- The extents of a launch over a field: its columns, rows and layers, and its tensor elements on the
next axis, or together with the layers if there is none. -/
def launchExtents (t : FieldType) (mode : AddressingMode) : List Nat :=
  let box := [t.columns, t.rows, t.layers].take t.dimensions
  let box := if mode = .tensorElement then
      if box.length < 3 then box ++ [t.elements]
      else [t.columns, t.rows, t.layers * t.elements]
    else box
  if box.isEmpty then [1] else box

def workGroup? (t : FieldType) (mode : AddressingMode) (caps : Capabilities) :
    Except Fault WorkGroup :=
  let extents := launchExtents t mode
  if extents.all (· < sizeBound) then WorkGroup.covering extents caps
  else .error .sizeOverflow

def covers (input output : FieldType) : Bool :=
  input.dimensions == 0 || input.field == output.field

def select (cls : OpClass) (inputs : List FieldType) (output : FieldType) (caps : Capabilities) :
    Except KernelError (AddressingMode × WorkGroup) := do
  match inputs.find? (!covers · output) with
  | some input => throw (.shapeMismatch "addressing" (.uncovered input output))
  | none =>
    let mode ← (mode? cls inputs output : Except KernelError AddressingMode)
    return (mode, ← (workGroup? output mode caps : Except KernelError WorkGroup))

end Addressing

end FieldCircuit
