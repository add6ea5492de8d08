import FieldCircuit.Field.Type
import FieldCircuit.Size

/-!
# Storage layout

The words of a field are stored in planes, in the order part, tensor element, layer, row, column:
the column varies fastest, each tensor element owns a contiguous plane of all points, and the real
parts of a complex field come before the imaginary parts. Missing dimensions have extent one.
-/

namespace FieldCircuit

/-- The extents that decide where the words of a field are. -/
structure Layout where
  columns : Nat
  rows : Nat
  layers : Nat
  elements : Nat
  element : Element
  deriving DecidableEq, Repr

namespace Layout

def rowStride (l : Layout) : Nat := l.columns

def layerStride (l : Layout) : Nat := l.rows * l.columns

def tensorStride (l : Layout) : Nat := l.layers * (l.rows * l.columns)

/-- Distance from the real to the imaginary plane, and zero where there is none. -/
def partStride (l : Layout) : Nat :=
  if l.element.isComplex then l.tensorStride * l.elements else 0

def parts (l : Layout) : Nat := l.element.parts

def points (l : Layout) : Nat := l.tensorStride

def words (l : Layout) : Nat := l.tensorStride * l.elements * l.parts

def hostBytes (l : Layout) : Nat := l.words * l.element.hostBytes

def pointIndex (l : Layout) (layer row column : Nat) : Nat :=
  layer * l.layerStride + row * l.rowStride + column

/-- Position of one tensor element of a point; the real part of a complex element. -/
def index (l : Layout) (layer row column element : Nat) : Nat :=
  element * l.tensorStride + l.pointIndex layer row column

end Layout

def FieldType.layout (t : FieldType) : Layout :=
  ⟨t.columns, t.rows, t.layers, t.elements, t.element⟩

def FieldType.words (t : FieldType) : Nat := t.layout.words

def FieldType.points? (t : FieldType) : Except Fault Nat := checked t.points

def FieldType.elements? (t : FieldType) : Except Fault Nat := checked t.elements

def FieldType.layout? (t : FieldType) : Except Fault Layout := do
  let _ ← t.points?
  let _ ← t.elements?
  let _ ← checked t.layout.partStride
  return t.layout

def FieldType.words? (t : FieldType) : Except Fault Nat := do
  let l ← t.layout?
  checked l.words

theorem FieldType.layout_points (t : FieldType) : t.layout.points = t.points :=
  t.points_eq.symm

end FieldCircuit
