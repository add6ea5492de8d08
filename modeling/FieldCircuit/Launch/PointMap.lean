import FieldCircuit.Launch.Addressing

/-!
# From work items to points

A point map says which point of a field, and which of its tensor elements, a work item is
responsible for; items outside the field are responsible for nothing. It also renders the source
lines that compute the same assignment inside a kernel.
-/

namespace FieldCircuit

structure Point where
  layer : Nat
  row : Nat
  column : Nat
  deriving DecidableEq, Repr

def Layout.at (l : Layout) (p : Point) : Nat := l.pointIndex p.layer p.row p.column

def Layout.elementAt (l : Layout) (p : Point) (element : Nat) : Nat :=
  l.index p.layer p.row p.column element

structure PointMap where
  dimensions : Nat
  mode : AddressingMode
  layout : Layout
  deriving DecidableEq, Repr

namespace PointMap

def of (t : FieldType) (mode : AddressingMode) : PointMap := ⟨t.dimensions, mode, t.layout⟩

def perElement (m : PointMap) : Bool := m.mode == .tensorElement

/-- The layer of a work item, and the element if each item has its own. -/
def layerElement (m : PointMap) (id : Axes) : Nat × Option Nat :=
  match m.dimensions, m.perElement with
  | 3, true => (id.z % m.layout.layers, some (id.z / m.layout.layers))
  | 3, false => (id.z, none)
  | 2, true => (0, some id.z)
  | 1, true => (0, some id.y)
  | _, true => (0, some id.x)
  | _, false => (0, none)

/-- The point of a work item, and the tensor element if each item has its own. -/
def locate (m : PointMap) (id : Axes) : Option (Point × Option Nat) :=
  let column := if 1 ≤ m.dimensions then id.x else 0
  let row := if 2 ≤ m.dimensions then id.y else 0
  let (layer, element) := m.layerElement id
  let inside := column < m.layout.columns && row < m.layout.rows && layer < m.layout.layers &&
    element.all (· < m.layout.elements)
  if inside then some (⟨layer, row, column⟩, element) else none

def elements (m : PointMap) : Option Nat → List Nat
  | some e => [e]
  | none => List.range m.layout.elements

def assignments (m : PointMap) (id : Axes) : List (Point × Nat) :=
  match m.locate id with
  | none => []
  | some (p, e) => (m.elements e).map (p, ·)

/-- The points that a launch visits, with the tensor elements it visits them for. -/
def visits (m : PointMap) (w : WorkGroup) : List (Point × Nat) :=
  w.workItems.flatMap m.assignments

def points (m : PointMap) (w : WorkGroup) : List Point :=
  w.workItems.filterMap fun id => (m.locate id).map (·.1)

def globalId (axis : Nat) : String := s!"get_global_id({axis})"

/-- The source lines that declare the point of a work item and leave the kernel outside the field. -/
def prologue (m : PointMap) (name : String) : List String :=
  let column := if 1 ≤ m.dimensions then globalId 0 else "0"
  let row := if 2 ≤ m.dimensions then globalId 1 else "0"
  let third := match m.dimensions, m.perElement with
    | 3, true =>
      [s!"const int _layer = {globalId 2} % {name}_layers;",
        s!"const int _tensorElement = {globalId 2} / {name}_layers;"]
    | 3, false => [s!"const int _layer = {globalId 2};"]
    | d, true => ["const int _layer = 0;", s!"const int _tensorElement = {globalId d};"]
    | _, false => ["const int _layer = 0;"]
  let guard :=
    s!"_column >= {name}_columns || _row >= {name}_rows || _layer >= {name}_layers" ++
      if m.perElement then s!" || _tensorElement >= {name}_tensorElements" else ""
  [s!"const int _column = {column};", s!"const int _row = {row};"] ++ third ++
    [s!"if ({guard}) return;"]

end PointMap

end FieldCircuit
