import FieldCircuit.Field.Element
import FieldCircuit.Field.Shape

/-!
# Field types

A field is a dense grid of up to three dimensions (layers, rows and columns) that holds a tensor of
order at most two at every point. Field types are compared by their parts. The bounds on the
dimensions and the positivity of the extents belong to the type, so that every field type has at
least one point and one tensor element.
-/

namespace FieldCircuit

def maxDimensions : Nat := 3

def maxOrder : Nat := 2

structure FieldType where
  field : Shape
  tensor : Shape
  element : Element
  field_le : field.dimensions ≤ maxDimensions
  tensor_le : tensor.dimensions ≤ maxOrder
  field_pos : ∀ e ∈ field.extents, 0 < e
  tensor_pos : ∀ e ∈ tensor.extents, 0 < e
  deriving DecidableEq

inductive FieldError
  | tooManyDimensions (shape : Shape)
  | orderTooHigh (shape : Shape)
  | zeroExtent (shape : Shape)
  deriving DecidableEq, Repr

def FieldError.label : FieldError → String
  | tooManyDimensions _ => "TooManyFieldDimensions"
  | orderTooHigh _ => "TensorOrderTooHigh"
  | zeroExtent _ => "ZeroExtent"

def FieldError.message : FieldError → String
  | tooManyDimensions s =>
    s!"field shape {Text.bracketed s.extents} has {s.dimensions} dimensions, at most {maxDimensions} are supported"
  | orderTooHigh s =>
    s!"tensor shape {Text.bracketed s.extents} has order {s.dimensions}, at most {maxOrder} is supported"
  | zeroExtent s => s!"zero extent in shape {Text.bracketed s.extents}"

namespace FieldType

/-- The field type with these shapes. Dimensions are checked before extents, and the field before
the tensor. -/
def of (field tensor : Shape) (element : Element) : Except FieldError FieldType :=
  if hf : field.dimensions ≤ maxDimensions then
    if ht : tensor.dimensions ≤ maxOrder then
      if pf : ∀ e ∈ field.extents, 0 < e then
        if pt : ∀ e ∈ tensor.extents, 0 < e then
          .ok ⟨field, tensor, element, hf, ht, pf, pt⟩
        else .error (.zeroExtent tensor)
      else .error (.zeroExtent field)
    else .error (.orderTooHigh tensor)
  else .error (.tooManyDimensions field)

def scalar (extents : List Nat) : Except FieldError FieldType :=
  of ⟨extents⟩ .point .float

def vector (extents : List Nat) (length : Nat) : Except FieldError FieldType :=
  of ⟨extents⟩ ⟨[length]⟩ .float

def matrix (extents : List Nat) (rows columns : Nat) : Except FieldError FieldType :=
  of ⟨extents⟩ ⟨[rows, columns]⟩ .float

def complex (extents : List Nat) : Except FieldError FieldType :=
  of ⟨extents⟩ .point .complex

/-- A field of pixels with some number of channels; grey pixels have none. -/
def pixel (extents : List Nat) (channels : Nat) : Except FieldError FieldType :=
  of ⟨extents⟩ (if channels = 0 then .point else ⟨[channels]⟩) .pixel

def dimensions (t : FieldType) : Nat := t.field.dimensions

def order (t : FieldType) : Nat := t.tensor.dimensions

def points (t : FieldType) : Nat := t.field.points

def elements (t : FieldType) : Nat := t.tensor.points

def total (t : FieldType) : Nat := t.points * t.elements

/-- The innermost field extent. -/
def columns (t : FieldType) : Nat := t.field.fromInner 0

/-- The second field extent from the inside. -/
def rows (t : FieldType) : Nat := t.field.fromInner 1

/-- The third field extent from the inside. -/
def layers (t : FieldType) : Nat := t.field.fromInner 2

def withElement (t : FieldType) (element : Element) : FieldType :=
  { t with element }

def withTensor (t : FieldType) (tensor : Shape) : Except FieldError FieldType :=
  of t.field tensor t.element

def withField (t : FieldType) (field : Shape) : Except FieldError FieldType :=
  of field t.tensor t.element

def render (t : FieldType) : String :=
  let tensor := match t.order with
    | 0 => "Scalar"
    | 1 => "Vector" ++ t.tensor.render
    | _ => "Matrix" ++ t.tensor.render
  tensor ++ t.element.name ++ "Field" ++ t.field.render

/-- The extents joined by a letter x, as they appear in kernel names. -/
def tag (t : FieldType) : String :=
  if t.field.extents.isEmpty then "point" else Text.joined "x" t.field.extents

theorem points_pos (t : FieldType) : 0 < t.points := Shape.points_pos t.field_pos

theorem elements_pos (t : FieldType) : 0 < t.elements := Shape.points_pos t.tensor_pos

theorem points_eq (t : FieldType) : t.points = t.layers * (t.rows * t.columns) := by
  have h := t.field_le
  simp only [points, layers, rows, columns, Shape.points, Shape.fromInner]
  simp only [Shape.dimensions, maxDimensions] at h
  generalize t.field.extents = extents at h
  rcases extents with _ | ⟨a, _ | ⟨b, _ | ⟨c, _ | ⟨d, rest⟩⟩⟩⟩
  · rfl
  · simp
  · simp
  · simp
  · simp only [List.length_cons] at h
    omega

end FieldType

end FieldCircuit
