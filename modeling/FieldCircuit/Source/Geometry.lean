import FieldCircuit.Field.Layout

/-!
# Geometry of fields in source text

Kernels refer to the extents and strides of a field, and to its words, through definitions at the
head of their source. Complex fields also have accessors for their imaginary parts.
-/

namespace FieldCircuit.Geometry

def capitalized (name : String) : String :=
  match name.toList with
  | [] => ""
  | c :: rest => String.ofList (c.toUpper :: rest)

def offset (name : String) : String :=
  s!"(_tensorElement)*{name}_tensorStride + (_layer)*{name}_layerStride + " ++
    s!"(_row)*{name}_rowStride + (_column)"

def constant (name key : String) (value : Nat) : String := s!"#define {name}_{key} {value}"

def accessors (suffix place : String) : List String :=
  [s!"#define read{suffix}(_layer,_row,_column,_tensorElement) {place}",
    s!"#define write{suffix}(_layer,_row,_column,_tensorElement,_value) {place} = (_value)"]

def definitions (name : String) (t : FieldType) : List String :=
  let l := t.layout
  let suffix := capitalized name
  [s!"// {name}: {t.render}",
    constant name "layers" l.layers,
    constant name "rows" l.rows,
    constant name "columns" l.columns,
    constant name "layerStride" l.layerStride,
    constant name "rowStride" l.rowStride,
    constant name "tensorStride" l.tensorStride,
    constant name "partStride" l.partStride,
    constant name "tensorElements" l.elements] ++
  accessors suffix s!"{name}[{offset name}]" ++
  if t.element.isComplex then
    accessors (suffix ++ "Imag") s!"{name}[{name}_partStride + {offset name}]"
  else []

def definitions? (name : String) (t : FieldType) : Except Fault (List String) := do
  let _ ← t.layout?
  return definitions name t

def parameters (inputs outputs : List String) : String :=
  ", ".intercalate
    (inputs.map (fun n => s!"__global const float* restrict {n}") ++
      outputs.map fun n => s!"__global float* restrict {n}")

end FieldCircuit.Geometry
