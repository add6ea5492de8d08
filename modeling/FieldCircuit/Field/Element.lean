/-!
# Kinds of field elements

What a field holds at each point of its tensors. On the accelerator every kind is stored as
single-precision words: a complex element takes two of them, one in each of two planes, and a pixel
is a number between zero and one. On the host a pixel takes one byte.
-/

namespace FieldCircuit

inductive Element
  | float
  | complex
  | pixel
  deriving DecidableEq, Repr

namespace Element

def all : List Element := [float, complex, pixel]

def name : Element → String
  | float => "Float"
  | complex => "Complex"
  | pixel => "Pixel"

def ofName? (s : String) : Option Element :=
  all.find? (·.name == s)

theorem ofName?_name (e : Element) : ofName? e.name = some e := by
  cases e <;> rfl

def parts : Element → Nat
  | complex => 2
  | _ => 1

def hostBytes : Element → Nat
  | pixel => 1
  | _ => 4

def isComplex (e : Element) : Bool :=
  e == complex

/-- The kind that arithmetic on this kind yields: pixels are read as numbers. -/
def arithmetic : Element → Element
  | pixel => float
  | e => e

@[simp] theorem arithmetic_ne_pixel (e : Element) : e.arithmetic ≠ pixel := by
  cases e <;> simp [arithmetic]

end Element

end FieldCircuit
