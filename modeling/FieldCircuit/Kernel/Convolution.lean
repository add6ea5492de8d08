import FieldCircuit.Arithmetic
import FieldCircuit.Launch.PointMap
import FieldCircuit.Opcode.Border

/-!
# Convolution

The kernel that convolves an image with a small array of odd extents. Every output point adds up
the products in row-major order of the small array, starting from zero; positions that a zero border
does not resolve are left out.
-/

namespace FieldCircuit

structure Convolution where
  border : Border
  map : PointMap
  image : Layout
  kernel : Layout
  deriving DecidableEq

namespace Convolution

/-- The position in the image that the `i`-th of `extent` taps reads around `center`. -/
def tap (center extent i : Nat) : Int := (center + extent / 2 : Nat) - (i : Int)

def taps (k : Convolution) : List (Nat × Nat) :=
  (List.range k.kernel.rows).flatMap fun i =>
    (List.range k.kernel.columns).map fun j => (i, j)

def addTap {α : Type} (ar : Arithmetic α) (k : Convolution) (image kernel : Array α) (p : Point)
    (sum : α) (t : Nat × Nat) : Except Fault α := do
  let row ← k.border.resolve (tap p.row k.kernel.rows t.1) k.image.rows
  let column ← k.border.resolve (tap p.column k.kernel.columns t.2) k.image.columns
  match row, column with
  | some row, some column =>
    let w ← fetch kernel (t.1 * k.kernel.columns + t.2)
    let x ← fetch image (k.image.pointIndex 0 row column)
    return ar.add sum (ar.mul w x)
  | _, _ => return sum

def valueAt {α : Type} (ar : Arithmetic α) (k : Convolution) (image kernel : Array α) (p : Point) :
    Except Fault α :=
  k.taps.foldlM (k.addTap ar image kernel p) ar.zero

def stores {α : Type} (ar : Arithmetic α) (k : Convolution) (w : WorkGroup)
    (inputs : List (Array α)) : Except Fault (List (Nat × α)) := do
  let image ← fetch inputs.toArray 0
  let kernel ← fetch inputs.toArray 1
  (k.map.points w).mapM fun p => do
    return (k.map.layout.pointIndex 0 p.row p.column, ← k.valueAt ar image kernel p)

end Convolution

end FieldCircuit
