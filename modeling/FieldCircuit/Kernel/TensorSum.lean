import FieldCircuit.Arithmetic
import FieldCircuit.Launch.PointMap

/-!
# Sums of tensor elements

The kernel that adds up the tensor elements at every point, in their order and starting from zero.
-/

namespace FieldCircuit

structure TensorSum where
  map : PointMap
  input : Layout
  output : Layout
  deriving DecidableEq

namespace TensorSum

def sumAt {α : Type} (ar : Arithmetic α) (k : TensorSum) (input : Array α) (p : Point) :
    Except Fault α :=
  (List.range k.input.elements).foldlM
    (fun acc e => do return ar.add acc (← fetch input (k.input.elementAt p e))) ar.zero

def stores {α : Type} (ar : Arithmetic α) (k : TensorSum) (w : WorkGroup)
    (inputs : List (Array α)) : Except Fault (List (Nat × α)) := do
  let input ← fetch inputs.toArray 0
  (k.map.points w).mapM fun p => do
    return (k.output.at p, ← k.sumAt ar input p)

end TensorSum

end FieldCircuit
