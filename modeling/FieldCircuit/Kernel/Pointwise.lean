import FieldCircuit.Arithmetic
import FieldCircuit.Launch.PointMap

/-!
# Point operations

The kernel of an operation that treats every tensor element of every point on its own. A second
operand may be a single number, which is then used at every point.
-/

namespace FieldCircuit

inductive PointOp
  | unary (op : UnaryOp)
  | scale (factor : Float32)
  | offset (amount : Float32)
  | binary (op : BinaryOp)
  | complex (op : BinaryOp)
  deriving DecidableEq

namespace PointOp

def ofOpcode? : Opcode → Option PointOp
  | .unary op => some (unary op)
  | .scale x => some (scale x)
  | .offset x => some (offset x)
  | .binary op => some (binary op)
  | .complexBinary op => some (complex op)
  | _ => none

def operands : PointOp → Nat
  | binary _ | complex _ => 2
  | _ => 1

def description : PointOp → String
  | binary _ => "binary point operation"
  | complex _ => "complex point operation"
  | _ => "unary point operation"

def apply {α : Type} (ar : Arithmetic α) (op : PointOp) (a b : α) : α :=
  match op with
  | unary op => op.apply ar a
  | scale x => ar.mul a (ar.literal x)
  | offset x => ar.add a (ar.literal x)
  | binary op => op.apply ar a b
  | complex _ => ar.undefined

end PointOp

structure Pointwise where
  op : PointOp
  map : PointMap
  a : Layout
  b : Option Layout
  /-- Whether the second operand is a single number. -/
  broadcast : Bool
  out : Layout
  deriving DecidableEq

namespace Pointwise

/-- Where the second operand is read for an element of a point. -/
def secondIndex (k : Pointwise) (p : Point) (e : Nat) : Nat :=
  match k.b with
  | some layout => if k.broadcast then 0 else layout.elementAt p e
  | none => 0

def realStore {α : Type} (ar : Arithmetic α) (k : Pointwise) (a : Array α) (b : Option (Array α))
    (p : Point) (e : Nat) : Except Fault (List (Nat × α)) := do
  let x ← fetch a (k.a.elementAt p e)
  let y ← match b with
    | some b => fetch b (k.secondIndex p e)
    | none => pure ar.zero
  return [(k.out.elementAt p e, k.op.apply ar x y)]

/-- The stores for one complex element of a point: its real and its imaginary part. -/
def complexStores {α : Type} (ar : Arithmetic α) (k : Pointwise) (op : BinaryOp) (a b : Array α)
    (second : Layout) (p : Point) (e : Nat) : Except Fault (List (Nat × α)) := do
  let ia := k.a.elementAt p e
  let ib := k.secondIndex p e
  let io := k.out.elementAt p e
  let x := (← fetch a ia, ← fetch a (ia + k.a.partStride))
  let y := (← fetch b ib, ← fetch b (ib + second.partStride))
  let z := op.applyComplex ar x y
  return [(io, z.1), (io + k.out.partStride, z.2)]

def storesAt {α : Type} (ar : Arithmetic α) (k : Pointwise) (a : Array α) (b : Option (Array α))
    (visit : Point × Nat) : Except Fault (List (Nat × α)) :=
  match k.op with
  | .complex op =>
    match b, k.b with
    | some b, some second => complexStores ar k op a b second visit.1 visit.2
    | _, _ => .ok []
  | _ => realStore ar k a b visit.1 visit.2

def stores {α : Type} (ar : Arithmetic α) (k : Pointwise) (w : WorkGroup)
    (inputs : List (Array α)) : Except Fault (List (Nat × α)) := do
  let a ← fetch inputs.toArray 0
  let lists ← (k.map.visits w).mapM (storesAt ar k a inputs[1]?)
  return lists.flatten

end Pointwise

end FieldCircuit
