import FieldCircuit.Opcode.Basic

/-!
# Arithmetic on words

Kernels are written over an arbitrary kind of words with the operations they need, collected in an
`Arithmetic`. The words of the accelerator are `Arithmetic.single`: single precision numbers, each
operation rounding on its own. Reading the same kernels over a ring or over exact reals is what
statements about their results are about.
-/

namespace FieldCircuit

/-- The operations that kernels perform on words. -/
structure Arithmetic (α : Type) where
  zero : α
  one : α
  half : α
  /-- The neutral element of `max`. -/
  lowest : α
  /-- The result of an operation that is not defined. -/
  undefined : α
  /-- The word of a literal parameter. -/
  literal : Float32 → α
  neg : α → α
  abs : α → α
  exp : α → α
  log : α → α
  sqrt : α → α
  sin : α → α
  cos : α → α
  tanh : α → α
  add : α → α → α
  sub : α → α → α
  mul : α → α → α
  div : α → α → α
  max : α → α → α
  min : α → α → α
  /-- Real and imaginary part of the `k`-th power of the primitive `n`-th root of unity that a
  transform in the given direction uses. -/
  twiddle : Direction → (n k : Nat) → α × α

namespace Arithmetic

def pi : Float := Float.ofBits 0x400921FB54442D18

def twiddleAngle (direction : Direction) (n k : Nat) : Float :=
  let sign : Float := match direction with
    | .forward => -1.0
    | .inverse => 1.0
  sign * 2.0 * pi * Float.ofNat k / Float.ofNat n

/-- Single precision. A maximum or minimum with an undefined number is the other one. Twiddle factors
are computed in double precision and rounded once. -/
def single : Arithmetic Float32 where
  zero := 0.0
  one := 1.0
  half := 0.5
  lowest := Float32.ofBits 0xFF800000
  undefined := Float32.ofBits 0x7FC00000
  literal := id
  neg x := -x
  abs x := x.abs
  exp x := x.exp
  log x := x.log
  sqrt x := x.sqrt
  sin x := x.sin
  cos x := x.cos
  tanh x := x.tanh
  add x y := x + y
  sub x y := x - y
  mul x y := x * y
  div x y := x / y
  max x y := if x.isNaN then y else if x < y then y else x
  min x y := if x.isNaN then y else if y < x then y else x
  twiddle direction n k :=
    let angle := twiddleAngle direction n k
    (angle.cos.toFloat32, angle.sin.toFloat32)

end Arithmetic

namespace UnaryOp

def apply {α : Type} (ar : Arithmetic α) (op : UnaryOp) (x : α) : α :=
  match op with
  | negate => ar.neg x
  | abs => ar.abs x
  | exp => ar.exp x
  | log => ar.log x
  | sqrt => ar.sqrt x
  | sin => ar.sin x
  | cos => ar.cos x
  | tanh => ar.tanh x
  | sigmoid => ar.div ar.one (ar.add ar.one (ar.exp (ar.neg x)))

end UnaryOp

namespace BinaryOp

def apply {α : Type} (ar : Arithmetic α) (op : BinaryOp) (a b : α) : α :=
  match op with
  | add => ar.add a b
  | subtract => ar.sub a b
  | multiply => ar.mul a b
  | divide => ar.div a b
  | max => ar.max a b
  | min => ar.min a b

def applyComplex {α : Type} (ar : Arithmetic α) (op : BinaryOp) (a b : α × α) : α × α :=
  match op with
  | add => (ar.add a.1 b.1, ar.add a.2 b.2)
  | subtract => (ar.sub a.1 b.1, ar.sub a.2 b.2)
  | multiply =>
    (ar.sub (ar.mul a.1 b.1) (ar.mul a.2 b.2), ar.add (ar.mul a.1 b.2) (ar.mul a.2 b.1))
  | divide =>
    let d := ar.add (ar.mul b.1 b.1) (ar.mul b.2 b.2)
    (ar.div (ar.add (ar.mul a.1 b.1) (ar.mul a.2 b.2)) d,
      ar.div (ar.sub (ar.mul a.2 b.1) (ar.mul a.1 b.2)) d)
  | max | min => (ar.undefined, ar.undefined)

end BinaryOp

namespace ReduceOp

def identity {α : Type} (ar : Arithmetic α) : ReduceOp → α
  | sum => ar.zero
  | max => ar.lowest

def combine {α : Type} (ar : Arithmetic α) (op : ReduceOp) (a b : α) : α :=
  match op with
  | sum => ar.add a b
  | max => ar.max a b

end ReduceOp

end FieldCircuit
