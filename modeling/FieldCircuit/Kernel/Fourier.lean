import FieldCircuit.Arithmetic
import FieldCircuit.Field.Layout
import FieldCircuit.Launch.WorkGroup

/-!
# Fourier passes

A transform of a power-of-two length is a sequence of passes, each combining pairs of transforms of
length `span` into transforms of twice that length. A pass reads one buffer and writes another and
leaves the samples in their natural order. Lines along rows are transformed first, then lines along
columns. The inverse transform halves the result of every pass.
-/

namespace FieldCircuit

structure FourierPass where
  direction : Direction
  /-- Length of the transform. -/
  n : Nat
  /-- Length of the transforms that have been put together already. -/
  span : Nat
  /-- Distance between the samples of a line. -/
  stride : Nat
  /-- Number of lines. -/
  lines : Nat
  /-- Distance between lines. -/
  lineStride : Nat
  /-- Distance from the real to the imaginary plane. -/
  part : Nat
  deriving DecidableEq, Repr

namespace FourierPass

def scale {α : Type} (ar : Arithmetic α) : Direction → α
  | .forward => ar.one
  | .inverse => ar.half

def twiddles {α : Type} (ar : Arithmetic α) (direction : Direction) (n : Nat) : Array (α × α) :=
  ((List.range (n / 2)).map (ar.twiddle direction n)).toArray

/-- The position of butterfly `j` among the transforms that have been put together. -/
def offset (f : FourierPass) (j : Nat) : Nat := j % f.span

def twiddleIndex (f : FourierPass) (j : Nat) : Nat := f.offset j * (f.n / (2 * f.span))

def sampleIndex (f : FourierPass) (line i : Nat) : Nat := line * f.lineStride + i * f.stride

/-- The first sample that butterfly `j` writes; the second is `span` samples further on. -/
def target (f : FourierPass) (j : Nat) : Nat := (j - f.offset j) * 2 + f.offset j

def sample {α : Type} (f : FourierPass) (source : Array α) (line i : Nat) :
    Except Fault (α × α) := do
  let k := f.sampleIndex line i
  return (← fetch source k, ← fetch source (f.part + k))

def sampleStores {α : Type} (f : FourierPass) (line i : Nat) (x : α × α) : List (Nat × α) :=
  let k := f.sampleIndex line i
  [(k, x.1), (f.part + k, x.2)]

def butterfly {α : Type} (ar : Arithmetic α) (f : FourierPass) (table : Array (α × α))
    (source : Array α) (line j : Nat) : Except Fault (List (Nat × α)) := do
  let (ar₀, ai) ← f.sample source line j
  let (xr, xi) ← f.sample source line (j + f.n / 2)
  let (wr, wi) ← fetch table (f.twiddleIndex j)
  let br := ar.sub (ar.mul xr wr) (ar.mul xi wi)
  let bi := ar.add (ar.mul xr wi) (ar.mul xi wr)
  let s := scale ar f.direction
  let d := f.target j
  return f.sampleStores line d (ar.mul (ar.add ar₀ br) s, ar.mul (ar.add ai bi) s) ++
    f.sampleStores line (d + f.span) (ar.mul (ar.sub ar₀ br) s, ar.mul (ar.sub ai bi) s)

def stores {α : Type} (ar : Arithmetic α) (f : FourierPass) (w : WorkGroup)
    (inputs : List (Array α)) : Except Fault (List (Nat × α)) := do
  let source ← fetch inputs.toArray 0
  let table := twiddles ar f.direction f.n
  let lists ← w.activeItems.mapM fun id => f.butterfly ar table source id.y id.x
  return lists.flatten

/-- The lengths of the transforms that the passes of a transform start from. -/
def spans (n : Nat) : List Nat :=
  (List.range (if n ≤ 1 then 0 else Nat.log2 (n - 1) + 1)).map (Nat.pow 2)

def alongAxis (direction : Direction) (part n stride lines lineStride : Nat) : List FourierPass :=
  (spans n).map fun span => { direction, n, span, stride, lines, lineStride, part }

/-- The passes of a transform in the order they run: along rows, then along columns. -/
def plan (t : FieldType) (direction : Direction) : List FourierPass :=
  let l := t.layout
  alongAxis direction l.partStride l.columns 1 l.rows l.rowStride ++
    if t.dimensions = 2 then
      alongAxis direction l.partStride l.rows l.rowStride l.columns 1
    else []

def plan? (t : FieldType) (direction : Direction) : Except Fault (List FourierPass) := do
  let _ ← t.layout?
  return plan t direction

end FourierPass

end FieldCircuit
