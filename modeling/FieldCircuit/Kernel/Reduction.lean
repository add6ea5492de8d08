import FieldCircuit.Arithmetic
import FieldCircuit.Launch.WorkGroup

/-!
# Reductions

Words are dealt out to the threads of a workgroup, each thread combines its own, and a halving tree
combines the threads. A plane reduction reduces every plane of a field with a number of workgroups;
a block reduction combines the partial results that the workgroups of an earlier kernel have left
in the columns of an array.
-/

namespace FieldCircuit.Reduction

/-- The distances of the phases of a halving tree over `n` words: half of `n`, a quarter, and so
on down to one. -/
def halvings (n : Nat) : List Nat :=
  (List.range (Nat.log2 n)).map fun i => n / Nat.pow 2 (i + 1)

/-- One phase of a halving tree, carried out by some threads in order: each thread combines its word
with the one `distance` further on. -/
def halve {α : Type} (combine : α → α → α) (distance : Nat) (threads : List Nat)
    (scratch : Array α) : Except Fault (Array α) :=
  threads.foldlM (fun scratch lid => do
    let x ← fetch scratch lid
    let y ← fetch scratch (lid + distance)
    store scratch lid (combine x y)) scratch

def treeReduce {α : Type} (combine : α → α → α) (scratch : Array α) : Except Fault α := do
  let scratch ← (halvings scratch.size).foldlM
    (fun scratch s => halve combine s (List.range s) scratch) scratch
  fetch scratch 0

def accumulate {α : Type} (ar : Arithmetic α) (op : ReduceOp) (words : Array α)
    (indices : List Nat) : Except Fault α :=
  indices.foldlM (fun acc i => do return op.combine ar acc (← fetch words i)) (op.identity ar)

/-- A workgroup: thread `lid` combines the words at `share lid`, then a tree combines the threads. -/
def workgroup {α : Type} (ar : Arithmetic α) (op : ReduceOp) (words : Array α) (threads : Nat)
    (share : Nat → List Nat) : Except Fault α := do
  let scratch ← (List.range threads).mapM fun lid => accumulate ar op words (share lid)
  treeReduce (op.combine ar) scratch.toArray

end FieldCircuit.Reduction

namespace FieldCircuit

/-- A kernel that reduces every plane of a field, with a number of workgroups per plane. -/
structure PlaneReduction where
  op : ReduceOp
  points : Nat
  groups : Nat
  elements : Nat
  deriving DecidableEq

namespace PlaneReduction

def share (k : PlaneReduction) (threads element group lid : Nat) : List Nat :=
  (strided (group * threads + lid) k.points (k.groups * threads)).map (element * k.points + ·)

/-- The stores of a launch: row `group` and column `element` of an array of partial results. -/
def stores {α : Type} (ar : Arithmetic α) (k : PlaneReduction) (w : WorkGroup)
    (inputs : List (Array α)) : Except Fault (List (Nat × α)) := do
  let input ← fetch inputs.toArray 0
  let threads := w.localThreads
  let jobs := (List.range k.elements).flatMap fun e => (List.range k.groups).map fun g => (e, g)
  jobs.mapM fun (e, g) => do
    return (g * k.elements + e, ← Reduction.workgroup ar k.op input threads (k.share threads e g))

end PlaneReduction

/-- A kernel that reduces the columns of an array of partial results, one workgroup per column. -/
structure BlockReduction where
  op : ReduceOp
  groups : Nat
  width : Nat
  deriving DecidableEq

namespace BlockReduction

def share (k : BlockReduction) (threads column lid : Nat) : List Nat :=
  (strided lid k.groups threads).map (· * k.width + column)

def stores {α : Type} (ar : Arithmetic α) (k : BlockReduction) (w : WorkGroup)
    (inputs : List (Array α)) : Except Fault (List (Nat × α)) := do
  let input ← fetch inputs.toArray 0
  let threads := w.localThreads
  (List.range (Nat.min w.groupCount k.width)).mapM fun column => do
    return (column, ← Reduction.workgroup ar k.op input threads (k.share threads column))

end BlockReduction

end FieldCircuit
