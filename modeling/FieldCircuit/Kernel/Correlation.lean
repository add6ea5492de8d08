import FieldCircuit.Arithmetic
import FieldCircuit.Kernel.TilePlan

/-!
# Tiled correlation

The kernel that correlates an image with a field of the same shape for a small square of shifts. Each
workgroup takes its tiles in turn. For a tile it loads the image with a halo into local memory, zero
outside the image, and one word of the field per thread. Then one shift is issued per iteration:
every thread writes the product for the shift into a leaf of a tree, and every inner node of the
tree adds its two children.

The tree is a heap: node 1 is the root, node `n` has the children `2 n` and `2 n + 1`, and the leaves
are the nodes from the number of threads on. Two buffers alternate. Leaves are read in the buffer of
the current iteration and inner nodes in that of the previous one, so that sums move one level
per iteration and the root completes one shift in each iteration once the pipeline is full.
-/

namespace FieldCircuit

/-- The word of a tree that holds a node; one word of padding keeps the children that two halves of a
warp read apart. -/
def nodeSlot (node : Nat) : Nat := node + if 32 ≤ node then 1 else 0

def childBase (lid : Nat) : Nat := 2 * lid + if 16 ≤ lid then 1 else 0

/-- The words of a node and of its first child, provided that both fit a machine size. -/
def treeSlots (node : Nat) : Except Fault (List Nat) :=
  [nodeSlot node, childBase node].mapM checked

structure Correlation where
  plan : TilePlan
  deriving DecidableEq

namespace Correlation

/-- Local memory of a workgroup, and the number of sums staged for the current tile. -/
structure LocalMemory (α : Type) where
  halo : Array α
  /-- The tree of the even iterations. -/
  even : Array α
  /-- The tree of the odd iterations. -/
  odd : Array α
  staging : Array α

variable {α : Type}

def tileRow (p : TilePlan) (tile : Nat) : Nat := tile / p.tilesAcross * p.tileRows

def tileColumn (p : TilePlan) (tile : Nat) : Nat := tile % p.tilesAcross * p.tileColumns

def interior (p : TilePlan) (r0 c0 : Nat) : Bool :=
  p.half ≤ r0 && p.half ≤ c0 && r0 + p.tileRows + p.half ≤ p.rows &&
    c0 + p.tileColumns + p.half ≤ p.columns

def sample (ar : Arithmetic α) (p : TilePlan) (image : Array α) (r c : Int) : Except Fault α :=
  if 0 ≤ r ∧ r < p.rows ∧ 0 ≤ c ∧ c < p.columns then fetch image (r.toNat * p.columns + c.toNat)
  else .ok ar.zero

/-- The `k`-th word of the halo of a tile. Inside the image no position is checked. -/
def haloWord (ar : Arithmetic α) (p : TilePlan) (image : Array α) (r0 c0 k : Nat) :
    Except Fault α :=
  let kr := k / p.haloColumns
  let kc := k % p.haloColumns
  if interior p r0 c0 then fetch image ((r0 - p.half + kr) * p.columns + c0 - p.half + kc)
  else sample ar p image ((r0 + kr : Nat) - (p.half : Int)) ((c0 + kc : Nat) - (p.half : Int))

def loadHalo (ar : Arithmetic α) (p : TilePlan) (image : Array α) (r0 c0 : Nat)
    (threads : List Nat) (halo : Array α) : Except Fault (Array α) :=
  threads.foldlM (fun halo lid =>
    (strided lid p.haloWords p.threads).foldlM (fun halo k => do
      store halo k (← haloWord ar p image r0 c0 k)) halo) halo

/-- The word of the field that a thread multiplies with; zero outside the field. -/
def weight (ar : Arithmetic α) (p : TilePlan) (field : Array α) (r0 c0 lid : Nat) :
    Except Fault α :=
  let r := r0 + lid / p.tileColumns
  let c := c0 + lid % p.tileColumns
  if r < p.rows ∧ c < p.columns then fetch field (r * p.columns + c) else .ok ar.zero

def writeLeaves (ar : Arithmetic α) (p : TilePlan) (halo weights : Array α) (it : Nat)
    (threads : List Nat) (current : Array α) : Except Fault (Array α) :=
  threads.foldlM (fun current lid => do
    let u := it / p.size
    let v := it % p.size
    let tr := lid / p.tileColumns
    let tc := lid % p.tileColumns
    let x ← fetch halo ((tr + u) * p.haloColumns + tc + v)
    let g ← fetch weights lid
    store current (nodeSlot (p.threads + lid)) (ar.mul x g)) current

def nodeSum (ar : Arithmetic α) (p : TilePlan) (current previous : Array α) (lid : Nat) :
    Except Fault α := do
  let tree := if p.threads ≤ 2 * lid then current else previous
  return ar.add (← fetch tree (childBase lid)) (← fetch tree (childBase lid + 1))

/-- The trees' current buffer, the staging area and the number of staged sums. -/
structure Sums (α : Type) where
  current : Array α
  staging : Array α
  staged : Nat

/-- Some threads compute their nodes. The root goes to the staging area once the pipeline is full;
thread zero has no node. -/
def sumNodes (ar : Arithmetic α) (p : TilePlan) (previous : Array α) (it : Nat)
    (threads : List Nat) (sums : Sums α) : Except Fault (Sums α) :=
  threads.foldlM (fun ⟨current, staging, staged⟩ lid => do
    let sum ← nodeSum ar p current previous lid
    if lid = 1 then
      if p.latency ≤ it then
        let old ← fetch staging staged
        return ⟨current, ← store staging staged (ar.add old sum), staged + 1⟩
      else return ⟨current, staging, staged⟩
    else return ⟨← store current (nodeSlot lid) sum, staging, staged⟩) sums

def nodeThreads (p : TilePlan) : List Nat := (List.range (p.threads - 1)).map (· + 1)

/-- Both phases of one iteration on the two buffers of the trees. -/
def phases (ar : Arithmetic α) (p : TilePlan) (halo weights : Array α) (it : Nat)
    (previous : Array α) (sums : Sums α) : Except Fault (Sums α) := do
  let ⟨current, staging, staged⟩ := sums
  let current ← if it < p.outputs then
      writeLeaves ar p halo weights it (List.range p.threads) current
    else pure current
  sumNodes ar p previous it (nodeThreads p) ⟨current, staging, staged⟩

def iterate (ar : Arithmetic α) (p : TilePlan) (weights : Array α)
    (state : LocalMemory α × Nat) (it : Nat) : Except Fault (LocalMemory α × Nat) := do
  let (⟨halo, even, odd, staging⟩, staged) := state
  if it % 2 = 1 then
    let s ← phases ar p halo weights it even ⟨odd, staging, staged⟩
    return (⟨halo, even, s.current, s.staging⟩, s.staged)
  else
    let s ← phases ar p halo weights it odd ⟨even, staging, staged⟩
    return (⟨halo, s.current, odd, s.staging⟩, s.staged)

/-- One tile: its contribution to every output is added to the staging area. -/
def tile (ar : Arithmetic α) (p : TilePlan) (image field : Array α) (m : LocalMemory α)
    (t : Nat) : Except Fault (LocalMemory α) := do
  let r0 := tileRow p t
  let c0 := tileColumn p t
  let ⟨halo, even, odd, staging⟩ := m
  let halo ← loadHalo ar p image r0 c0 (List.range p.threads) halo
  let weights ← (List.range p.threads).mapM (weight ar p field r0 c0)
  let (m, _) ← (List.range p.iterations).foldlM (iterate ar p weights.toArray)
    (⟨halo, even, odd, staging⟩, 0)
  return m

/-- One workgroup: the staging area is cleared and its tiles are taken in turn. -/
def group (ar : Arithmetic α) (p : TilePlan) (image field : Array α) (m : LocalMemory α)
    (g : Nat) : Except Fault (LocalMemory α) :=
  (strided g p.tiles p.groups).foldlM (tile ar p image field)
    { m with staging := Array.replicate p.outputs ar.zero }

def LocalMemory.initial (ar : Arithmetic α) (p : TilePlan) : LocalMemory α :=
  let clear n := Array.replicate n ar.zero
  ⟨clear p.haloWords, clear p.treeWords, clear p.treeWords, clear p.outputs⟩

/-- The stores of a launch: each workgroup leaves its staging area in a row of its own. -/
def stores (ar : Arithmetic α) (k : Correlation) (w : WorkGroup)
    (inputs : List (Array α)) : Except Fault (List (Nat × α)) := do
  let image ← fetch inputs.toArray 0
  let field ← fetch inputs.toArray 1
  let p := k.plan
  let (_, rows) ← (List.range w.groupCount).foldlM (fun (m, rows) g => do
    let m ← group ar p image field m g
    let row := m.staging.toList.zipIdx.map fun (x, i) => (g * p.outputs + i, x)
    return (m, row :: rows)) (LocalMemory.initial ar p, [])
  return rows.reverse.flatten

end Correlation

end FieldCircuit
