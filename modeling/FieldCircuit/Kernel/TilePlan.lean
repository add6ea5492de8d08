import FieldCircuit.Kernel.Error
import FieldCircuit.Launch.WorkGroup

/-!
# Tile plans

How an image is cut into tiles for a correlation with a small output. A workgroup owns one tile at a
time and has one thread per point of it. Besides the tile with its halo, local memory holds two
trees over the threads and a staging area with one word per output. The search takes the largest
workgroup for which all this fits.
-/

namespace FieldCircuit

def minTileThreads : Nat := 16

def maxReductionThreads : Nat := 256

def groupsPerUnit : Nat := 4

def wordBytes : Nat := 4

def groupLimit (caps : Capabilities) : Nat := Nat.max caps.computeUnits 1 * groupsPerUnit

/-- The power of two that a reducing workgroup starts from on a device. -/
def threadLimit (caps : Capabilities) : Nat :=
  floorPowerOfTwo (Nat.min caps.maxWorkgroup maxReductionThreads)

structure TilePlan where
  rows : Nat
  columns : Nat
  /-- Extent of the filter on both axes. -/
  size : Nat
  /-- Threads of a workgroup. -/
  threads : Nat
  tileRows : Nat
  tileColumns : Nat
  tilesDown : Nat
  tilesAcross : Nat
  /-- Workgroups, which take turns over the tiles. -/
  groups : Nat
  deriving DecidableEq, Repr

namespace TilePlan

/-- Doubles a number of columns until its square reaches the threads, so many times at most. -/
def widen (threads : Nat) : Nat → Nat → Nat
  | 0, columns => columns
  | fuel + 1, columns =>
    if columns * columns < threads then widen threads fuel (columns * 2) else columns

/-- Columns of a tile: the power of two at or above the square root of the threads. -/
def columnsFor (threads : Nat) : Nat :=
  Nat.min (widen threads threads 1) threads

def withThreads (rows columns size : Nat) (caps : Capabilities) (threads : Nat) : TilePlan :=
  let tileColumns := columnsFor threads
  let tileRows := threads / tileColumns
  let tilesDown := ceilDiv rows tileRows
  let tilesAcross := ceilDiv columns tileColumns
  { rows, columns, size, threads, tileRows, tileColumns, tilesDown, tilesAcross
    groups := Nat.max (Nat.min (tilesDown * tilesAcross) (groupLimit caps)) 1 }

variable (p : TilePlan)

def half : Nat := p.size / 2

def haloRows : Nat := p.tileRows + 2 * p.half

def haloColumns : Nat := p.tileColumns + 2 * p.half

def haloWords : Nat := p.haloRows * p.haloColumns

/-- Words of one tree: its nodes are numbered from one, and one word is padding. -/
def treeWords : Nat := 2 * p.threads + 1

def outputs : Nat := p.size * p.size

def localWords : Nat := p.haloWords + 2 * p.treeWords + p.outputs

def localBytes : Nat := p.localWords * wordBytes

def tiles : Nat := p.tilesDown * p.tilesAcross

def levels : Nat := Nat.log2 p.threads

/-- Iterations before the root of a tree holds its first sum. -/
def latency : Nat := p.levels - 1

def iterations : Nat := p.outputs + p.latency

def chained : Bool := 1 < p.groups

def fits (caps : Capabilities) : Bool :=
  p.tiles < sizeBound && groupLimit caps < sizeBound && p.localBytes < sizeBound

end TilePlan

namespace TilePlan

def searchFrom (rows columns size : Nat) (caps : Capabilities) :
    Nat → Nat → Except KernelError TilePlan
  | 0, _ => .error (.fault .outOfRange)
  | fuel + 1, threads =>
    let plan := withThreads rows columns size caps threads
    if !plan.fits caps then .error (.fault .sizeOverflow)
    else if plan.localBytes ≤ caps.localMemory then .ok plan
    else if threads / 2 < minTileThreads then
      .error (.localMemoryExhausted "filter adjoint" plan.localBytes caps.localMemory)
    else searchFrom rows columns size caps fuel (threads / 2)

/-- The plan with the most threads whose local memory fits the device, down to `minTileThreads`. -/
def search (rows columns size : Nat) (caps : Capabilities) : Except KernelError TilePlan :=
  let start := threadLimit caps
  searchFrom rows columns size caps (Nat.log2 start + 1) start

end TilePlan

end FieldCircuit
