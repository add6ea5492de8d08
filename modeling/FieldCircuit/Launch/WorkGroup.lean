import FieldCircuit.Device.Spec

/-!
# Launch geometry

A launch runs one work item per point of a box of up to three axes: columns first, then rows, then
layers. Work items are grouped, and on every axis the number of items is a multiple of the group
size, so that kernels guard against items outside the extents.
-/

namespace FieldCircuit

structure Axes where
  x : Nat
  y : Nat
  z : Nat
  deriving DecidableEq, Repr

namespace Axes

def product (a : Axes) : Nat := a.x * a.y * a.z

def toList (a : Axes) : List Nat := [a.x, a.y, a.z]

/-- Halves the greatest number; of equal ones the first. -/
def halveWidest (a : Axes) : Axes :=
  if a.y ≤ a.x ∧ a.z ≤ a.x then { a with x := a.x / 2 }
  else if a.z ≤ a.y then { a with y := a.y / 2 }
  else { a with z := a.z / 2 }

def inside (a bounds : Axes) : Bool := a.x < bounds.x && a.y < bounds.y && a.z < bounds.z

def positions (a : Axes) : List Axes :=
  (List.range a.z).flatMap fun k =>
    (List.range a.y).flatMap fun j =>
      (List.range a.x).map fun i => ⟨i, j, k⟩

end Axes

structure WorkGroup where
  dimensions : Nat
  /-- The box that the launch has to cover. -/
  extents : Axes
  /-- Work items on each axis. -/
  globalSize : Axes
  /-- Work items of one group on each axis. -/
  localSize : Axes
  deriving DecidableEq, Repr

namespace WorkGroup

/-- Group sizes of launches with one axis and with more. -/
def defaultLocal (dimensions : Nat) : Axes :=
  if dimensions ≤ 1 then ⟨256, 1, 1⟩ else ⟨16, 16, 1⟩

/-- Halves a group until it has at most `limit` items; `fuel` bounds the number of halvings. -/
def shrink (limit : Nat) : Nat → Axes → Axes
  | 0, size => size
  | fuel + 1, size =>
    if limit < size.product then shrink limit fuel size.halveWidest else size

/-- A group of at most `limit` items. Halving as often as the number of items has bits leaves a
single one. -/
def shrunk (limit : Nat) (size : Axes) : Axes :=
  shrink limit (Nat.log2 size.product + 1) size

def rounded (extent size : Nat) : Nat := ceilDiv extent size * size

/-- The extents of a launch from a list, the first axis first; missing and zero extents are one. -/
def padded (extents : List Nat) : Axes :=
  let axis i := Nat.max (extents.getD i 1) 1
  ⟨axis 0, axis 1, axis 2⟩

def axesOf (extents : List Nat) : Nat := Nat.min (Nat.max extents.length 1) 3

def localFor (dimensions : Nat) (box : Axes) (caps : Capabilities) : Axes :=
  let base := defaultLocal dimensions
  let size : Axes :=
    ⟨Nat.min base.x (ceilPowerOfTwo box.x), Nat.min base.y (ceilPowerOfTwo box.y),
      Nat.min base.z (ceilPowerOfTwo box.z)⟩
  shrunk (Nat.max caps.maxWorkgroup 1) size

/-- The launch that covers some extents. Every extent has to have a power of two above it. -/
def covering (extents : List Nat) (caps : Capabilities) : Except Fault WorkGroup :=
  let box := padded extents
  if box.toList.all (· ≤ signedBound) then
    let size := localFor (axesOf extents) box caps
    .ok
      { dimensions := axesOf extents
        extents := box
        globalSize := ⟨rounded box.x size.x, rounded box.y size.y, rounded box.z size.z⟩
        localSize := size }
  else .error .sizeOverflow

/-- A launch of rows of groups, each group having exactly `threads` items. -/
def ofGrid (dimensions groups rows threads : Nat) : Except Fault WorkGroup := do
  let threads := Nat.max threads 1
  let items ← checked (Nat.max groups 1 * threads)
  let box : Axes := ⟨items, Nat.max rows 1, 1⟩
  return ⟨dimensions, box, box, ⟨threads, 1, 1⟩⟩

def ofGroups (groups threads : Nat) : Except Fault WorkGroup := ofGrid 1 groups 1 threads

def groups (w : WorkGroup) : Axes :=
  ⟨w.globalSize.x / w.localSize.x, w.globalSize.y / w.localSize.y,
    w.globalSize.z / w.localSize.z⟩

def groupCount (w : WorkGroup) : Nat := w.groups.product

def localThreads (w : WorkGroup) : Nat := w.localSize.product

def globalThreads (w : WorkGroup) : Nat := w.globalSize.product

def workItems (w : WorkGroup) : List Axes := w.globalSize.positions

def activeItems (w : WorkGroup) : List Axes := w.workItems.filter (·.inside w.extents)

end WorkGroup

end FieldCircuit
