import FieldCircuit.Memory.Allocator

/-!
# Buffers

A buffer is a block of memory that holds a number of words in an encoding. Words cross the boundary
between host and accelerator by copying one buffer into another: pixels become numbers on the way
up and are rounded to bytes on the way down.
-/

namespace FieldCircuit

structure BufferFormat where
  /-- Number of words. -/
  length : Nat
  encoding : Encoding
  side : Side
  /-- Position of the allocator in the bank. -/
  home : Nat
  deriving DecidableEq, Repr

namespace BufferFormat

/-- The format of a buffer on a side; accelerator memory always holds numbers. -/
def on (side : Side) (home length : Nat) (encoding : Encoding) : BufferFormat :=
  { length, side, home, encoding := match side with
      | .accelerator => .single
      | .host => encoding }

def bytes (f : BufferFormat) : Nat := f.length * f.encoding.width

def block (f : BufferFormat) : BankM Contents := do
  let size ← (checked f.bytes : Except DeviceError Nat)
  Bank.alloc f.home size

end BufferFormat

structure Buffer where
  format : BufferFormat
  contents : Contents

namespace Buffer

def length (b : Buffer) : Nat := b.format.length

def allocate (home length : Nat) (encoding : Encoding) : BankM Buffer := do
  let side ← Bank.side home
  let format := BufferFormat.on side home length encoding
  return ⟨format, ← format.block⟩

def ofValues (side : Side) (home : Nat) (encoding : Encoding) (values : Array Float32) : Buffer :=
  let format := BufferFormat.on side home values.size encoding
  { format
    contents := match side with
      | .host => .bytes (format.encoding.encodeAll values.toList).toArray
      | .accelerator => .words values }

def release (b : Buffer) : BankM Unit := Bank.free b.format.home b.contents

def read (b : Buffer) : Except DeviceError (Array Float32) :=
  match b.contents with
  | .bytes _ => .ok ((b.contents.decoded b.format.encoding).extract 0 b.length)
  | .words data =>
    if b.length ≤ data.size then .ok (data.extract 0 b.length) else .error (.fault .outOfRange)

def write (b : Buffer) (values : Array Float32) : Except DeviceError Buffer :=
  if values.size ≠ b.length then .error (.sizeMismatch b.length values.size)
  else match b.contents with
    | .words data =>
      if b.length ≤ data.size then
        .ok { b with contents := b.contents.overwritten b.format.encoding values }
      else .error (.fault .outOfRange)
    | .bytes _ => .ok { b with contents := b.contents.overwritten b.format.encoding values }

/-- The words that a copy takes from a source buffer: all that its memory holds when the copy crosses
the boundary, and those of the buffer when it does not. -/
def offered (source : Buffer) (target : Contents) : Except DeviceError (Array Float32) :=
  match target, source.contents with
  | .words _, .bytes _ => .ok (source.contents.decoded source.format.encoding)
  | .bytes _, .words data => .ok data
  | _, _ => source.read

def copyFrom (b source : Buffer) : Except DeviceError Buffer :=
  if b.length ≠ source.length then .error (.sizeMismatch b.length source.length)
  else do
    let values ← source.offered b.contents
    match b.contents, source.contents with
    | .words data, .words _ =>
      if b.length ≤ data.size then
        return { b with contents := b.contents.overwritten b.format.encoding values }
      else throw (.fault .outOfRange)
    | _, _ => return { b with contents := b.contents.overwritten b.format.encoding values }

/-- The words that a kernel reaches; the buffer has to lie on the accelerator. -/
def view (b : Buffer) (access : Access) : Except DeviceError (Array Float32) :=
  match b.contents with
  | .words data =>
    if b.length ≤ data.size then .ok (data.extract 0 b.length) else .error (.fault .outOfRange)
  | .bytes _ => .error (.wrongSide access .host)

end Buffer

end FieldCircuit
