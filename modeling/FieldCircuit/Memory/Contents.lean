import FieldCircuit.Memory.Error

/-!
# Blocks of memory

A block holds bytes on the host or single-precision words on the accelerator. Host bytes stand for
words in one of two encodings: four bytes for a number, least significant first, or one byte for a
pixel, which the accelerator sees as a number between zero and one.
-/

namespace FieldCircuit

inductive Contents
  | bytes (data : Array UInt8)
  | words (data : Array Float32)
  deriving DecidableEq

namespace Contents

def size : Contents → Nat
  | bytes data => data.size
  | words data => data.size * 4

def side : Contents → Side
  | bytes _ => .host
  | words _ => .accelerator

def cleared : Contents → Contents
  | bytes data => bytes (Array.replicate data.size 0)
  | words data => words (Array.replicate data.size 0.0)

@[simp] theorem size_cleared (c : Contents) : c.cleared.size = c.size := by
  cases c <;> simp [cleared, size]

end Contents

inductive Encoding
  | single
  | pixel
  deriving DecidableEq, Repr

namespace Encoding

def name : Encoding → String
  | single => "F32"
  | pixel => "U8Normalized"

def width : Encoding → Nat
  | single => 4
  | pixel => 1

/-- The byte of a pixel: the number is cut to the unit interval and spread over the bytes, a half
going up. An undefined number is zero. -/
def pixelByte (x : Float32) : UInt8 :=
  let unit := if x < 0.0 then 0.0 else if 1.0 < x then 1.0 else x
  let y := unit * 255.0
  let whole := y.toUInt8
  if 0.5 ≤ y - whole.toFloat32 then whole + 1 else whole

def pixelWord (b : UInt8) : Float32 := b.toFloat32 / 255.0

def encode (e : Encoding) (x : Float32) : List UInt8 :=
  match e with
  | single =>
    let n := x.toBits
    [n.toUInt8, (n >>> 8).toUInt8, (n >>> 16).toUInt8, (n >>> 24).toUInt8]
  | pixel => [pixelByte x]

def singleWord (a b c d : UInt8) : Float32 :=
  Float32.ofBits
    (a.toUInt32 ||| (b.toUInt32 <<< 8) ||| (c.toUInt32 <<< 16) ||| (d.toUInt32 <<< 24))

/-- The words of a sequence of bytes; bytes that do not fill a word are left over. -/
def decodeSingles : List UInt8 → List Float32
  | a :: b :: c :: d :: rest => singleWord a b c d :: decodeSingles rest
  | _ => []

def decodeAll (e : Encoding) (bytes : List UInt8) : List Float32 :=
  match e with
  | single => decodeSingles bytes
  | pixel => bytes.map pixelWord

def encodeAll (e : Encoding) (words : List Float32) : List UInt8 :=
  words.flatMap e.encode

@[simp] theorem length_encode (e : Encoding) (x : Float32) : (e.encode x).length = e.width := by
  cases e <;> rfl

theorem length_encodeAll (e : Encoding) (words : List Float32) :
    (e.encodeAll words).length = words.length * e.width := by
  induction words with
  | nil => simp [encodeAll]
  | cons x rest ih =>
    simp only [encodeAll, List.flatMap_cons, List.length_append, length_encode] at ih ⊢
    rw [ih, List.length_cons, Nat.succ_mul, Nat.add_comm]

end Encoding

namespace Contents

def decoded (e : Encoding) : Contents → Array Float32
  | bytes data => (e.decodeAll data.toList).toArray
  | words data => data

/-- The block with its first words replaced, as many as there are values and room. -/
def overwritten (e : Encoding) (values : Array Float32) : Contents → Contents
  | bytes data =>
    let fresh := e.encodeAll (values.toList.take (data.size / e.width))
    bytes (fresh ++ data.toList.drop fresh.length).toArray
  | words data =>
    words (values.extract 0 data.size ++ data.extract values.size data.size)

end Contents

end FieldCircuit
