import FieldCircuit.Decimal.Rounding
import FieldCircuit.Text.Number

/-!
# Reading single-precision numbers

A number is an optional sign followed by `inf`, `infinity` or `nan` in any case, or by a decimal:
digits with at most one point and at least one digit, and an optional exponent. The decimal is
rounded to the nearest number of single precision, a tie going to the even last bit.
-/

namespace FieldCircuit.Decimal

open FieldCircuit.Text

/-- The leading decimal digits of a text, and what follows them. -/
def spanDigits (s : List Char) : List Char × List Char :=
  (s.takeWhile Char.isDigit, s.dropWhile Char.isDigit)

def digitsValue (ds : List Char) : Nat :=
  ds.foldl (fun n c => 10 * n + (c.toNat - '0'.toNat)) 0

def exponent? : List Char → Option Int
  | [] => some 0
  | c :: rest =>
    if c = 'e' ∨ c = 'E' then
      match rest with
      | '-' :: ds => (unsigned? ds).map fun n => -(n : Int)
      | '+' :: ds => (unsigned? ds).map fun n => (n : Int)
      | ds => (unsigned? ds).map fun n => (n : Int)
    else none
where
  unsigned? (ds : List Char) : Option Nat :=
    if ds.isEmpty || !ds.all Char.isDigit then none else some (digitsValue ds)

/-- Bits of the number nearest to `m * 10 ^ e`. Magnitudes far outside the range of single precision
are decided by their decimal exponent alone. -/
def bitsOfDecimal (m : Nat) (e : Int) : Nat :=
  if m = 0 then 0
  else
    let magnitude := e + (Nat.toDigits 10 m).length
    if 50 < magnitude then infinityBits
    else if magnitude < -60 then 0
    else match e with
      | .ofNat n => bitsOfRatio (m * Nat.pow 10 n) 1
      | .negSucc n => bitsOfRatio m (Nat.pow 10 (n + 1))

def decimalBits? (s : List Char) : Option Nat :=
  let (whole, rest) := spanDigits s
  let (fraction, rest) := match rest with
    | '.' :: r => spanDigits r
    | r => ([], r)
  if whole.isEmpty && fraction.isEmpty then none
  else (exponent? rest).map fun e =>
    bitsOfDecimal (digitsValue (whole ++ fraction)) (e - fraction.length)

/-- Bits that stand for the absence of a number. -/
def nanBits : Nat := 0x7FC00000

/-- Bits of an unsigned number or of the name of a special value. -/
def unsignedBits? (s : List Char) : Option Nat :=
  let name := String.ofList (s.map Char.toLower)
  if name = "inf" ∨ name = "infinity" then some infinityBits
  else if name = "nan" then some nanBits
  else decimalBits? s

def single? (s : List Char) : Option Float32 :=
  match s with
  | '-' :: rest => (unsignedBits? rest).map fun b => Float32.ofBits (UInt32.ofNat (b + signBit))
  | '+' :: rest => (unsignedBits? rest).map fun b => Float32.ofBits (UInt32.ofNat b)
  | s => (unsignedBits? s).map fun b => Float32.ofBits (UInt32.ofNat b)

end FieldCircuit.Decimal
