import FieldCircuit.Decimal.Shortest

/-!
# Layouts of single-precision numbers

Two ways of writing a number in its shortest decimal. The plain layout is always positional and
writes integers without a point. The literal layout keeps a point, and changes to an exponent where
the positional form would be long.
-/

namespace FieldCircuit.Decimal

structure Style where
  /-- Whether an integer is followed by a point and a zero. -/
  keepsPoint : Bool
  /-- The decimal exponents that are written positionally: at least the first, below the second. -/
  positional : Option (Int × Int)

/-- Parameters of operations: always positional, integers without a point. -/
def plain : Style := ⟨false, none⟩

/-- Literals in kernel source: positional from `10 ^ (-4)` up to `10 ^ 16`, always with a point. -/
def literal : Style := ⟨true, some (-4, 16)⟩

def digitText (ds : List Nat) : String :=
  String.ofList (ds.map Nat.digitChar)

def zeros (n : Nat) : String :=
  String.ofList (List.replicate n '0')

def Digits.positional (d : Digits) (keepsPoint : Bool) : String :=
  let n : Int := d.digits.length
  if d.point ≤ 0 then "0." ++ zeros (-d.point).toNat ++ digitText d.digits
  else if d.point < n then
    digitText (d.digits.take d.point.toNat) ++ "." ++ digitText (d.digits.drop d.point.toNat)
  else
    digitText d.digits ++ zeros (d.point - n).toNat ++ if keepsPoint then ".0" else ""

/-- The form with one digit before the point and an exponent. -/
def Digits.scientific (d : Digits) : String :=
  let tail := d.digits.drop 1
  digitText (d.digits.take 1) ++ (if tail.isEmpty then "" else "." ++ digitText tail) ++
    "e" ++ toString (d.point - 1)

def Digits.layout (style : Style) (d : Digits) : String :=
  match style.positional with
  | some (low, high) =>
    if low ≤ d.point - 1 ∧ d.point - 1 < high then d.positional style.keepsPoint
    else d.scientific
  | none => d.positional style.keepsPoint

def finiteText (style : Style) (x : Float32) : String :=
  let bits := x.toBits.toNat
  let magnitude := bits % signBit
  let sign := if bits < signBit then "" else "-"
  if magnitude = 0 then sign ++ if style.keepsPoint then "0.0" else "0"
  else sign ++ (shortest magnitude).layout style

def parameterText (x : Float32) : String :=
  if x.isNaN then "NaN"
  else if x.isInf then if 0 < x then "inf" else "-inf"
  else finiteText plain x

def literalText (x : Float32) : String :=
  if x.isNaN then "NAN"
  else if x.isInf then if 0 < x then "INFINITY" else "-INFINITY"
  else finiteText literal x ++ "f"

end FieldCircuit.Decimal
