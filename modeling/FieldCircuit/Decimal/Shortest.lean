import FieldCircuit.Decimal.Rounding

/-!
# Shortest decimals

The decimal with the fewest digits among those that round to a given single-precision number, and
of those the nearest to it. The number is `m * 2 ^ q`; the reals that round to it form an interval,
which contains its ends exactly when `m` is even. On the grid of decimals with `n` digits only the
two neighbours of the number can be the nearest point inside the interval, so these two are tested
for `n = 1, 2, …` in exact arithmetic.
-/

namespace FieldCircuit.Decimal

/-- A positive number `0.d₁d₂…dₙ * 10 ^ point`, whose first and last digits are not zero. -/
structure Digits where
  digits : List Nat
  point : Int
  deriving DecidableEq, Repr

structure Ratio where
  num : Nat
  den : Nat

def Ratio.scaled2 (x : Nat) (e : Int) : Ratio :=
  match e with
  | .ofNat n => ⟨x * Nat.pow 2 n, 1⟩
  | .negSucc n => ⟨x, Nat.pow 2 (n + 1)⟩

def Ratio.over10 (r : Ratio) (e : Int) : Ratio :=
  match e with
  | .ofNat n => ⟨r.num, r.den * Nat.pow 10 n⟩
  | .negSucc n => ⟨r.num * Nat.pow 10 (n + 1), r.den⟩

/-- The least `j` from `start` on, within `fuel` steps, for which `num * 10 ^ j` reaches `den`. -/
def leadingZeros (num den : Nat) : Nat → Nat → Nat
  | 0, start => start
  | fuel + 1, start =>
    if den ≤ num then start else leadingZeros (num * 10) den fuel (start + 1)

/-- The `p` for which a positive quotient lies between `10 ^ (p - 1)`, included, and `10 ^ p`. -/
def Ratio.point (r : Ratio) : Int :=
  if r.den ≤ r.num then ((Nat.toDigits 10 (r.num / r.den)).length : Int)
  else 1 - (leadingZeros r.num r.den 400 0 : Int)

/-- A number of single precision with the gaps to the ends of the interval that rounds to it,
all in units of `2 ^ (exponent)`. -/
structure Interval where
  value : Nat
  below : Nat
  above : Nat
  exponent : Int
  closed : Bool

/-- The interval of the positive finite number with these bits. The gap below a power of two is half
as wide as the gap above it. -/
def Interval.ofBits (bits : Nat) : Interval :=
  let fraction := bits % leadingOne
  let biased := bits / leadingOne
  let m := if biased = 0 then fraction else leadingOne + fraction
  let q : Int := (Nat.max biased 1 : Int) - 1 - tinyExponent
  { value := 4 * m
    below := if m = leadingOne then 1 else 2
    above := 2
    exponent := q - 2
    closed := m % 2 = 0 }

/-- The point of the grid of multiples of `10 ^ unit` that is nearest to the number, if one lies in
its interval. A tie goes to the greater point. -/
def Interval.gridPoint? (i : Interval) (unit : Int) : Option Nat :=
  let v := (Ratio.scaled2 i.value i.exponent).over10 unit
  let lo := (Ratio.scaled2 (i.value - i.below) i.exponent).over10 unit
  let hi := (Ratio.scaled2 (i.value + i.above) i.exponent).over10 unit
  let down := v.num / v.den
  let up := down + 1
  let downIn := if i.closed then lo.num ≤ down * lo.den else lo.num < down * lo.den
  let upIn := if i.closed then up * hi.den ≤ hi.num else up * hi.den < hi.num
  if downIn && upIn then some (roundDiv .up v.num v.den)
  else if downIn then some down
  else if upIn then some up
  else none

/-- Tries grids with `n`, `n + 1`, … digits; `p` is the position of the point of the number. -/
def Interval.search (i : Interval) (p : Int) : Nat → Nat → Nat × Int
  | 0, n => (0, p - n)
  | fuel + 1, n =>
    match i.gridPoint? (p - n) with
    | some d => (d, p - n)
    | none => i.search p fuel (n + 1)

def digitList (n : Nat) : List Nat :=
  (Nat.toDigits 10 n).map fun c => c.toNat - '0'.toNat

/-- The shortest decimal of the positive finite number with these bits. -/
def shortest (bits : Nat) : Digits :=
  let i := Interval.ofBits bits
  let p := (Ratio.scaled2 i.value i.exponent).point
  let (d, unit) := i.search p 20 1
  let ds := digitList d
  { digits := (ds.reverse.dropWhile (· == 0)).reverse
    point := unit + ds.length }

end FieldCircuit.Decimal
