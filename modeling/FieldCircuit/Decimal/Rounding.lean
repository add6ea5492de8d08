/-!
# Rounding quotients

Quotients of natural numbers rounded to the nearest integer, and to the nearest number of single
precision. Both are computed exactly on natural numbers.
-/

namespace FieldCircuit.Decimal

/-- Where a quotient halfway between two integers goes. -/
inductive Tie
  | toEven
  | up
  deriving DecidableEq, Repr

def roundDiv (tie : Tie) (num den : Nat) : Nat :=
  let q := num / den
  let r := num % den
  if 2 * r < den then q
  else if den < 2 * r then q + 1
  else match tie with
    | .toEven => q + q % 2
    | .up => q + 1

def fractionBits : Nat := 23

/-- The bit of a single-precision number that is not stored, above the fraction. -/
def leadingOne : Nat := Nat.pow 2 fractionBits

def signBit : Nat := Nat.pow 2 31

/-- The exponent of the last place of the smallest numbers, negated. -/
def tinyExponent : Nat := 149

/-- Bits of positive infinity, which every larger magnitude rounds to. -/
def infinityBits : Nat := 0x7F800000

/-- The greatest `e` with `2 ^ e ≤ num / den`, shifted by `tinyExponent + fractionBits` and cut off
at zero: the position of the leading bit above the last place of the smallest numbers. -/
def leadingBit (num den : Nat) : Nat :=
  Nat.log2 (num * Nat.pow 2 (tinyExponent + fractionBits) / den)

/-- Bits of the single-precision number nearest to `num / den`, a tie going to the even last bit.
The denominator is positive. -/
def bitsOfRatio (num den : Nat) : Nat :=
  -- the last place has exponent `shift - tinyExponent`
  let shift := leadingBit num den - 2 * fractionBits
  let m := roundDiv .toEven (num * Nat.pow 2 tinyExponent) (den * Nat.pow 2 shift)
  Nat.min (shift * leadingOne + m) infinityBits

end FieldCircuit.Decimal
