import FieldCircuit.Size

/-!
# Unsigned numbers and lists in text

A size is read as an optional plus sign and one or more decimal digits whose value fits a machine
size. Lists of sizes are written in brackets.
-/

namespace FieldCircuit.Text

def digit? (c : Char) : Option Nat :=
  if '0' ≤ c ∧ c ≤ '9' then some (c.toNat - '0'.toNat) else none

/-- The value of a string of decimal digits read after `value`. -/
def digitsFrom? (value : Nat) : List Char → Option Nat
  | [] => some value
  | c :: rest => (digit? c).bind fun d => digitsFrom? (10 * value + d) rest

def size? (s : List Char) : Option Nat :=
  let digits := match s with
    | '+' :: rest => rest
    | other => other
  if digits.isEmpty then none
  else (digitsFrom? 0 digits).bind fun n => if n < sizeBound then some n else none

def decimal (n : Nat) : String := toString n

def joined (separator : String) (ns : List Nat) : String :=
  separator.intercalate (ns.map decimal)

def bracketed (ns : List Nat) : String :=
  "[" ++ joined ", " ns ++ "]"

end FieldCircuit.Text
