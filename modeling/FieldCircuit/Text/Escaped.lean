import FieldCircuit.Text.Hidden
import FieldCircuit.Text.Number

/-!
# Quoted text

A text between double quotes, in which quotes, backslashes and hidden characters are written as
escapes.
-/

namespace FieldCircuit.Text

def hexadecimal (n : Nat) : String :=
  String.ofList (Nat.toDigits 16 n)

def escapedChar (c : Char) : String :=
  match c.toNat with
  | 0 => "\\0"
  | 9 => "\\t"
  | 10 => "\\n"
  | 13 => "\\r"
  | 34 => "\\\""
  | 92 => "\\\\"
  | n => if isHidden c then "\\u\x7b" ++ hexadecimal n ++ "\x7d" else c.toString

def quoted (s : String) : String :=
  "\"" ++ String.join (s.toList.map escapedChar) ++ "\""

end FieldCircuit.Text
