import FieldCircuit.Kernel.Error

/-!
# Templates

Texts with slots, which are identifiers between percent signs. Slots are filled one after another in
the whole text; an identifier between percent signs that is left afterwards is an error. A percent
sign that does not enclose an identifier stands for itself.
-/

namespace FieldCircuit.Template

/-- Replaces the occurrences of a pattern from left to right; the first `skip` characters belong to
an occurrence that has already been replaced. -/
def replaceFrom (pattern value : List Char) : Nat → List Char → List Char
  | _, [] => []
  | skip + 1, _ :: rest => replaceFrom pattern value skip rest
  | 0, c :: rest =>
    if pattern.isPrefixOf (c :: rest) then
      value ++ replaceFrom pattern value (pattern.length - 1) rest
    else c :: replaceFrom pattern value 0 rest

def replaceAll (pattern value text : List Char) : List Char :=
  replaceFrom pattern value 0 text

def slot (name : List Char) : List Char := '%' :: name ++ ['%']

def isWordChar (c : Char) : Bool :=
  ('a' ≤ c && c ≤ 'z') || ('A' ≤ c && c ≤ 'Z') || ('0' ≤ c && c ≤ '9') || c == '_'

def isIdentifier : List Char → Bool
  | [] => false
  | c :: rest => isWordChar c && !('0' ≤ c && c ≤ '9') && rest.all isWordChar

/-- The identifier between the percent sign before this text and the next one, if there is one. -/
def enclosed? (s : List Char) : Option (List Char) :=
  let name := s.takeWhile isWordChar
  if isIdentifier name && (s.dropWhile isWordChar).head? == some '%' then some name else none

def leftover? : List Char → Option (List Char)
  | [] => none
  | c :: rest => if c = '%' then (enclosed? rest).or (leftover? rest) else leftover? rest

def fill (template : String) (slots : List (String × String)) : Except KernelError String :=
  let text := slots.foldl
    (fun text s => replaceAll (slot s.1.toList) s.2.toList text) template.toList
  match leftover? text with
  | some name => .error (.unresolvedPlaceholder (String.ofList name))
  | none => .ok (String.ofList text)

end FieldCircuit.Template
