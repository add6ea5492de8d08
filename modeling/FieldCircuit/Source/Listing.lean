/-!
# Listings

Source text put together line by line, each line indented by the blocks that are open around it.
-/

namespace FieldCircuit

structure Listing where
  lines : List String
  depth : Nat

namespace Listing

def empty : Listing := ⟨[], 0⟩

def indentation (depth : Nat) : String :=
  String.ofList (List.replicate (4 * depth) ' ')

/-- Adds a line; an empty line is not indented. -/
def line (l : Listing) (text : String) : Listing :=
  { l with lines := l.lines ++ [if text.isEmpty then "" else indentation l.depth ++ text] }

def addLines (l : Listing) (texts : List String) : Listing := texts.foldl line l

def blank (l : Listing) : Listing := l.line ""

def enter (l : Listing) (header : String) : Listing :=
  let l := l.line (if header.isEmpty then "\x7b" else header ++ " \x7b")
  { l with depth := l.depth + 1 }

/-- Closes a block. Closing more blocks than are open leaves none open. -/
def leave (l : Listing) : Listing :=
  { l with depth := l.depth - 1 }.line "\x7d"

def block (l : Listing) (header : String) (body : Listing → Listing) : Listing :=
  (body (l.enter header)).leave

/-- The text, with a line end after every line; a listing without lines is a single line end. -/
def text (l : Listing) : String := "\n".intercalate l.lines ++ "\n"

end Listing

end FieldCircuit
