import FieldCircuit.Text.Number

/-!
# Versions of stored parameters

Parameters carry the version of the kernel that stored them. A kernel reads what it or an older
version has stored.
-/

namespace FieldCircuit

structure Version where
  major : Nat
  minor : Nat
  deriving DecidableEq, Repr

namespace Version

def bound : Nat := Nat.pow 2 32

def render (v : Version) : String := s!"({v.major}, {v.minor})"

/-- Whether a kernel of this version reads what the other version has stored. -/
def accepts (v stored : Version) : Bool :=
  stored.major < v.major || (v.major == stored.major && stored.minor ≤ v.minor)

def isNewer (v other : Version) : Bool :=
  other.major < v.major || (v.major == other.major && other.minor < v.minor)

end Version

end FieldCircuit
