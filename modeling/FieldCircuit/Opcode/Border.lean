import FieldCircuit.Opcode.Basic
import FieldCircuit.Size

/-!
# Border policies

Which sample stands for a position that may lie outside an axis. Positions are signed machine
integers, and an extent that does not fit one is read as the negative number with the same bits.
-/

namespace FieldCircuit.Border

def signedExtent (extent : Nat) : Int :=
  if extent < signedBound then extent else (extent : Int) - sizeBound

/-- The sample that stands for `position` on an axis; `none` reads as zero. -/
def resolve (policy : Border) (position : Int) (extent : Nat) : Except Fault (Option Nat) :=
  let e := signedExtent extent
  match policy with
  | .zero => .ok (if 0 ≤ position ∧ position < e then some position.toNat else none)
  | .cyclic =>
    if e = 0 then .error .emptyAxis
    else if e = -1 ∧ position = -(signedBound : Int) then .error .sizeOverflow
    else .ok (some (position % e).toNat)
  | .clamp =>
    if e ≤ 0 then .error .emptyAxis
    else .ok (some (max 0 (min position (e - 1))).toNat)

end FieldCircuit.Border
