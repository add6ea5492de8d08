import FieldCircuit.Decimal.Rounding
import FieldCircuit.Size

/-!
# Pacing

A pacing keeps the cycles of a kernel at least one period apart. It opens a window when work starts
and, when work is finished, sleeps until the deadline of the window and opens the next one there. Work
that is late is not delayed, and the schedule goes on from that point.

Time is counted in nanoseconds from some fixed moment and is handed in by the caller, so that sleeping
is part of the result.
-/

namespace FieldCircuit

def nanosecondsPerSecond : Nat := 1000000000

/-- Durations of this many seconds or more cannot be written down. -/
def durationBound : Nat := Nat.pow 2 64

/-- Deadlines of this many seconds or more cannot be written down. -/
def deadlineBound : Nat := Nat.pow 2 63

def isFiniteDouble (x : Float) : Bool :=
  x.toBits >>> 52 &&& 0x7FF != 0x7FF

/-- A positive, finite number of double precision as a quotient of natural numbers. -/
def doubleRatio (x : Float) : Nat × Nat :=
  let bits := x.toBits.toNat
  let exponent := bits / Nat.pow 2 52 % Nat.pow 2 11
  let fraction := bits % Nat.pow 2 52
  -- the value is `m * 2 ^ e / 2 ^ 1074`
  let m := if exponent = 0 then fraction else Nat.pow 2 52 + fraction
  let e := if exponent = 0 then 0 else exponent - 1
  (m * Nat.pow 2 e, Nat.pow 2 1074)

/-- A number of seconds in nanoseconds, to the nearest, a half going to the even neighbour. -/
def nanoseconds (seconds : Float) : Except Fault Nat :=
  let (num, den) := doubleRatio seconds
  if !isFiniteDouble seconds || durationBound * den ≤ num then .error .timeOverflow
  else .ok (Decimal.roundDiv .toEven (num * nanosecondsPerSecond) den)

/-- A number of cycles in a second, held by its bits in double precision, so that undefined rates stay
apart. -/
structure Rate where
  bits : UInt64
  deriving DecidableEq, Repr

namespace Rate

/-- The rate at which nothing waits. -/
def zero : Rate := ⟨0⟩

def hertz (r : Rate) : Float := Float.ofBits r.bits

end Rate

structure Pacing where
  /-- Length of a window in nanoseconds; without one there is no waiting. -/
  period : Option Nat
  /-- The end of the window that is open. -/
  deadline : Option Nat
  deriving DecidableEq, Repr

namespace Pacing

/-- The pacing for a number of cycles in a second. A rate that is not positive or not finite does not
wait. -/
def ofRate (rate : Rate) : Except Fault Pacing :=
  if 0.0 < rate.hertz && isFiniteDouble rate.hertz then do
    return ⟨some (← nanoseconds (1.0 / rate.hertz)), none⟩
  else .ok ⟨none, none⟩

/-- A moment, provided that it can be written down. -/
def moment (time : Nat) : Except Fault Nat :=
  if time < deadlineBound * nanosecondsPerSecond then .ok time else .error .timeOverflow

/-- Opens a window unless one is open. -/
def start (p : Pacing) (now : Nat) : Except Fault Pacing :=
  match p.period, p.deadline with
  | some period, none => do return { p with deadline := some (← moment (now + period)) }
  | _, _ => .ok p

/-- Sleeps until the deadline and opens the next window. The first component is the time slept. -/
def finish (p : Pacing) (now : Nat) : Except Fault (Nat × Pacing) :=
  match p.period, p.deadline with
  | some period, some deadline => do
    return (deadline - now, { p with deadline := some (← moment (Nat.max now deadline + period)) })
  | _, _ => .ok (0, p)

def reset (p : Pacing) : Pacing := { p with deadline := none }

end Pacing

end FieldCircuit
