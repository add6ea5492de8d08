/-!
# Machine sizes

Extents, word counts and byte counts are natural numbers, and they are required to fit a 64-bit
machine size wherever the library commits to one. A quantity that does not fit is a `Fault`, as is
an access outside an array: a fault is not an error a caller can cause by a wrong shape, it says
that the request has left the range the library computes in.
-/

namespace FieldCircuit

/-- The ways in which a request can leave the range the library computes in. -/
inductive Fault
  /-- A size, count or index does not fit a 64-bit machine size. -/
  | sizeOverflow
  /-- An access outside an array, a memory block or a list of registers. -/
  | outOfRange
  /-- A border policy was asked about an axis without samples. -/
  | emptyAxis
  /-- A duration or a deadline lies beyond the end of time. -/
  | timeOverflow
  deriving DecidableEq, Repr

/-- Sizes are the natural numbers below this bound. -/
def sizeBound : Nat := Nat.pow 2 64

/-- Signed machine integers lie below this bound, and its negation is the least of them. -/
def signedBound : Nat := Nat.pow 2 63

/-- The quantity itself, provided that it fits a machine size. -/
def checked (n : Nat) : Except Fault Nat :=
  if n < sizeBound then .ok n else .error .sizeOverflow

theorem checked_eq_ok_iff {n m : Nat} : checked n = .ok m ↔ n < sizeBound ∧ m = n := by
  unfold checked
  split
  · rename_i h
    simp [h, eq_comm]
  · rename_i h
    simp [h]

def checkedInt (n : Int) : Except Fault Int :=
  if -signedBound ≤ n ∧ n < signedBound then .ok n else .error .sizeOverflow

/-- The word at position `i`; a position outside the array is a fault. -/
@[inline]
def fetch {α : Type} (a : Array α) (i : Nat) : Except Fault α :=
  if h : i < a.size then .ok a[i] else .error .outOfRange

@[inline]
def store {α : Type} (a : Array α) (i : Nat) (x : α) : Except Fault (Array α) :=
  if h : i < a.size then .ok (a.set i x h) else .error .outOfRange

theorem fetch_eq_ok {α : Type} {a : Array α} {i : Nat} (h : i < a.size) :
    fetch a i = .ok a[i] := by
  simp [fetch, h]

theorem store_eq_ok {α : Type} {a : Array α} {i : Nat} (x : α) (h : i < a.size) :
    store a i x = .ok (a.set i x h) := by
  simp [store, h]

def storeAll {α : Type} (a : Array α) (stores : List (Nat × α)) : Except Fault (Array α) :=
  stores.foldlM (fun a s => store a s.1 s.2) a

/-- The positions `first`, `first + step`, … below `bound`. -/
def strided (first bound step : Nat) : List Nat :=
  (List.range ((bound - first + step - 1) / step)).map (first + · * step)

def ceilDiv (a b : Nat) : Nat :=
  a / b + if a % b = 0 then 0 else 1

def ceilPowerOfTwo (n : Nat) : Nat :=
  if n ≤ 1 then 1 else Nat.pow 2 (Nat.log2 (n - 1) + 1)

/-- The greatest power of two that is at most `n`, and one for zero. -/
def floorPowerOfTwo (n : Nat) : Nat :=
  if n ≤ 1 then 1 else Nat.pow 2 (Nat.log2 n)

def isPowerOfTwo (n : Nat) : Bool :=
  n == floorPowerOfTwo n

end FieldCircuit
