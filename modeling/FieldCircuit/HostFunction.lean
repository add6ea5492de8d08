/-!
# Host functions

Computations that host kernels carry out on the contents of their inputs, and a few of them that have
a name.
-/

namespace FieldCircuit

/-- A computation on the contents of all inputs. -/
abbrev HostFunction := List (Array Float32) → Array Float32

namespace HostFunction

def copy : HostFunction := fun inputs => inputs.headD #[]

/-- The first input with everything that is not positive cut off. -/
def rectify : HostFunction := fun inputs =>
  (copy inputs).map fun x => if 0.0 < x then x else 0.0

/-- The sum of all inputs, in order and as long as the longest; words that are missing are zero. -/
def sum : HostFunction := fun inputs =>
  let length := (inputs.map Array.size).foldl Nat.max 0
  Array.ofFn fun i : Fin length => inputs.foldl (fun total a => total + a.getD i 0.0) 0.0

def concat : HostFunction := fun inputs => inputs.foldl (· ++ ·) #[]

def count : HostFunction := fun inputs => #[Float32.ofNat inputs.length]

def ofName? : String → Option HostFunction
  | "copy" => some copy
  | "relu" => some rectify
  | "sum" => some sum
  | "concat" => some concat
  | "count" => some count
  | _ => none

end HostFunction

end FieldCircuit
