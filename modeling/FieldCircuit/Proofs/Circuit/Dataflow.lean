import FieldCircuit.Proofs.Circuit.WellFormed
import FieldCircuit.Proofs.Kernel.Evaluation
import FieldCircuit.Proofs.Memory.Pair

/-!
# Synchronous dataflow

What a circuit computes, without memory, order or time: every register has a value in every cycle. A
constant has its values, an operation and a host function are applied to the values of the same cycle,
a sensor shows the last frame that it has published, and a recurrence has in a cycle what its driver had
in the one before. In a well-formed circuit these equations have one solution.
-/

namespace FieldCircuit

namespace SensorKernel

def frame (k : SensorKernel) (cycle : Nat) : Option (Array Float32) :=
  k.sensor.stream (k.sensor.reset.position + cycle)

/-- The frame that is published in a cycle; a pipelined sensor is one cycle late. -/
def published (k : SensorKernel) (cycle : Nat) : Option (Array Float32) :=
  match k.sensor.pipelined, cycle with
  | true, 0 => none
  | true, n + 1 => k.frame n
  | false, n => k.frame n

def shown (k : SensorKernel) : Nat → Array Float32
  | 0 => Array.replicate k.fieldType.words 0.0
  | n + 1 =>
    match k.published n with
    | some frame => k.fieldType.stored frame
    | none => k.shown n

def Regular (s : SensorKernel) : Prop :=
  ∀ n frame, s.sensor.stream n = some frame → frame.size = s.fieldType.words

end SensorKernel

/-- A sensor or a host function yields as many words as its field has. -/
def Action.Regular (types : List FieldType) : Action → Prop
  | sensor s => s.Regular
  | host t f => ∀ values : List (Array Float32),
      values.map Array.size = types.map FieldType.words → (f values).size = t.words
  | device _ | constant .. | actuator _ | recurrence .. => True

def FieldType.initial (t : FieldType) (values : Option (Array Float32)) : Array Float32 :=
  t.stored (values.getD (Array.replicate t.words 0.0))

namespace Circuit

structure Dataflow (c : Circuit Action) (v : Nat → RegisterId → Array Float32) : Prop where
  constant : ∀ k ∈ c.kernels, ∀ r ∈ k.outputs, ∀ t values, k.action = .constant t values →
    ∀ n, v n r = t.stored values
  sensor : ∀ k ∈ c.kernels, ∀ r ∈ k.outputs, ∀ s, k.action = .sensor s →
    ∀ n, v n r = s.shown (n + 1)
  device : ∀ k ∈ c.kernels, ∀ r ∈ k.outputs, ∀ d, k.action = .device d →
    ∀ n, v n r = d.operation.evaluate (k.inputs.map (v n))
  host : ∀ k ∈ c.kernels, ∀ r ∈ k.outputs, ∀ t f, k.action = .host t f →
    ∀ n, v n r = t.stored (f (k.inputs.map (v n)))
  initial : ∀ k ∈ c.kernels, ∀ r ∈ k.outputs, ∀ t values, k.action = .recurrence t values →
    v 0 r = t.initial values
  driven : ∀ b ∈ c.recurrences, ∀ d, b.driver = some d → ∀ n, v (n + 1) b.register = v n d

def Regular (c : Circuit Action) : Prop :=
  ∀ k ∈ c.kernels, ∀ types, k.inputs.map c.type? = types.map some → k.action.Regular types

def Bound (c : Circuit Action) : Prop :=
  ∀ b ∈ c.recurrences, b.driver.isSome = true

/-- What a register shows after a number of cycles: a recurrence has taken the value for the next
cycle already, and all others have their values from the last one. Before the first cycle there is
nothing that operations and host functions have computed. -/
def visible (c : Circuit Action) (v : Nat → RegisterId → Array Float32) (n : Nat)
    (r : RegisterId) : Option (Array Float32) :=
  (c.producer? r).bind fun i => c.kernels[i]?.bind fun k =>
    match k.action, n with
    | .constant .., n | .recurrence .., n => some (v n r)
    | .sensor s, n => some (s.shown n)
    | .device _, n + 1 | .host .., n + 1 => some (v n r)
    | .device _, 0 | .host .., 0 | .actuator _, _ => none

def Kernel.recorded? (k : Kernel Action) (log : Nat) : Option RegisterId :=
  match k.action with
  | .actuator (.recording l) => if l = log then some (k.inputs.headD 0) else none
  | _ => none

/-- The registers whose values are recorded in a log, in the order in which kernels run. -/
def recorded (c : Circuit Action) (order : List KernelId) (log : Nat) : List RegisterId :=
  order.filterMap fun i => c.kernels[i]?.bind (·.recorded? log)

/-- The values are determined: those of a cycle by the cycle before it, and within a cycle by those of
earlier registers. -/
theorem Dataflow.unique {c : Circuit Action} {v w : Nat → RegisterId → Array Float32}
    (hc : c.WellFormed) (hbound : c.Bound) (hv : c.Dataflow v) (hw : c.Dataflow w) {n r : Nat}
    (hr : r < c.registers.size) : v n r = w n r := by
  induction n using Nat.strong_induction_on generalizing r with
  | _ n ihn => induction r using Nat.strong_induction_on with
    | _ r ihr =>
      have hproducer : c.producer? r = some c.registers[r].producer := by
        rw [producer?, Array.getElem?_eq_getElem hr, Option.map_some]
      obtain ⟨k, hk, hout⟩ := hc.driven r _ hproducer
      have hmem := Array.mem_of_getElem? hk
      have hinputs : k.inputs.map (v n) = k.inputs.map (w n) := by
        apply List.map_congr_left
        intro i hi
        exact ihr i (hc.before _ k hk i hi r hout) (hc.lt_of_mem_inputs hk hi)
      cases haction : k.action with
      | constant t values =>
          rw [hv.constant k hmem r hout t values haction, hw.constant k hmem r hout t values haction]
      | sensor s => rw [hv.sensor k hmem r hout s haction, hw.sensor k hmem r hout s haction]
      | device d =>
          rw [hv.device k hmem r hout d haction, hw.device k hmem r hout d haction, hinputs]
      | host t f =>
          rw [hv.host k hmem r hout t f haction, hw.host k hmem r hout t f haction, hinputs]
      | actuator a =>
          have houtputs := (hc.fits _ k hk).outputs
          rw [haction] at houtputs
          rw [List.map_eq_nil_iff.1 houtputs] at hout
          cases hout
      | recurrence t values => cases n with
        | zero =>
            rw [hv.initial k hmem r hout t values haction, hw.initial k hmem r hout t values haction]
        | succ n =>
            have hkind : k.kind = .recurrence := by rw [(hc.fits _ k hk).kind, haction]; rfl
            obtain ⟨b, hb, rfl⟩ := List.mem_map.1 ((hc.recurrences r).2 ⟨_, k, hk, hout, hkind⟩)
            obtain ⟨d, hd⟩ := Option.isSome_iff_exists.1 (hbound b hb)
            obtain ⟨_, -, htype⟩ := hc.drivers b hb d hd
            rw [hv.driven b hb d hd, hw.driven b hb d hd]
            exact ihn n (Nat.lt_succ_self n) (lt_of_type?_eq_some htype)

end Circuit

end FieldCircuit
