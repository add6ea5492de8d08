import FieldCircuit.Pacing

/-!
# Sensors and actuators

A sensor brings frames of words into a circuit and an actuator takes them out. A sensor is a stream of
frames with a position in it; a cycle in which nothing new arrives has no frame. What a recording
actuator has taken is kept in a log outside of the circuit.
-/

namespace FieldCircuit

structure Sensor where
  /-- The frame of each request, counted from zero. -/
  stream : Nat → Option (Array Float32)
  /-- Number of requests so far. -/
  position : Nat
  /-- Whether a reset goes back to the first frame. -/
  rewinds : Bool
  /-- Cycles in a second that the sensor wants; zero is any number. -/
  rate : Rate
  /-- Whether a frame is published one cycle after it was fetched. -/
  pipelined : Bool

namespace Sensor

def ofFrames (frames : Array (Option (Array Float32))) (rate : Rate) (pipelined : Bool) : Sensor where
  stream k := frames[k]?.join
  position := 0
  rewinds := true
  rate
  pipelined

/-- A sensor whose frames have a number of words that all say how often it was asked. -/
def counter (words : Nat) : Sensor where
  stream k := some (Array.replicate words (Float32.ofNat (k + 1)))
  position := 0
  rewinds := false
  rate := .zero
  pipelined := false

def next (s : Sensor) : Option (Array Float32) × Sensor :=
  (s.stream s.position, { s with position := s.position + 1 })

def reset (s : Sensor) : Sensor := if s.rewinds then { s with position := 0 } else s

end Sensor

structure Log where
  /-- The frames since the last reset. -/
  frames : Array (Array Float32)
  resets : Nat
  deriving DecidableEq

namespace Log

def empty : Log := ⟨#[], 0⟩

def record (l : Log) (frame : Array Float32) : Log := { l with frames := l.frames.push frame }

def reset (l : Log) : Log := ⟨#[], l.resets + 1⟩

end Log

/-- What becomes of the frames that leave a circuit. -/
inductive Actuator
  /-- They are recorded in the log with this number. -/
  | recording (log : Nat)
  | discarding
  deriving DecidableEq, Repr

/-- What lies outside of a circuit and changes while it runs. -/
structure Surroundings where
  /-- The time in nanoseconds. -/
  now : Nat
  logs : Array Log

namespace Surroundings

def initial : Surroundings := ⟨0, #[]⟩

def newLog (s : Surroundings) : Nat × Surroundings :=
  (s.logs.size, { s with logs := s.logs.push .empty })

def sleep (s : Surroundings) (duration : Nat) : Surroundings := { s with now := s.now + duration }

def consume (s : Surroundings) (frame : Array Float32) : Actuator → Surroundings
  | .recording log => { s with logs := s.logs.modify log (·.record frame) }
  | .discarding => s

def resetActuator (s : Surroundings) : Actuator → Surroundings
  | .recording log => { s with logs := s.logs.modify log Log.reset }
  | .discarding => s

end Surroundings

end FieldCircuit
