/-!
# Opcodes

An opcode names an operation on fields together with its literal parameters. Operations on the
accelerator are synthesized into kernels; the other opcodes name the kernels of a circuit that run
on the host.
-/

namespace FieldCircuit

inductive UnaryOp
  | negate
  | abs
  | exp
  | log
  | sqrt
  | sin
  | cos
  | tanh
  | sigmoid
  deriving DecidableEq, Repr

inductive BinaryOp
  | add
  | subtract
  | multiply
  | divide
  | max
  | min
  deriving DecidableEq, Repr

inductive ReduceOp
  | sum
  | max
  deriving DecidableEq, Repr

/-- What a convolution reads outside the image. -/
inductive Border
  /-- Samples outside the image count as zero. -/
  | zero
  /-- The image is continued periodically. -/
  | cyclic
  /-- The nearest edge sample is read. -/
  | clamp
  deriving DecidableEq, Repr

/-- Direction of a Fourier transform; the inverse is scaled by the number of points. -/
inductive Direction
  | forward
  | inverse
  deriving DecidableEq, Repr

inductive Opcode
  | unary (op : UnaryOp)
  /-- Multiplication by a constant. -/
  | scale (factor : Float32)
  /-- Addition of a constant. -/
  | offset (amount : Float32)
  /-- An operation on numbers; the second operand may be a single number. -/
  | binary (op : BinaryOp)
  /-- An operation on complex fields. -/
  | complexBinary (op : BinaryOp)
  /-- The sum of the tensor elements at each point. -/
  | tensorReduce
  /-- A reduction of each plane of tensor elements to one value. -/
  | fieldReduce (op : ReduceOp)
  /-- Convolution of an image with a kernel of odd extents. -/
  | convolve (border : Border)
  /-- Correlation of an image with a field of the same shape, giving a square filter. -/
  | filterAdjoint (size : Nat)
  | fft (direction : Direction)
  /-- A field of fixed values. -/
  | constant
  /-- Values read from outside the circuit. -/
  | sensor (name : String)
  /-- Values handed to the outside of the circuit. -/
  | actuator (name : String)
  /-- A computation on the host. -/
  | host (name : String)
  /-- The value that a driver register had one cycle earlier. -/
  | recurrence
  deriving DecidableEq

/-- Where a kernel runs and how a scheduler treats it. -/
inductive KernelKind
  | device
  | host
  | sensor
  | actuator
  | constant
  | recurrence
  deriving DecidableEq, Repr

def KernelKind.name : KernelKind → String
  | device => "device"
  | host => "host"
  | sensor => "sensor"
  | actuator => "actuator"
  | constant => "constant"
  | recurrence => "recurrence"

namespace UnaryOp

def all : List UnaryOp := [negate, abs, exp, log, sqrt, sin, cos, tanh, sigmoid]

def name : UnaryOp → String
  | negate => "negate"
  | abs => "abs"
  | exp => "exp"
  | log => "log"
  | sqrt => "sqrt"
  | sin => "sin"
  | cos => "cos"
  | tanh => "tanh"
  | sigmoid => "sigmoid"

def ofName? (s : String) : Option UnaryOp := all.find? (·.name == s)

def render (op : UnaryOp) (x : String) : String :=
  match op with
  | negate => "(-" ++ x ++ ")"
  | abs => "fabs(" ++ x ++ ")"
  | sigmoid => "(1.0f / (1.0f + exp(-" ++ x ++ ")))"
  | op => op.name ++ "(" ++ x ++ ")"

end UnaryOp

namespace BinaryOp

def all : List BinaryOp := [add, subtract, multiply, divide, max, min]

def name : BinaryOp → String
  | add => "add"
  | subtract => "subtract"
  | multiply => "multiply"
  | divide => "divide"
  | max => "max"
  | min => "min"

def ofName? (s : String) : Option BinaryOp := all.find? (·.name == s)

def render (op : BinaryOp) (a b : String) : String :=
  match op with
  | add => "(" ++ a ++ " + " ++ b ++ ")"
  | subtract => "(" ++ a ++ " - " ++ b ++ ")"
  | multiply => "(" ++ a ++ " * " ++ b ++ ")"
  | divide => "(" ++ a ++ " / " ++ b ++ ")"
  | max => "fmax(" ++ a ++ ", " ++ b ++ ")"
  | min => "fmin(" ++ a ++ ", " ++ b ++ ")"

def complexDefined : BinaryOp → Bool
  | max | min => false
  | _ => true

end BinaryOp

namespace ReduceOp

def all : List ReduceOp := [sum, max]

def name : ReduceOp → String
  | sum => "sum"
  | max => "max"

def ofName? (s : String) : Option ReduceOp := all.find? (·.name == s)

def identityLiteral : ReduceOp → String
  | sum => "0.0f"
  | max => "-INFINITY"

def render (op : ReduceOp) (a b : String) : String :=
  match op with
  | sum => a ++ " + " ++ b
  | max => "fmax(" ++ a ++ ", " ++ b ++ ")"

end ReduceOp

namespace Border

def all : List Border := [zero, cyclic, clamp]

def name : Border → String
  | zero => "zero"
  | cyclic => "cyclic"
  | clamp => "clamp"

def ofName? (s : String) : Option Border := all.find? (·.name == s)

end Border

namespace Direction

def all : List Direction := [forward, inverse]

def name : Direction → String
  | forward => "forward"
  | inverse => "inverse"

def ofName? (s : String) : Option Direction := all.find? (·.name == s)

end Direction

namespace Opcode

def family : Opcode → String
  | unary _ => "unary"
  | scale _ => "scale"
  | offset _ => "offset"
  | binary _ => "binary"
  | complexBinary _ => "complex_binary"
  | tensorReduce => "tensor_reduce"
  | fieldReduce _ => "field_reduce"
  | convolve _ => "convolve"
  | filterAdjoint _ => "filter_adjoint"
  | fft _ => "fft"
  | constant => "constant"
  | sensor _ => "sensor"
  | actuator _ => "actuator"
  | host _ => "host"
  | recurrence => "recurrence"

def kind : Opcode → KernelKind
  | constant => .constant
  | sensor _ => .sensor
  | actuator _ => .actuator
  | host _ => .host
  | recurrence => .recurrence
  | _ => .device

/-- Whether the operation runs on the host and has no kernel on the accelerator. -/
def isHostSide (o : Opcode) : Bool := o.kind != .device

/-- Whether two opcodes name the same operation on numbers. Parameters are compared as numbers, so
that an undefined parameter agrees with nothing and the two zeros agree. -/
def agrees : Opcode → Opcode → Bool
  | scale x, scale y => x == y
  | offset x, offset y => x == y
  | a, b => decide (a = b)

end Opcode

end FieldCircuit
