import FieldCircuit.Decimal.Layout
import FieldCircuit.Decimal.Reader
import FieldCircuit.Opcode.Basic

/-!
# Opcodes as text

An opcode is written as its name, followed by its parameter in parentheses if it has one. Reading
accepts the written forms; a number may be spelled in any way.
-/

namespace FieldCircuit.Opcode

def call (family argument : String) : String :=
  family ++ "(" ++ argument ++ ")"

def render : Opcode → String
  | unary op => op.name
  | scale x => call "scale" (Decimal.parameterText x)
  | offset x => call "offset" (Decimal.parameterText x)
  | binary op => op.name
  | complexBinary op => "complex_" ++ op.name
  | fieldReduce op => "field_reduce_" ++ op.name
  | convolve border => call "convolve" border.name
  | filterAdjoint size => call "filter_adjoint" (Text.decimal size)
  | fft direction => "fft_" ++ direction.name
  | sensor name => call "sensor" name
  | actuator name => call "actuator" name
  | host name => call "host" name
  | o => o.family

/-- Splits a text at its first opening parenthesis, provided that it ends with a closing one. -/
def splitCall? (s : List Char) : Option (List Char × List Char) :=
  match s.dropWhile (· != '(') with
  | [] => none
  | _ :: rest =>
    if rest.getLast? = some ')' then some (s.takeWhile (· != '('), rest.dropLast) else none

def ofCall? (family : String) (argument : List Char) : Option Opcode :=
  match family with
  | "scale" => (Decimal.single? argument).map scale
  | "offset" => (Decimal.single? argument).map offset
  | "convolve" => (Border.ofName? (String.ofList argument)).map convolve
  | "filter_adjoint" => (Text.size? argument).map filterAdjoint
  | "sensor" => some (sensor (String.ofList argument))
  | "actuator" => some (actuator (String.ofList argument))
  | "host" => some (host (String.ofList argument))
  | _ => none

def ofWord? (s : List Char) : Option Opcode :=
  match "complex_".toList.isPrefixOf? s with
  | some rest => (BinaryOp.ofName? (String.ofList rest)).map complexBinary
  | none =>
  match "field_reduce_".toList.isPrefixOf? s with
  | some rest => (ReduceOp.ofName? (String.ofList rest)).map fieldReduce
  | none =>
  match "fft_".toList.isPrefixOf? s with
  | some rest => (Direction.ofName? (String.ofList rest)).map fft
  | none =>
  match String.ofList s with
  | "tensor_reduce" => some tensorReduce
  | "constant" => some constant
  | "recurrence" => some recurrence
  | word => ((UnaryOp.ofName? word).map unary).or ((BinaryOp.ofName? word).map binary)

def parse? (text : String) : Option Opcode :=
  match splitCall? text.toList with
  | some (family, argument) => ofCall? (String.ofList family) argument
  | none => ofWord? text.toList

end FieldCircuit.Opcode
