import FieldCircuit.Kernel.Stage
import FieldCircuit.Source.Geometry
import FieldCircuit.Source.Listing

/-!
# Synthesis of point operations

Result types, source text and stages of operations that treat every tensor element on its own.
-/

namespace FieldCircuit.Synthesis

def expectOperands (operation : String) (inputs : List FieldType) (expected : Nat) :
    Except KernelError Unit :=
  if inputs.length = expected then .ok ()
  else .error (.operandCount operation expected inputs.length)

def expectReal (operation : String) (input : FieldType) : Except KernelError Unit :=
  if input.element.isComplex then .error (.unsupportedElement operation input.element) else .ok ()

namespace Pointwise

def pointOp (o : Opcode) : Except KernelError PointOp :=
  match PointOp.ofOpcode? o with
  | some op => .ok op
  | none => .error (.shapeMismatch "point operation" (.notPointwise o))

/-- Whether the second operand is a single number that is used at every point of the first. -/
def isBroadcast (first second : FieldType) : Bool :=
  second.dimensions == 0 && second.elements == 1 && decide (first ≠ second)

/-- The same, for a second operand whose size fits a machine size if it has a single point. -/
def isBroadcast? (first second : FieldType) : Except Fault Bool :=
  if second.dimensions = 0 then do
    let _ ← second.elements?
    return isBroadcast first second
  else .ok false

def sameShapes (first second : FieldType) : Bool :=
  second.field == first.field && second.tensor == first.tensor

def complexOutput (op : BinaryOp) (description : String) (first second : FieldType) :
    Except KernelError FieldType :=
  if !op.complexDefined then .error (.shapeMismatch description (.notComplex op))
  else match [first, second].find? (!·.element.isComplex) with
    | some input => .error (.unsupportedElement description input.element)
    | none =>
      if second ≠ first then .error (.shapeMismatch description (.operands first second))
      else .ok first

def realOutput (description : String) (first : FieldType) (second : Option FieldType) :
    Except KernelError FieldType := do
  expectReal description first
  match second with
  | none => pure ()
  | some second =>
    expectReal description second
    let compatible ← if sameShapes first second then pure true
      else (isBroadcast? first second : Except KernelError Bool)
    if !compatible then throw (.shapeMismatch description (.operands first second))
  return first.withElement first.element.arithmetic

def outputType (o : Opcode) (inputs : List FieldType) : Except KernelError FieldType := do
  let op ← pointOp o
  expectOperands op.description inputs op.operands
  match op, inputs with
  | .complex binary, [first, second] => complexOutput binary op.description first second
  | _, first :: rest => realOutput op.description first rest.head?
  | _, [] => throw (.fault .outOfRange)

def operandName (i : Nat) : String := if i = 0 then "a" else "b"

def expression (op : PointOp) (a b : String) : String :=
  match op with
  | .unary op => op.render a
  | .scale x => s!"({a} * {Decimal.literalText x})"
  | .offset x => s!"({a} + {Decimal.literalText x})"
  | .binary op | .complex op => op.render a b

/-- The real and imaginary part of a complex operation, and the lines that they need before. -/
def complexExpressions : BinaryOp → List String × String × String
  | .add => ([], "ar + br", "ai + bi")
  | .subtract => ([], "ar - br", "ai - bi")
  | .multiply => ([], "ar * br - ai * bi", "ar * bi + ai * br")
  | _ =>
    (["const float d = br * br + bi * bi;"], "(ar * br + ai * bi) / d", "(ai * br - ar * bi) / d")

def statements (op : PointOp) (broadcast : Bool) (l : Listing) (e : String) : Listing :=
  let here := s!"_layer, _row, _column, {e}"
  let there := if broadcast then "0, 0, 0, 0" else here
  match op with
  | .complex binary =>
    let (lines, re, im) := complexExpressions binary
    l.block "" fun l => l.addLines
      ([s!"const float ar = readA({here}), ai = readAImag({here}), " ++
          s!"br = readB({there}), bi = readBImag({there});"] ++ lines ++
        [s!"writeOut({here}, {re});", s!"writeOutImag({here}, {im});"])
  | op =>
    let result := expression op s!"readA({here})" s!"readB({there})"
    l.line s!"writeOut({here}, {result});"

/-- The source of the kernel. Small tensors have one statement per element. -/
def source (name : String) (op : PointOp) (inputs : List FieldType) (output : FieldType)
    (map : PointMap) (broadcast : Bool) : String :=
  let names := (List.range inputs.length).map operandName
  let elements := match map.mode with
    | .tensorElement => ["_tensorElement"]
    | _ => (List.range output.elements).map Text.decimal
  let l := (names.zip inputs).foldl (fun l (n, t) => l.addLines (Geometry.definitions n t))
    Listing.empty
  let l := (l.addLines (Geometry.definitions "out" output)).blank
  let parameters := Geometry.parameters names ["out"]
  let l := l.block s!"__kernel void {name}({parameters})" fun l =>
    elements.foldl (statements op broadcast) (l.addLines (map.prologue "out"))
  l.text

def synthesize (o : Opcode) (inputs : List FieldType) (caps : Capabilities) :
    Except KernelError Operation := do
  let output ← outputType o inputs
  let op ← pointOp o
  let (mode, workgroup) ← Addressing.select .elementWise inputs output caps
  let inputWords ← inputs.mapM fun t => (t.words? : Except KernelError Nat)
  let outputWords ← (output.words? : Except KernelError Nat)
  let map := PointMap.of output mode
  let broadcast := match inputs with
    | [first, second] => isBroadcast first second
    | _ => false
  let name := s!"{o.family}_{output.tag}"
  let reads := inputWords.zipIdx.map fun (words, i) => (operandName i, Slot.input i, words, false)
  let a ← (fetch inputs.toArray 0 : Except KernelError FieldType)
  let stage : Stage :=
    { name
      source := source name op inputs output map broadcast
      arguments := Argument.list (reads ++ [("out", .output 0, outputWords, true)])
      mode
      workgroup
      localBytes := 0
      program := .pointwise
        { op, map, broadcast, a := a.layout, b := inputs[1]?.map FieldType.layout,
          out := output.layout } }
  return Operation.single stage output

end Pointwise

end FieldCircuit.Synthesis
