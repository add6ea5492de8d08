import FieldCircuit.Kernel.Synthesis.Pointwise

/-!
# Synthesis of tensor sums

Result type, source text and stage of the sum of the tensor elements at every point.
-/

namespace FieldCircuit.Synthesis.TensorSum

def description : String := "tensor reduce"

def outputType (inputs : List FieldType) : Except KernelError FieldType := do
  expectOperands description inputs 1
  let input ← (fetch inputs.toArray 0 : Except KernelError FieldType)
  expectReal description input
  ((input.withElement input.element.arithmetic).withTensor .point : Except KernelError FieldType)

/-- The source of the kernel. Small tensors are summed in one expression, large ones in a loop. -/
def source (name : String) (input output : FieldType) (map : PointMap) : String :=
  let l := (Listing.empty.addLines (Geometry.definitions "in" input)).addLines
    (Geometry.definitions "out" output)
  let parameters := Geometry.parameters ["in"] ["out"]
  let l := l.blank.block s!"__kernel void {name}({parameters})" fun l =>
    let l := l.addLines (map.prologue "out")
    let l := match map.mode with
      | .bigTensor =>
        (l.line "float sum = 0.0f;").block "for (int e = 0; e < in_tensorElements; e++)" fun l =>
          l.line "sum += readIn(_layer, _row, _column, e);"
      | _ =>
        let terms := (List.range input.elements).map fun e => s!"readIn(_layer, _row, _column, {e})"
        l.line ("const float sum = " ++ " + ".intercalate terms ++ ";")
    l.line "writeOut(_layer, _row, _column, 0, sum);"
  l.text

def synthesize (inputs : List FieldType) (caps : Capabilities) : Except KernelError Operation := do
  let output ← outputType inputs
  let input ← (fetch inputs.toArray 0 : Except KernelError FieldType)
  let (mode, workgroup) ← Addressing.select .perPoint inputs output caps
  let inputWords ← (input.words? : Except KernelError Nat)
  let outputWords ← (output.words? : Except KernelError Nat)
  let map := PointMap.of output mode
  let name := s!"tensor_reduce_{input.elements}_{output.tag}"
  let stage : Stage :=
    { name
      source := source name input output map
      arguments := Argument.list
        [("in", .input 0, inputWords, false), ("out", .output 0, outputWords, true)]
      mode
      workgroup
      localBytes := 0
      program := .tensorSum { map, input := input.layout, output := output.layout } }
  return Operation.single stage output

end FieldCircuit.Synthesis.TensorSum
