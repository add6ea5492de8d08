import FieldCircuit.Kernel.Synthesis.Pointwise

/-!
# Synthesis of convolutions

Result type, source text and stage of the convolution of an image with a small array.
-/

namespace FieldCircuit.Synthesis

def expectPlanar (operation : String) (input : FieldType) : Except KernelError Unit := do
  expectReal operation input
  if input.dimensions = 2 ∧ input.order = 0 then pure ()
  else throw (.unsupportedShape operation input .planarScalar)

namespace Convolution

def description : String := "convolve"

def outputType (inputs : List FieldType) : Except KernelError FieldType := do
  expectOperands description inputs 2
  match inputs with
  | [image, kernel] =>
    expectPlanar description image
    expectPlanar description kernel
    if kernel.rows % 2 = 1 ∧ kernel.columns % 2 = 1 then
      return image.withElement image.element.arithmetic
    else throw (.unsupportedShape description kernel .oddExtents)
  | _ => throw (.fault .outOfRange)

def tapLines : Border → List String
  | .zero =>
    ["if (sr >= 0 && sr < in_rows && sc >= 0 && sc < in_columns)",
      "    sum += readKernel(0, i, j, 0) * readIn(0, sr, sc, 0);"]
  | .cyclic =>
    ["const int wr = ((sr % in_rows) + in_rows) % in_rows;",
      "const int wc = ((sc % in_columns) + in_columns) % in_columns;",
      "sum += readKernel(0, i, j, 0) * readIn(0, wr, wc, 0);"]
  | .clamp =>
    ["sum += readKernel(0, i, j, 0) * " ++
      "readIn(0, clamp(sr, 0, in_rows - 1), clamp(sc, 0, in_columns - 1), 0);"]

def source (name : String) (border : Border) (image kernel output : FieldType) (map : PointMap) :
    String :=
  let l := Listing.empty.addLines (Geometry.definitions "in" image)
  let l := l.addLines (Geometry.definitions "kernel" kernel)
  let l := (l.addLines (Geometry.definitions "out" output)).blank
  let parameters := Geometry.parameters ["in", "kernel"] ["out"]
  let l := l.block s!"__kernel void {name}({parameters})" fun l =>
    let l := (l.addLines (map.prologue "out")).line "float sum = 0.0f;"
    let l := l.block "for (int i = 0; i < kernel_rows; i++)" fun l =>
      let l := l.line "const int sr = _row + kernel_rows / 2 - i;"
      l.block "for (int j = 0; j < kernel_columns; j++)" fun l =>
        (l.line "const int sc = _column + kernel_columns / 2 - j;").addLines (tapLines border)
    l.line "writeOut(_layer, _row, _column, 0, sum);"
  l.text

def synthesize (border : Border) (inputs : List FieldType) (caps : Capabilities) :
    Except KernelError Operation := do
  let output ← outputType inputs
  let image ← (fetch inputs.toArray 0 : Except KernelError FieldType)
  let kernel ← (fetch inputs.toArray 1 : Except KernelError FieldType)
  let (mode, workgroup) ← Addressing.select .perPoint [image] output caps
  let imageWords ← (image.words? : Except KernelError Nat)
  let kernelWords ← (kernel.words? : Except KernelError Nat)
  let outputWords ← (output.words? : Except KernelError Nat)
  let map := PointMap.of output mode
  let name := s!"convolve_{border.name}_{kernel.rows}x{kernel.columns}_{image.tag}"
  let stage : Stage :=
    { name
      source := source name border image kernel output map
      arguments := Argument.list
        [("in", .input 0, imageWords, false), ("kernel", .input 1, kernelWords, false),
          ("out", .output 0, outputWords, true)]
      mode
      workgroup
      localBytes := 0
      program := .convolution { border, map, image := image.layout, kernel := kernel.layout } }
  return Operation.single stage output

end Convolution

end FieldCircuit.Synthesis
