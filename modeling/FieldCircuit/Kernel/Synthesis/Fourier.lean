import FieldCircuit.Kernel.Synthesis.Reduction

/-!
# Synthesis of Fourier transforms

A transform is one stage per pass. The stages alternate between two intermediate buffers; the first
reads the input and the last writes the output. Twiddle factors stand in the source of each pass.
-/

namespace FieldCircuit.Synthesis.Fourier

def description : String := "fft"

def expectLength (input : FieldType) (extent : Nat) : Except KernelError Unit :=
  if !isPowerOfTwo extent then .error (.notPowerOfTwo description extent)
  else if extent < 2 then .error (.unsupportedShape description input .atLeastTwo)
  else .ok ()

def outputType (inputs : List FieldType) : Except KernelError FieldType := do
  expectOperands description inputs 1
  let input ← (fetch inputs.toArray 0 : Except KernelError FieldType)
  if !input.element.isComplex then throw (.unsupportedElement description input.element)
  if !((input.dimensions = 1 ∨ input.dimensions = 2) ∧ input.order = 0) then
    throw (.unsupportedShape description input .linearScalar)
  input.field.extents.forM (expectLength input)
  return input

def template : String := Reduction.textOf
  ["#define N %n%",
    "#define HALF_N %half%",
    "#define SPAN %span%",
    "#define STRIDE %stride%",
    "#define LINES %lines%",
    "#define LINE_STRIDE %line_stride%",
    "#define PART %part%",
    "#define SCALE %scale%",
    "",
    "__constant float twiddle_re[HALF_N] = \x7b %twiddle_re% \x7d;",
    "__constant float twiddle_im[HALF_N] = \x7b %twiddle_im% \x7d;",
    "",
    "__kernel void %name%(__global const float* restrict src, __global float* restrict dst) \x7b",
    "    const int j = get_global_id(0);",
    "    const int line = get_global_id(1);",
    "    if (j >= HALF_N || line >= LINES) return;",
    "",
    "    const int base = line * LINE_STRIDE;",
    "    const int k = j & (SPAN - 1);",
    "    const int t = k * (N / (2 * SPAN));",
    "    const float ar = src[base + j * STRIDE];",
    "    const float ai = src[PART + base + j * STRIDE];",
    "    const float xr = src[base + (j + HALF_N) * STRIDE];",
    "    const float xi = src[PART + base + (j + HALF_N) * STRIDE];",
    "    const float br = xr * twiddle_re[t] - xi * twiddle_im[t];",
    "    const float bi = xr * twiddle_im[t] + xi * twiddle_re[t];",
    "",
    "    const int d = (j - k) * 2 + k;",
    "    dst[base + d * STRIDE] = (ar + br) * SCALE;",
    "    dst[PART + base + d * STRIDE] = (ai + bi) * SCALE;",
    "    dst[base + (d + SPAN) * STRIDE] = (ar - br) * SCALE;",
    "    dst[PART + base + (d + SPAN) * STRIDE] = (ai - bi) * SCALE;",
    "\x7d"]

def twiddleText (direction : Direction) (n : Nat) : String × String :=
  let table := (FourierPass.twiddles .single direction n).toList
  let text (xs : List Float32) := ", ".intercalate (xs.map Decimal.literalText)
  (text (table.map (·.1)), text (table.map (·.2)))

def source (name : String) (pass : FourierPass) (twiddles : String × String) :
    Except KernelError String :=
  Template.fill template
    [("n", Text.decimal pass.n), ("half", Text.decimal (pass.n / 2)),
      ("span", Text.decimal pass.span), ("stride", Text.decimal pass.stride),
      ("lines", Text.decimal pass.lines), ("line_stride", Text.decimal pass.lineStride),
      ("part", Text.decimal pass.part),
      ("scale", Decimal.literalText (FourierPass.scale .single pass.direction)),
      ("twiddle_re", twiddles.1), ("twiddle_im", twiddles.2), ("name", name)]

def sourceSlot (p : Nat) : Slot := if p = 0 then .input 0 else .intermediate ((p - 1) % 2)

/-- The buffer that pass `p` writes; the last one writes the output. -/
def targetSlot (last p : Nat) : Slot := if p = last then .output 0 else .intermediate (p % 2)

def stage (name : String) (words last p : Nat) (pass : FourierPass) (twiddles : String × String)
    (caps : Capabilities) : Except KernelError Stage := do
  let name := s!"{name}_pass{p}"
  let source ← source name pass twiddles
  let workgroup ←
    (WorkGroup.covering [pass.n / 2, pass.lines] caps : Except KernelError WorkGroup)
  return {
    name
    source
    arguments := Argument.list
      [("src", sourceSlot p, words, false), ("dst", targetSlot last p, words, true)]
    mode := .smallTensor
    workgroup
    localBytes := 0
    program := .fourier pass }

def build (direction : Direction) (t : FieldType) (caps : Capabilities) :
    Except KernelError Operation := do
  let words ← (t.words? : Except KernelError Nat)
  let passes := FourierPass.plan t direction
  let last := passes.length - 1
  let name := s!"fft_{direction.name}_{t.tag}"
  let alongRows := twiddleText direction t.columns
  let alongColumns := if t.rows = t.columns then alongRows else twiddleText direction t.rows
  let stages ← passes.zipIdx.mapM fun (pass, p) =>
    stage name words last p pass (if pass.n = t.columns then alongRows else alongColumns) caps
  return ⟨name, t, stages, List.replicate (Nat.min last 2) words⟩

end FieldCircuit.Synthesis.Fourier
