import FieldCircuit.Kernel.Synthesis.Convolution
import FieldCircuit.Kernel.Synthesis.Reduction

/-!
# Synthesis of filter adjoints

The adjoint of a filter with respect to its weights: the correlation of an image with a field of the
same shape. A tiled kernel leaves one row of partial results per workgroup, which a block reduction
adds up if there are several.
-/

namespace FieldCircuit.Synthesis.Correlation

def description : String := "filter adjoint"

def outputType (size : Nat) (inputs : List FieldType) : Except KernelError FieldType := do
  expectOperands description inputs 2
  match inputs with
  | [image, gradient] =>
    expectPlanar description image
    expectPlanar description gradient
    if image.field ≠ gradient.field then
      throw (.shapeMismatch description (.gradient image gradient))
    if size % 2 ≠ 1 then throw (.unsupportedShape description image (.oddSize size))
    (FieldType.scalar [size, size] : Except KernelError FieldType)
  | _ => throw (.fault .outOfRange)

def planLines (p : TilePlan) : List String :=
  [s!"#define FILTER_SIZE {p.size}",
    s!"#define HALF {p.half}",
    s!"#define OUTPUTS {p.outputs}",
    s!"#define THREADS {p.threads}",
    s!"#define LATENCY {p.latency}",
    s!"#define ITERATIONS {p.iterations}",
    s!"#define TILE_ROWS {p.tileRows}",
    s!"#define TILE_COLUMNS {p.tileColumns}",
    s!"#define HALO_ROWS {p.haloRows}",
    s!"#define HALO_COLUMNS {p.haloColumns}",
    s!"#define TILES_ACROSS {p.tilesAcross}",
    s!"#define TILES {p.tiles}",
    s!"#define GROUPS {p.groups}",
    "#define SLOT(n) ((n) + ((n) >= 32))"]

def headLines : List String :=
  ["__local float halo[HALO_ROWS * HALO_COLUMNS];",
    "__local float tree0[2 * THREADS + 1];",
    "__local float tree1[2 * THREADS + 1];",
    "__local float staging[OUTPUTS];",
    "const int lid = get_local_id(0);",
    "const int group = get_group_id(0);",
    "const int tr = lid / TILE_COLUMNS;",
    "const int tc = lid % TILE_COLUMNS;",
    "// threads 0-15 and 16-31 read children from different banks",
    "const int base = 2 * lid + (lid >= 16);",
    "const int leaves = 2 * lid >= THREADS;",
    "for (int i = lid; i < OUTPUTS; i += THREADS)",
    "    staging[i] = 0.0f;",
    "barrier(CLK_LOCAL_MEM_FENCE);",
    ""]

def haloLoop : String := "for (int k = lid; k < HALO_ROWS * HALO_COLUMNS; k += THREADS)"

def loadStatements (l : Listing) : Listing :=
  let l := l.addLines
    ["const int r0 = (tile / TILES_ACROSS) * TILE_ROWS;",
      "const int c0 = (tile % TILES_ACROSS) * TILE_COLUMNS;",
      "const int interior = r0 >= HALF && c0 >= HALF && r0 + TILE_ROWS + HALF <= image_rows " ++
        "&& c0 + TILE_COLUMNS + HALF <= image_columns;"]
  let l := l.block "if (interior)" fun l => l.addLines
    [haloLoop,
      "    halo[k] = readImage(0, r0 - HALF + k / HALO_COLUMNS, c0 - HALF + k % HALO_COLUMNS, 0);"]
  let l := l.block "else" fun l => l.block haloLoop fun l => l.addLines
    ["const int r = r0 - HALF + k / HALO_COLUMNS;",
      "const int c = c0 - HALF + k % HALO_COLUMNS;",
      "halo[k] = (r >= 0 && r < image_rows && c >= 0 && c < image_columns) ? " ++
        "readImage(0, r, c, 0) : 0.0f;"]
  l.addLines
    ["const int r = r0 + tr;",
      "const int c = c0 + tc;",
      "const float g = (r < gradient_rows && c < gradient_columns) ? " ++
        "readGradient(0, r, c, 0) : 0.0f;",
      "int staged = 0;",
      "barrier(CLK_LOCAL_MEM_FENCE);",
      ""]

def iterationStatements (l : Listing) : Listing :=
  let l := l.addLines
    ["__local float* cur = (it & 1) ? tree1 : tree0;",
      "__local float* prev = (it & 1) ? tree0 : tree1;"]
  let l := l.block "if (it < OUTPUTS)" fun l => l.addLines
    ["const int u = it / FILTER_SIZE;",
      "const int v = it % FILTER_SIZE;",
      "cur[SLOT(THREADS + lid)] = halo[(tr + u) * HALO_COLUMNS + tc + v] * g;"]
  let l := l.line "barrier(CLK_LOCAL_MEM_FENCE);"
  let l := l.block "if (lid > 0)" fun l =>
    let l := l.line
      "const float sum = leaves ? cur[base] + cur[base + 1] : prev[base] + prev[base + 1];"
    let l := l.block "if (lid == 1)" fun l => l.addLines
      ["if (it >= LATENCY)", "    staging[staged++] += sum;"]
    l.block "else" fun l => l.line "cur[SLOT(lid)] = sum;"
  l.line "barrier(CLK_LOCAL_MEM_FENCE);"

def source (name : String) (p : TilePlan) (image gradient : FieldType) (destination : String) :
    String :=
  let l := Listing.empty.addLines (Geometry.definitions "image" image)
  let l := l.addLines (Geometry.definitions "gradient" gradient)
  let l := (l.addLines (planLines p)).blank
  let l := l.line s!"__kernel __attribute__((reqd_work_group_size({p.threads}, 1, 1)))"
  let parameters := Geometry.parameters ["image", "gradient"] [destination]
  let l := l.block s!"void {name}({parameters})" fun l =>
    let l := l.addLines headLines
    let l := l.block "for (int tile = group; tile < TILES; tile += GROUPS)" fun l =>
      (loadStatements l).block "for (int it = 0; it < ITERATIONS; it++)" iterationStatements
    l.blank.addLines
      ["for (int i = lid; i < OUTPUTS; i += THREADS)",
        s!"    {destination}[group * OUTPUTS + i] = staging[i];"]
  l.text

def tiledStage (name : String) (p : TilePlan) (image gradient : FieldType) :
    Except KernelError Stage := do
  let imageWords ← (image.words? : Except KernelError Nat)
  let gradientWords ← (gradient.words? : Except KernelError Nat)
  let partials ← (checked (p.groups * p.outputs) : Except KernelError Nat)
  let workgroup ← (WorkGroup.ofGroups p.groups p.threads : Except KernelError WorkGroup)
  let destination := if p.chained then "partial" else "out"
  let target := if p.chained then (destination, Slot.intermediate 0, partials, true)
    else (destination, Slot.output 0, p.outputs, true)
  return {
    name
    source := source name p image gradient destination
    arguments := Argument.list
      [("image", .input 0, imageWords, false), ("gradient", .input 1, gradientWords, false), target]
    mode := .smallTensor
    workgroup
    localBytes := p.localBytes
    program := .correlation ⟨p⟩ }

def build (size : Nat) (image gradient output : FieldType) (caps : Capabilities) :
    Except KernelError Operation := do
  let p ← TilePlan.search image.rows image.columns size caps
  let name := s!"filter_adjoint_{size}_{p.rows}x{p.columns}"
  let tiled ← tiledStage name p image gradient
  if p.chained then
    let finish ← Reduction.blockStage s!"{name}_finish" .sum p.groups p.outputs p.outputs caps
    return ⟨name, output, [tiled, finish], [p.groups * p.outputs]⟩
  else return Operation.single tiled output

end FieldCircuit.Synthesis.Correlation
