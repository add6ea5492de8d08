import FieldCircuit.Kernel.Synthesis.Pointwise
import FieldCircuit.Source.Template

/-!
# Synthesis of reductions

The reduction of every plane of a field to one word. With several workgroups per plane their partial
results go to an intermediate buffer, which a block reduction finishes.
-/

namespace FieldCircuit.Synthesis.Reduction

def description : String := "field reduce"

/-- Threads for a tree over some words: a power of two that covers them, limited by the device, whose
local memory has to hold one word per thread. -/
def threadsFor (items : Nat) (caps : Capabilities) : Except KernelError Nat :=
  if signedBound < items then .error (.fault .sizeOverflow)
  else
    let threads := Nat.min (ceilPowerOfTwo (Nat.max items 1)) (threadLimit caps)
    if threads * wordBytes ≤ caps.localMemory then .ok threads
    else .error (.localMemoryExhausted "block reduce" (threads * wordBytes) caps.localMemory)

def treeLines : List String :=
  ["    scratch[lid] = acc;",
    "    barrier(CLK_LOCAL_MEM_FENCE);",
    "",
    "    for (int s = %threads% / 2; s > 0; s >>= 1) \x7b",
    "        if (lid < s)",
    "            scratch[lid] = %combine%;",
    "        barrier(CLK_LOCAL_MEM_FENCE);",
    "    \x7d",
    "    if (lid == 0)"]

def textOf (lines : List String) : String := "\n".intercalate lines ++ "\n"

def blockTemplate : String := textOf <|
  ["#define GROUPS %groups%",
    "#define WIDTH %width%",
    "",
    "__kernel __attribute__((reqd_work_group_size(%threads%, 1, 1)))",
    "void %name%(__global const float* restrict partial, __global float* restrict out) \x7b",
    "    __local float scratch[%threads%];",
    "    const int lid = get_local_id(0);",
    "    const int column = get_group_id(0);",
    "",
    "    float acc = %identity%;",
    "    for (int g = lid; g < GROUPS; g += %threads%)",
    "        acc = %accumulate%;"] ++ treeLines ++
  ["        out[column] = scratch[0];",
    "\x7d"]

def planeTemplate : String := textOf <|
  ["#define POINTS %points%",
    "#define GROUPS %groups%",
    "#define TENSOR_ELEMENTS %elements%",
    "",
    "__kernel __attribute__((reqd_work_group_size(%threads%, 1, 1)))",
    "void %name%(__global const float* restrict in, __global float* restrict %destination%) \x7b",
    "    __local float scratch[%threads%];",
    "    const int lid = get_local_id(0);",
    "    const int group = get_group_id(0);",
    "    const int element = get_group_id(1);",
    "    __global const float* plane = in + element * POINTS;",
    "",
    "    float acc = %identity%;",
    "    for (int i = group * %threads% + lid; i < POINTS; i += GROUPS * %threads%)",
    "        acc = %accumulate%;"] ++ treeLines ++
  ["        %destination%[group * TENSOR_ELEMENTS + element] = scratch[0];",
    "\x7d"]

/-- The stage that reduces the columns of `groups` rows of partial results. -/
def blockStage (name : String) (op : ReduceOp) (groups width outputWords : Nat)
    (caps : Capabilities) : Except KernelError Stage := do
  let threads ← threadsFor groups caps
  let source ← Template.fill blockTemplate
    [("groups", Text.decimal groups), ("width", Text.decimal width),
      ("threads", Text.decimal threads), ("name", name), ("identity", op.identityLiteral),
      ("accumulate", op.render "acc" "partial[g * WIDTH + column]"),
      ("combine", op.render "scratch[lid]" "scratch[lid + s]")]
  let partials ← (checked (groups * width) : Except KernelError Nat)
  let workgroup ← (WorkGroup.ofGroups width threads : Except KernelError WorkGroup)
  return {
    name
    source
    arguments := Argument.list
      [("partial", .intermediate 0, partials, false), ("out", .output 0, outputWords, true)]
    mode := .smallTensor
    workgroup
    localBytes := threads * wordBytes
    program := .blockReduction { op, groups, width } }

def outputType (inputs : List FieldType) : Except KernelError FieldType := do
  expectOperands description inputs 1
  let input ← (fetch inputs.toArray 0 : Except KernelError FieldType)
  expectReal description input
  ((input.withElement input.element.arithmetic).withField .point : Except KernelError FieldType)

def planeStage (name : String) (op : ReduceOp) (input output : FieldType)
    (threads groups : Nat) : Except KernelError Stage := do
  let chained := 1 < groups
  let destination := if chained then "partial" else "out"
  let source ← Template.fill planeTemplate
    [("points", Text.decimal input.points), ("groups", Text.decimal groups),
      ("elements", Text.decimal input.elements), ("threads", Text.decimal threads),
      ("name", name), ("destination", destination), ("identity", op.identityLiteral),
      ("accumulate", op.render "acc" "plane[i]"),
      ("combine", op.render "scratch[lid]" "scratch[lid + s]")]
  let inputWords ← (input.words? : Except KernelError Nat)
  let outputWords ← (output.words? : Except KernelError Nat)
  let partials ← (checked (groups * input.elements) : Except KernelError Nat)
  let workgroup ← (WorkGroup.ofGrid 2 groups input.elements threads : Except KernelError WorkGroup)
  let target := if chained then (destination, Slot.intermediate 0, partials, true)
    else (destination, Slot.output 0, outputWords, true)
  return {
    name
    source
    arguments := Argument.list [("in", .input 0, inputWords, false), target]
    mode := .smallTensor
    workgroup
    localBytes := threads * wordBytes
    program := .planeReduction
      { op, points := input.points, groups, elements := input.elements } }

def build (op : ReduceOp) (input output : FieldType) (caps : Capabilities) :
    Except KernelError Operation := do
  let points ← (input.points? : Except KernelError Nat)
  let elements ← (input.elements? : Except KernelError Nat)
  let threads ← threadsFor points caps
  let limit ← (checked (groupLimit caps) : Except KernelError Nat)
  let groups := Nat.min (ceilDiv points threads) limit
  let name := s!"field_reduce_{op.name}_{input.tag}"
  let first ← planeStage name op input output threads groups
  if 1 < groups then
    let finish ← blockStage s!"{name}_finish" op groups elements output.words caps
    return ⟨name, output, [first, finish], [groups * elements]⟩
  else return Operation.single first output

end FieldCircuit.Synthesis.Reduction
