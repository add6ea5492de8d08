import FieldCircuit.Checkpoint.Basic
import FieldCircuit.Circuit.Construction
import FieldCircuit.Text.Escaped

/-!
# Saving and restoring kernels

A kernel whose construction depends on stored parameters is saved under a tag and a version, followed
by its own fields. A restore registry knows for every tag the current version and how to build the
kernel again.
-/

namespace FieldCircuit

structure Parameters where
  tag : String
  version : Version
  fields : List (String × StoredValue)

namespace Parameters

def tagField : String := "tag"

def majorField : String := "version.major"

def minorField : String := "version.minor"

def saveFields (p : Parameters) (c : Checkpoint) : Checkpoint :=
  p.fields.foldl (fun c (name, value) => c.write name value) c

def save (p : Parameters) (c : Checkpoint) : Checkpoint :=
  p.saveFields <|
    ((c.write tagField (.text p.tag)).write majorField (.integer p.version.major)).write
      minorField (.integer p.version.minor)

end Parameters

def constantTag : String := "constant"

def deviceTag : String := "device"

def storedVersion : Version := ⟨1, 0⟩

def storedExtents (s : Shape) : String := Text.joined "," s.extents

def commaPieces (s : List Char) : List (List Char) :=
  s.foldr (fun c acc => match acc with
    | [] => [[c]]
    | piece :: rest => if c = ',' then [] :: piece :: rest else (c :: piece) :: rest) [[]]

/-- Reads stored extents. Nothing between two commas is no extent. -/
def readExtents (name text : String) : Except CircuitError Shape :=
  match ((commaPieces text.toList).filter (!·.isEmpty)).mapM Text.size? with
  | some extents => .ok ⟨extents⟩
  | none => .error (.fieldKind name .extents)

def Action.parameters? : Action → Option Parameters
  | device k => some ⟨deviceTag, storedVersion, [("opcode", .text k.opcode.render)]⟩
  | constant t values => some ⟨constantTag, storedVersion,
      [("field_shape", .text (storedExtents t.field)), ("tensor_shape", .text (storedExtents t.tensor)),
        ("element", .text t.element.name), ("values", .words values)]⟩
  | sensor _ | actuator _ | host .. | recurrence .. => none

/-- Saves a kernel, and says whether there was anything to save. -/
def Circuit.save (c : Circuit Action) (id : KernelId) (checkpoint : Checkpoint) :
    Except CircuitError (Bool × Checkpoint) := do
  match (← c.kernel id).action.parameters? with
  | some p => return (true, p.save checkpoint)
  | none => return (false, checkpoint)

/-- Builds a kernel from its fields into a circuit, reading these registers. The result is the
registers that the kernel drives, and the circuit. -/
abbrev Restorer :=
  Checkpoint → Circuit Action → List RegisterId → EnvironmentM (List RegisterId × Circuit Action)

namespace Restorer

def constant : Restorer := fun checkpoint c _ => do
  let field ← readExtents "field_shape" (← checkpoint.readText "field_shape")
  let tensor ← readExtents "tensor_shape" (← checkpoint.readText "tensor_shape")
  let name ← checkpoint.readText "element"
  match Element.ofName? name with
  | none => throw (.fieldKind "element" .element)
  | some element =>
    let t ← (FieldType.of field tensor element : Except CircuitError FieldType)
    let (register, c) ← c.constant constantTag t (← checkpoint.readWords "values")
    return ([register], c)

def device : Restorer := fun checkpoint c inputs => do
  let opcode ← (Opcode.parse (← checkpoint.readText "opcode") : Except CircuitError Opcode)
  let (register, c) ← c.operation none opcode inputs
  return ([register], c)

end Restorer

structure RestoreRegistry where
  entries : List (String × Version × Restorer)

namespace RestoreRegistry

def empty : RestoreRegistry := ⟨[]⟩

/-- The registry with another tag; an entry replaces an earlier one. -/
def register (r : RestoreRegistry) (tag : String) (version : Version) (restorer : Restorer) :
    RestoreRegistry :=
  ⟨entered tag (version, restorer) r.entries⟩

/-- The registry of the kernels that can be saved. -/
def builtin : RestoreRegistry :=
  (empty.register constantTag storedVersion .constant).register deviceTag storedVersion .device

def contains (r : RestoreRegistry) (tag : String) : Bool := (r.entries.lookup tag).isSome

def restore (r : RestoreRegistry) (checkpoint : Checkpoint) (c : Circuit Action)
    (inputs : List RegisterId) : EnvironmentM (List RegisterId × Circuit Action) := do
  let tag ← checkpoint.readText Parameters.tagField
  match r.entries.lookup tag with
  | none => throw (.unknownTag tag)
  | some (version, restorer) =>
    let major ← checkpoint.readVersionNumber Parameters.majorField
    let minor ← checkpoint.readVersionNumber Parameters.minorField
    version.check ⟨major, minor⟩ tag
    restorer checkpoint c inputs

end RestoreRegistry

end FieldCircuit
