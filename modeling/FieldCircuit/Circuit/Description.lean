import FieldCircuit.Checkpoint.Restore

/-!
# Descriptions

One-line texts that show what environments, host computations and restore registries hold.
-/

namespace FieldCircuit

/-- A record with its name and its fields, of which there may be more than are shown. -/
def recordText (name : String) (fields : List (String × String)) (complete : Bool) : String :=
  let shown := fields.map fun (field, text) => field ++ ": " ++ text
  let shown := if complete then shown else shown ++ [".."]
  name ++ " \x7b " ++ ", ".intercalate shown ++ " \x7d"

def listText (items : List String) : String := "[" ++ ", ".intercalate items ++ "]"

def DeviceSpec.describe : DeviceSpec → String
  | cpu => "Cpu"
  | accelerator id => recordText "Accelerator" [("device_id", Text.decimal id)] true

def Shape.describe (s : Shape) : String :=
  recordText "Shape" [("extents", Text.bracketed s.extents)] true

def FieldType.describe (t : FieldType) : String :=
  recordText "FieldType"
    [("field_shape", t.field.describe), ("tensor_shape", t.tensor.describe),
      ("element", t.element.name)] true

def Environment.describe (e : Environment) : String :=
  recordText "Environment" [("device", e.device.describe)] false

/-- The description of a host computation; other actions have none. -/
def Action.describe? : Action → Option String
  | host output _ => some (recordText "HostStrategy" [("output", output.describe)] false)
  | _ => none

def Version.describe (v : Version) : String :=
  recordText "Version" [("major", Text.decimal v.major), ("minor", Text.decimal v.minor)] true

/-- The description of a restore registry: its tags in order, with their versions. -/
def RestoreRegistry.describe (r : RestoreRegistry) : String :=
  let sorted := r.entries.mergeSort fun a b => decide (a.1 ≤ b.1)
  let entries := sorted.map fun (tag, version, _) =>
    "(" ++ Text.quoted tag ++ ", " ++ version.describe ++ ")"
  recordText "RestoreRegistry" [("entries", listText entries)] true

end FieldCircuit
