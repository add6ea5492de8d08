import FieldCircuit.Memory.Allocator
import FieldCircuit.Text.Blank
import FieldCircuit.Text.Number
import FieldCircuit.Text.Upper

/-!
# Devices

A device is named by a specification and described by the capabilities that kernels are planned
against. Both sides of its memory reuse freed blocks.
-/

namespace FieldCircuit

inductive DeviceSpec
  | cpu
  | accelerator (id : Nat)
  deriving DecidableEq, Repr

structure Capabilities where
  /-- Local memory of a workgroup in bytes. -/
  localMemory : Nat
  /-- Most threads of a workgroup. -/
  maxWorkgroup : Nat
  /-- Workgroups that run at the same time. -/
  computeUnits : Nat
  /-- Accelerator memory in bytes. -/
  memory : Nat
  deriving DecidableEq, Repr

def Capabilities.standard : Capabilities := ⟨49152, 256, 16, 1073741824⟩

namespace DeviceSpec

def render : DeviceSpec → String
  | cpu => "CPU"
  | accelerator id => s!"ACCEL:{id}"

def standard : DeviceSpec := accelerator 0

def capabilities : DeviceSpec → Capabilities
  | cpu => { Capabilities.standard with localMemory := 32768, maxWorkgroup := 1024, computeUnits := 8 }
  | accelerator _ => .standard

/-- The number of a device; a processor counts as device zero. -/
def id : DeviceSpec → Nat
  | cpu => 0
  | accelerator id => id

/-- A text in upper case without white space at its ends, which is how specifications are read. -/
def normalized (text : String) : List Char := Text.upper (Text.trimmed text.toList)

def pieces (s : List Char) : List (List Char) :=
  s.foldr (fun c acc => match acc with
    | [] => [[c]]
    | piece :: rest => if c = ':' then [] :: piece :: rest else (c :: piece) :: rest) [[]]

/-- Reads a specification: `CPU`, `ACCEL` or `GPU`, the latter two with an optional number after a
colon. -/
def parse (text : String) : Except DeviceError DeviceSpec :=
  let s := normalized text
  let invalid := Except.error (DeviceError.invalidDevice (String.ofList s))
  match pieces s with
  | [name] =>
    match String.ofList name with
    | "CPU" => .ok cpu
    | "ACCEL" | "GPU" => .ok (accelerator 0)
    | _ => invalid
  | [name, number] =>
    match String.ofList name, Text.size? number with
    | "ACCEL", some n | "GPU", some n => .ok (accelerator n)
    | _, _ => invalid
  | _ => invalid

end DeviceSpec

/-- Position of the host allocator of a device in its bank. -/
def hostHome : Nat := 0

def acceleratorHome : Nat := 1

def DeviceSpec.bank (spec : DeviceSpec) (caps : Capabilities) : Bank :=
  let cache := some (Cache.empty Allocator.defaultLimit)
  #[⟨.host, cache⟩, ⟨.accelerator spec.id caps.memory 0, cache⟩]

/-- The devices that have been asked for, each made once. -/
structure DeviceRegistry where
  devices : List (DeviceSpec × Capabilities)

namespace DeviceRegistry

def empty : DeviceRegistry := ⟨[]⟩

/-- The number of the device with these limits, which is made if it is new. -/
def get (r : DeviceRegistry) (spec : DeviceSpec) (caps : Capabilities) : Nat × DeviceRegistry :=
  match r.devices.findIdx? (· == (spec, caps)) with
  | some k => (k, r)
  | none => (r.devices.length, ⟨r.devices ++ [(spec, caps)]⟩)

end DeviceRegistry

end FieldCircuit
