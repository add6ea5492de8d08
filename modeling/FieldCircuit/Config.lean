import FieldCircuit.Device.Spec

/-!
# Configuration

The device that circuits are built for and the limits that their kernels are planned against. A
configuration can be read from named variables, where limits that are missing or cannot be read take
their standard values.
-/

namespace FieldCircuit

structure Config where
  device : DeviceSpec
  capabilities : Capabilities
  deriving DecidableEq, Repr

namespace Config

def standard : Config := ⟨.standard, .standard⟩

def of (device : Option DeviceSpec) (localMemory maxWorkgroup computeUnits memory : Option Nat) :
    Config where
  device := device.getD .standard
  capabilities :=
    { localMemory := localMemory.getD Capabilities.standard.localMemory
      maxWorkgroup := maxWorkgroup.getD Capabilities.standard.maxWorkgroup
      computeUnits := computeUnits.getD Capabilities.standard.computeUnits
      memory := memory.getD Capabilities.standard.memory }

def ofVariables (lookup : String → Option String) : Except DeviceError Config := do
  let device ← (lookup "WEFT_DEVICE").mapM DeviceSpec.parse
  let number name := (lookup name).bind fun text => Text.size? text.toList
  return of device (number "WEFT_LOCAL_MEMORY") (number "WEFT_MAX_WORKGROUP")
    (number "WEFT_COMPUTE_UNITS") none

end Config

end FieldCircuit
