import FieldCircuit.Circuit.Error
import FieldCircuit.Memory.Pair
import FieldCircuit.Plan.Cache

/-!
# Environments

What kernels are synthesized against: a device with its memory, and a store of plans. Requests to an
environment change it even if they fail, because a failed request may have emptied a cache.
-/

namespace FieldCircuit

structure Environment where
  device : DeviceSpec
  capabilities : Capabilities
  bank : Bank
  plans : PlanStore

abbrev EnvironmentM := ExceptT CircuitError (StateM Environment)

namespace Environment

def new (device : DeviceSpec) (capabilities : Capabilities) (plans : PlanStore) : Environment :=
  ⟨device, capabilities, device.bank capabilities, plans⟩

def onBank {α : Type} (x : BankM α) : EnvironmentM α := ExceptT.mk fun env =>
  let (result, bank) := x.run.run env.bank
  (result.mapError .device, { env with bank })

def plan (o : Opcode) (inputs : List FieldType) : EnvironmentM Plan := ExceptT.mk fun env =>
  let (result, plans) := env.plans.synthesize o inputs env.capabilities
  (result.mapError .kernel, { env with plans })

def newPair (t : FieldType) : BankM Pair := Pair.allocate t hostHome acceleratorHome

end Environment

end FieldCircuit
