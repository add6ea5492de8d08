import FieldCircuit.Circuit.Context
import FieldCircuit.Entries
import FieldCircuit.Scheduler

/-!
# Sessions

A session keeps one environment, a circuit under construction, and the scheduler of the circuit that
was built last. Logs of actuators and checkpoints are kept by name.
-/

namespace FieldCircuit

structure Session where
  environment : Environment
  surroundings : Surroundings
  /-- The circuit under construction. -/
  context : Option (Circuit Action)
  scheduler : Option Scheduler
  /-- Numbers of the logs of actuators. -/
  logs : List (String × Nat)
  checkpoints : List (String × Checkpoint)
  /-- How kernels are restored, if it is not just the kernels that can be saved. -/
  registry : Option RestoreRegistry

abbrev SessionM := ExceptT CircuitError (StateM Session)

namespace Session

def new (environment : Environment) : Session :=
  ⟨environment, .initial, some .empty, none, [], [], none⟩

def onEnvironment {α : Type} (x : EnvironmentM α) : SessionM α := ExceptT.mk fun s =>
  let (result, environment) := x.run.run s.environment
  (result, { s with environment })

def existing {α : Type} (part : Session → Option α) : SessionM α := do
  match part (← get) with
  | some x => return x
  | none => throw (.fault .outOfRange)

def circuit : SessionM (Circuit Action) :=
  existing fun s => s.context.or (s.scheduler.map (·.circuit))

def underConstruction : SessionM (Circuit Action) := existing Session.context

def assemble {α : Type} (x : ContextM α) : SessionM α := do
  let circuit ← underConstruction
  let (result, context) := x.run.run ⟨(← get).environment, circuit⟩
  modify ({ · with environment := context.environment, context := some context.circuit })
  result

/-- Adds an actuator with a log of its own. -/
def addRecorder (name : String) (input : RegisterId) : SessionM KernelId := do
  let (log, surroundings) := (← get).surroundings.newLog
  modify fun s => { s with surroundings, logs := entered name log s.logs }
  assemble (Context.actuator name input (.recording log))

def log? (s : Session) (name : String) : Option Log :=
  (s.logs.lookup name).bind (s.surroundings.logs[·]?)

/-- Starts a new circuit; the one under construction is given up. -/
def newContext : SessionM Unit := do
  match (← get).context with
  | some c => onEnvironment (Environment.onBank c.release)
  | none => pure ()
  modify ({ · with context := some .empty })

/-- Builds the scheduler of the circuit under construction, which is used up even if that fails. The
scheduler that was there is given up before. -/
def build : SessionM Scheduler := do
  let c ← underConstruction
  let old := (← get).scheduler
  modify ({ · with context := none, scheduler := none })
  match old with
  | some old => onEnvironment (Environment.onBank old.release)
  | none => pure ()
  let built ← onEnvironment (Scheduler.build c)
  modify ({ · with scheduler := some built })
  return built

def running : SessionM Scheduler := existing Session.scheduler

def run (x : SchedulerM Unit) : SessionM Unit := do
  let scheduler ← running
  let (result, scheduler, surroundings) := x.run.run (scheduler, (← get).surroundings)
  modify ({ · with scheduler := some scheduler, surroundings })
  result

def read {α : Type} (f : Scheduler → Except CircuitError (α × Scheduler)) : SessionM α := do
  let (x, scheduler) ← f (← running)
  modify ({ · with scheduler := some scheduler })
  return x

def checkpoint (s : Session) (name : String) : Checkpoint :=
  (s.checkpoints.lookup name).getD .empty

def store (name : String) (c : Checkpoint) : SessionM Unit :=
  modify fun s => { s with checkpoints := entered name c s.checkpoints }

/-- Saves a kernel into a checkpoint. Answers whether there was anything to save. -/
def save (kernel : KernelId) (name : String) : SessionM Bool := do
  let (saved, c) ← (← circuit).save kernel ((← get).checkpoint name)
  store name c
  return saved

def restore (name : String) (inputs : List RegisterId) : SessionM (List RegisterId) := do
  let s ← get
  let checkpoint := s.checkpoint name
  match s.registry with
  | none => assemble (Context.restore checkpoint inputs)
  | some registry => assemble (Context.commit (registry.restore checkpoint · inputs))

end Session

end FieldCircuit
