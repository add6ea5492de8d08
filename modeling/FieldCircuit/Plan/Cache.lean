import FieldCircuit.Entries
import FieldCircuit.Kernel.Synthesis

/-!
# Shared plans

A plan cache remembers the operation that was built for a key, and hands it out to everybody who asks
for the key again. A key whose operation could not be built stays known, without a plan, and the next
request for it builds again. The cache counts successful requests: a miss if the operation was built
for the request, and a hit if it was there.
-/

namespace FieldCircuit

/-- An operation together with its identity: two plans are the same one exactly if they have the same
serial number. -/
structure Plan where
  operation : Operation
  serial : Nat

structure PlanCache where
  /-- Every key that has been asked for, once, with its plan if it could be built. -/
  slots : List (PlanKey × Option Plan)
  hits : Nat
  misses : Nat
  /-- Number of plans that have been made, which is the serial number of the next one. -/
  made : Nat

namespace PlanCache

def empty : PlanCache := ⟨[], 0, 0, 0⟩

def find? (c : PlanCache) (key : PlanKey) : Option Plan := (c.slots.lookup key).join

def size (c : PlanCache) : Nat := c.slots.length

def make (c : PlanCache) (operation : Operation) : Plan × PlanCache :=
  (⟨operation, c.made⟩, { c with made := c.made + 1 })

/-- The answer to a request whose operation has just been built, or could not be. -/
def settle (c : PlanCache) (key : PlanKey) :
    Except KernelError Operation → Except KernelError Plan × PlanCache
  | .error e => (.error e, { c with slots := entered key none c.slots })
  | .ok operation =>
    let (plan, c) := c.make operation
    (.ok plan, { c with slots := entered key (some plan) c.slots, misses := c.misses + 1 })

/-- The plan for a key, built if there is none yet. What builds it may have effects, which happen only
then. -/
def getM {m : Type → Type} [Monad m] (c : PlanCache) (key : PlanKey)
    (build : Unit → m (Except KernelError Operation)) : m (Except KernelError Plan × PlanCache) := do
  match c.find? key with
  | some plan => return (.ok plan, { c with hits := c.hits + 1 })
  | none => return c.settle key (← build ())

def get (c : PlanCache) (key : PlanKey) (build : Unit → Except KernelError Operation) :
    Except KernelError Plan × PlanCache :=
  Id.run (c.getM key build)

/-- Forgets all keys and counts. Plans that are made later differ from those that are forgotten. -/
def clear (c : PlanCache) : PlanCache := { empty with made := c.made }

end PlanCache

structure PlanStore where
  cache : PlanCache
  /-- Whether operations that are worth sharing are shared; otherwise every request builds. -/
  sharing : Bool

namespace PlanStore

def new (sharing : Bool) : PlanStore := ⟨.empty, sharing⟩

def make (s : PlanStore) (operation : Operation) : Plan × PlanStore :=
  let (plan, cache) := s.cache.make operation
  (plan, { s with cache })

/-- The kernels of an operation, taken from the store if they are shared. -/
def synthesize (s : PlanStore) (o : Opcode) (inputs : List FieldType) (caps : Capabilities) :
    Except KernelError Plan × PlanStore :=
  match Synthesis.prepare o inputs caps with
  | .error e => (.error e, s)
  | .ok (.built operation) =>
    let (plan, s) := s.make operation
    (.ok plan, s)
  | .ok (.planned recipe) =>
    if s.sharing then
      let (result, cache) := s.cache.get (recipe.key caps) fun _ => recipe.build caps
      (result, { s with cache })
    else
      match recipe.build caps with
      | .error e => (.error e, s)
      | .ok operation =>
        let (plan, s) := s.make operation
        (.ok plan, s)

end PlanStore

end FieldCircuit
