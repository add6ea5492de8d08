import FieldCircuit.Proofs.Checkpoint.Restore
import FieldCircuit.Proofs.Circuit.Context
import FieldCircuit.Proofs.Kernel.Acceptance
import FieldCircuit.Proofs.Memory.Room

/-!
# What is too large to restore

Whatever a checkpoint holds, restoring from it ends with a kernel or with an error that says what is wrong,
unless the sizes that are asked for leave the machine sizes: a constant has no room for the words of its
field, or an operation none for what is computed from its operands and the size of its filter. Nothing
else that is stored is ever computed with. A request that has faulted before may have left the count of the
accelerator wrong, so that an operation may fault after it.
-/

namespace FieldCircuit

namespace Environment

/-- The plans are those of their keys, and the accelerator accounts for what it has handed out of a memory
below the signed bound. -/
structure Accounted (env : Environment) : Prop where
  plans : env.plans.Sound
  memory : ∃ (b : Books) (live : Nat), b.home = acceleratorHome ∧ b.capacity < signedBound ∧
    env.bank.Owes b live

theorem accounted_new (device : DeviceSpec) {capabilities : Capabilities} {plans : PlanStore}
    (hmemory : capabilities.memory < signedBound) (hplans : plans.Sound) :
    (new device capabilities plans).Accounted where
  plans := hplans
  memory := ⟨⟨acceleratorHome, device.id, capabilities.memory, fun _ => acceleratorHome⟩, 0, rfl, hmemory,
    _, rfl, Allocator.accounts_new device.id capabilities.memory (some Allocator.defaultLimit)⟩

variable {o : Opcode} {types : List FieldType} {env : Environment}

/-- A plan for a moderate request is not refused with a fault, and its stages share few words. -/
theorem leads_plan (h : env.plans.Sound) : Leads (plan o types) env
    (fun plan env' => env'.bank = env.bank ∧ env'.plans.Sound ∧
      (Synthesis.Moderate o types env.capabilities → ∀ n ∈ plan.operation.intermediates, n < moderateBound))
    fun e env' => (Synthesis.Moderate o types env.capabilities → e.isFault = false) ∧
      env'.bank = env.bank ∧ env'.plans.Sound := by
  have hsound := (PlanStore.synthesize_spec h o types env.capabilities).1
  have hconcur : Concur _ (env.plans.synthesize o types env.capabilities).1
      (Synthesis.synthesize o types env.capabilities) :=
    PlanStore.answer_concur h ⟨o, types, env.capabilities⟩
  have hrun : (plan o types).run.run env =
      ((env.plans.synthesize o types env.capabilities).1.mapError .kernel,
        { env with plans := (env.plans.synthesize o types env.capabilities).2 }) := rfl
  -- A plan from the store need not be the one that would be made now, but it concurs with it.
  unfold Leads
  rw [hrun]
  generalize hfresh : Synthesis.synthesize o types env.capabilities = fresh at hconcur
  generalize (env.plans.synthesize o types env.capabilities).1 = answer at hconcur
  cases hconcur with
  | error e =>
      refine ⟨fun _ _ hr => (by cases hr), ?_⟩
      rintro _ _ ⟨⟩
      exact ⟨fun hm => hm.not_fault e hfresh, rfl, hsound⟩
  | ok hmatches =>
      refine ⟨?_, fun _ _ hr => by cases hr⟩
      rintro _ _ ⟨⟩
      refine ⟨rfl, hsound, fun hm n hn => Synthesis.shared_lt hm hfresh ?_⟩
      rw [← hmatches.1.intermediates]
      exact hn

theorem leads_onBank {α : Type} {x : BankM α} {post : α → Bank → Prop} {fail : DeviceError → Bank → Prop}
    (h : Leads x env.bank post fail) : Leads (onBank x) env
      (fun a env' => env'.plans = env.plans ∧ post a env'.bank)
      fun e env' => env'.plans = env.plans ∧ ∃ cause, e = .device cause ∧ fail cause env'.bank := by
  have hrun : (onBank x).run.run env =
      ((x.run.run env.bank).1.mapError .device, { env with bank := (x.run.run env.bank).2 }) := rfl
  obtain ⟨hok, herror⟩ := h
  unfold Leads
  rw [hrun]
  generalize x.run.run env.bank = result at hok herror
  obtain ⟨_ | a, bank⟩ := result
  · refine ⟨fun _ _ hr => (by cases hr), ?_⟩
    rintro _ _ ⟨⟩
    exact ⟨rfl, _, rfl, herror _ bank rfl⟩
  · refine ⟨?_, fun _ _ hr => by cases hr⟩
    rintro _ _ ⟨⟩
    exact ⟨rfl, hok a bank rfl⟩

end Environment

theorem DeviceKernel.leads_of {env : Environment} (h : env.Accounted) (o : Opcode)
    (types : List FieldType) : Leads (DeviceKernel.of o types) env (fun _ env' => env'.Accounted)
      fun e env' => (Synthesis.Moderate o types env.capabilities → e.isFault = false) ∧
        (e.isFault = false → env'.Accounted) := by
  obtain ⟨hplans, b, live, hhome, hcapacity, howes⟩ := h
  have hfew : moderateBound * 4 < signedBound := by decide
  refine .bind ((Environment.leads_plan hplans).mono (fun _ _ h => h) ?_) ?_
  · rintro e env' ⟨he, hbank, hsound⟩
    exact ⟨he, fun _ => ⟨hsound, b, live, hhome, hcapacity, hbank ▸ howes⟩⟩
  · rintro plan env' ⟨hbank, hsound, hshared⟩
    rw [← hbank] at howes
    have hall := Bank.leads_allocateAll howes hcapacity plan.operation.intermediates
    rw [hhome] at hall
    refine .bind ((Environment.leads_onBank hall).mono (fun _ _ h => h) ?_) ?_
    · rintro _ env'' ⟨heq, e, rfl, he, howes⟩
      refine ⟨fun hm => he fun n hn => ?_, fun hfine => ?_⟩
      · have hn := hshared hm n hn
        omega
      · exact ⟨heq ▸ hsound, b, live, hhome, hcapacity, howes hfine⟩
    · rintro buffers env'' ⟨heq, howes⟩
      exact .pure ⟨heq ▸ hsound, b, _, hhome, hcapacity, howes⟩

namespace Checkpoint

/-- The checkpoint names a kernel that can be restored, and was written by a version that can be read. -/
def Opens (checkpoint : Checkpoint) (tag : String) : Prop :=
  checkpoint.readText Parameters.tagField = .ok tag ∧ ∃ major minor,
    checkpoint.readVersionNumber Parameters.majorField = .ok major ∧
    checkpoint.readVersionNumber Parameters.minorField = .ok minor ∧
    storedVersion.accepts ⟨major, minor⟩ = true

def storedConstant (checkpoint : Checkpoint) : Except CircuitError (FieldType × Array Float32) := do
  let field ← readExtents "field_shape" (← checkpoint.readText "field_shape")
  let tensor ← readExtents "tensor_shape" (← checkpoint.readText "tensor_shape")
  match Element.ofName? (← checkpoint.readText "element") with
  | none => throw (.fieldKind "element" .element)
  | some element =>
    let t ← (FieldType.of field tensor element : Except CircuitError FieldType)
    return (t, ← checkpoint.readWords "values")

def storedOpcode (checkpoint : Checkpoint) : Except CircuitError Opcode := do
  (Opcode.parse (← checkpoint.readText "opcode") : Except CircuitError Opcode)

/-- What is stored asks for sizes that leave the machine sizes, or may do so. -/
inductive Oversized (checkpoint : Checkpoint) (c : Circuit Action) (inputs : List RegisterId)
    (caps : Capabilities) : Prop
  /-- A field without room for its words. -/
  | constant {t : FieldType} {values : Array Float32} (hopens : checkpoint.Opens constantTag)
      (hstored : checkpoint.storedConstant = .ok (t, values)) (hlarge : sizeBound ≤ t.words)
  /-- An operation on operands that leave no room for what is computed from them. -/
  | operation {o : Opcode} {types : List FieldType} (hopens : checkpoint.Opens deviceTag)
      (hstored : checkpoint.storedOpcode = .ok o) (htypes : c.types inputs = .ok types)
      (hlarge : ¬Synthesis.Moderate o types caps)

variable (checkpoint : Checkpoint) (name : String)

theorem read_not_fault : FailsOnly (·.isFault = false) (checkpoint.read name) := by
  unfold read
  split
  · exact .ok _
  · exact .error rfl

theorem readText_not_fault : FailsOnly (·.isFault = false) (checkpoint.readText name) := by
  refine (checkpoint.read_not_fault name).bind fun value _ => ?_
  cases value with
  | text s => exact .ok s
  | integer _ | words _ => exact .error rfl

theorem readWords_not_fault : FailsOnly (·.isFault = false) (checkpoint.readWords name) := by
  refine (checkpoint.read_not_fault name).bind fun value _ => ?_
  cases value with
  | words values => exact .ok values
  | integer _ | text _ => exact .error rfl

theorem readVersionNumber_not_fault :
    FailsOnly (·.isFault = false) (checkpoint.readVersionNumber name) := by
  refine FailsOnly.bind ((checkpoint.read_not_fault name).bind fun value _ => ?_) fun n _ =>
    .ite (fun _ => .ok _) fun _ => .error rfl
  cases value with
  | integer n => exact .ok n
  | text _ | words _ => exact .error rfl

theorem readExtents_not_fault (text : String) : FailsOnly (·.isFault = false) (readExtents name text) := by
  unfold readExtents
  split
  · exact .ok _
  · exact .error rfl

theorem storedConstant_not_fault : FailsOnly (·.isFault = false) checkpoint.storedConstant := by
  refine (checkpoint.readText_not_fault _).bind fun text _ => ?_
  refine (readExtents_not_fault _ text).bind fun field _ => ?_
  refine (checkpoint.readText_not_fault _).bind fun text _ => ?_
  refine (readExtents_not_fault _ text).bind fun tensor _ => ?_
  refine (checkpoint.readText_not_fault _).bind fun name _ => ?_
  cases Element.ofName? name with
  | none => exact .error rfl
  | some element =>
      refine FailsOnly.bind ?_ fun t _ => (checkpoint.readWords_not_fault _).bind fun _ _ => .ok _
      cases FieldType.of field tensor element with
      | ok t => exact .ok t
      | error e => exact .error rfl

theorem storedOpcode_not_fault : FailsOnly (·.isFault = false) checkpoint.storedOpcode := by
  refine (checkpoint.readText_not_fault _).bind fun text _ => ?_
  unfold Opcode.parse
  split
  · exact .ok _
  · exact .error rfl

end Checkpoint

namespace Circuit

variable (c : Circuit Action)

theorem register_not_fault (r : RegisterId) : FailsOnly (·.isFault = false) (c.register r) := by
  unfold register
  split
  · exact .ok _
  · exact .error rfl

theorem types_not_fault (registers : List RegisterId) :
    FailsOnly (·.isFault = false) (c.types registers) :=
  .mapM fun r _ => (c.register_not_fault r).bind fun _ _ => .ok _

theorem addDriver_not_fault {opcode : Opcode} {inputs : List RegisterId} {name : Option String}
    {action : Action} (h : action.outputTypes ≠ []) :
    FailsOnly (·.isFault = false) (c.addDriver opcode inputs name action) := by
  refine FailsOnly.bind ?_ fun result hadd => ?_
  · refine FailsOnly.bind (.forM fun r _ => ?_) fun _ _ => .ok _
    exact (c.register_not_fault r).bind fun _ _ => .ok _
  · obtain ⟨k, r, rest, hk, houtputs⟩ := exists_output_of_add hadd h
    refine .bind_of_ok hk ?_
    simp only [houtputs]
    exact .ok _

/-- Fixed values are not refused with a fault unless their field has no room for its words. -/
theorem constant_fault (label : String) (t : FieldType) (values : Array Float32) :
    FailsOnly (fun e => e.isFault = true → sizeBound ≤ t.words) (c.constant label t values) := by
  have hrefused : ∀ {α : Type} {x : Except CircuitError α}, FailsOnly (·.isFault = false) x →
      FailsOnly (fun e => e.isFault = true → sizeBound ≤ t.words) x := fun h e he hfault => by
    rw [h e he] at hfault
    cases hfault
  refine FailsOnly.bind ?_ fun a ha => hrefused (c.addDriver_not_fault (by
    simp [Action.outputTypes_of_ofValues ha]))
  unfold Action.ofValues
  rw [FieldType.words?_eq_checked, checked]
  split
  · exact hrefused (.ite (fun _ => .error rfl) fun _ => .ok _)
  · rename_i hlarge
    exact .error fun _ => Nat.le_of_not_lt hlarge

end Circuit

section Restoring

variable {checkpoint : Checkpoint} {c : Circuit Action} {inputs : List RegisterId} {env : Environment}

theorem Leads.bind_not_fault {α β : Type} {p : Prop} {x : Except CircuitError α} {f : α → EnvironmentM β}
    (h : FailsOnly (·.isFault = false) x)
    (hf : ∀ a, x = .ok a → Leads (f a) env (fun _ _ => True) fun e _ => e.isFault = true → p) :
    Leads (liftM x >>= f) env (fun _ _ => True) fun e _ => e.isFault = true → p :=
  .bind_lift hf fun e he hfault => by
    rw [h e he] at hfault
    cases hfault

theorem Restorer.constant_eq : constant checkpoint c inputs = (do
    let (t, values) ← (liftM checkpoint.storedConstant : EnvironmentM (FieldType × Array Float32))
    let (register, c) ← c.constant constantTag t values
    return ([register], c)) := by
  unfold constant Checkpoint.storedConstant
  refine liftM_bind_eq fun text _ => liftM_bind_eq fun field _ => liftM_bind_eq fun text _ =>
    liftM_bind_eq fun tensor _ => liftM_bind_eq fun name _ => ?_
  cases Element.ofName? name with
  | none => rfl
  | some element => exact liftM_bind_eq fun t _ => liftM_bind_eq fun values _ => rfl

theorem Restorer.device_eq : device checkpoint c inputs = (do
    let opcode ← (liftM checkpoint.storedOpcode : EnvironmentM Opcode)
    let (register, c) ← c.operation none opcode inputs
    return ([register], c)) :=
  liftM_bind_eq fun _ _ => rfl

/-- A constant is restored without a fault if its field has room for its words. -/
theorem Restorer.leads_constant : Leads (constant checkpoint c inputs) env (fun _ _ => True)
    fun e _ => e.isFault = true →
      ∃ t values, checkpoint.storedConstant = .ok (t, values) ∧ sizeBound ≤ t.words := by
  rw [constant_eq]
  refine Leads.bind_not_fault checkpoint.storedConstant_not_fault fun stored hstored => ?_
  obtain ⟨t, values⟩ := stored
  refine .bind_lift (fun _ _ => .pure trivial) fun e he hfault => ?_
  exact ⟨t, values, hstored, c.constant_fault constantTag t values e he hfault⟩

theorem Circuit.leads_operation (h : env.Accounted) (name : Option String) (o : Opcode) :
    Leads (c.operation name o inputs) env (fun _ _ => True) fun e _ => e.isFault = true →
      ∃ types, c.types inputs = .ok types ∧ ¬Synthesis.Moderate o types env.capabilities := by
  refine Leads.bind_not_fault (c.types_not_fault inputs) fun types htypes => ?_
  refine ((DeviceKernel.leads_of h o types).mono (fun _ _ _ => trivial) ?_).bind fun k _ (_ : True) => ?_
  · rintro e _ ⟨he, -⟩ hfault
    refine ⟨types, htypes, fun hm => ?_⟩
    rw [he hm] at hfault
    cases hfault
  · have houtput : (Action.device k).outputTypes ≠ [] := List.cons_ne_nil k.operation.output []
    refine .lift (fun _ _ => trivial) fun e he hfault => ?_
    rw [c.addDriver_not_fault houtput e he] at hfault
    cases hfault

/-- An operation is restored without a fault if its request is moderate. -/
theorem Restorer.leads_device (h : env.Accounted) :
    Leads (device checkpoint c inputs) env (fun _ _ => True) fun e _ => e.isFault = true →
      ∃ o types, checkpoint.storedOpcode = .ok o ∧ c.types inputs = .ok types ∧
        ¬Synthesis.Moderate o types env.capabilities := by
  rw [device_eq]
  refine Leads.bind_not_fault checkpoint.storedOpcode_not_fault fun o hopcode => ?_
  refine ((Circuit.leads_operation h none o).mono (fun _ _ _ => trivial) ?_).bind
    fun _ _ (_ : True) => .pure trivial
  intro e _ he hfault
  obtain ⟨types, htypes, hlarge⟩ := he hfault
  exact ⟨o, types, hopcode, htypes, hlarge⟩

/-- Restoring faults only over sizes that are too large, or for an operation if the accelerator does not
account for its memory. -/
theorem RestoreRegistry.leads_restore :
    Leads (builtin.restore checkpoint c inputs) env (fun _ _ => True)
      fun e _ => e.isFault = true → checkpoint.Oversized c inputs env.capabilities ∨
        (checkpoint.Opens deviceTag ∧ ¬env.Accounted) := by
  refine Leads.bind_not_fault (checkpoint.readText_not_fault _) fun tag htag => ?_
  cases hlookup : builtin.entries.lookup tag with
  | none => exact .throw fun hfault => by cases hfault
  | some entry =>
      obtain ⟨version, restorer⟩ := entry
      obtain ⟨rfl, hrestorer⟩ := builtin_of_lookup hlookup
      refine Leads.bind_not_fault (checkpoint.readVersionNumber_not_fault _) fun major hmajor => ?_
      refine Leads.bind_not_fault (checkpoint.readVersionNumber_not_fault _) fun minor hminor => ?_
      refine Leads.bind_not_fault (.ite (fun _ => .ok ()) fun _ => .error rfl) fun _ hcheck => ?_
      have hopens : checkpoint.Opens tag := by
        refine ⟨htag, major, minor, hmajor, hminor, ?_⟩
        unfold Version.check at hcheck
        split at hcheck
        · assumption
        · cases hcheck
      obtain ⟨rfl, rfl⟩ | ⟨rfl, rfl⟩ := hrestorer
      · by_cases h : env.Accounted
        · refine (Restorer.leads_device h).mono (fun _ _ _ => trivial) fun e _ he hfault => ?_
          obtain ⟨o, types, hopcode, htypes, hlarge⟩ := he hfault
          exact .inl (.operation hopens hopcode htypes hlarge)
        · exact ⟨fun _ _ _ => trivial, fun _ _ _ _ => .inr ⟨hopens, h⟩⟩
      · refine Restorer.leads_constant.mono (fun _ _ _ => trivial) fun e _ he hfault => ?_
        obtain ⟨t, values, hstored, hlarge⟩ := he hfault
        exact .inl (.constant hopens hstored hlarge)

theorem RestoreRegistry.restore_of_opens {tag : String} {restorer : Restorer}
    (h : checkpoint.Opens tag) (hlookup : builtin.entries.lookup tag = some (storedVersion, restorer)) :
    builtin.restore checkpoint c inputs = restorer checkpoint c inputs := by
  obtain ⟨htag, major, minor, hmajor, hminor, haccepts⟩ := h
  rw [restore, htag, liftM_ok_bind]
  simp only [hlookup, hmajor, hminor, liftM_ok_bind, Version.check, if_pos haccepts]

end Restoring

/-- Accounts are kept when kernels are made, and when making them fails without a fault. -/
theorem DeviceKernel.keeps_accounted (o : Opcode) (types : List FieldType) :
    KeepsUnless (·.isFault = true) Environment.Accounted (DeviceKernel.of o types) fun _ => True :=
  fun _ henv => (leads_of henv o types).mono (fun _ _ h => ⟨trivial, h⟩) fun _ _ h hfine =>
    h.2 (Bool.eq_false_of_not_eq_true hfine)

theorem Circuit.constant_of_large {t : FieldType} (h : sizeBound ≤ t.words) (c : Circuit Action)
    (label : String) (values : Array Float32) :
    ∃ e, c.constant label t values = .error e ∧ e.isFault = true := by
  have hwords : t.words? = .error .sizeOverflow := by
    rw [FieldType.words?_eq_checked, checked, if_neg (Nat.not_lt.2 h)]
  rw [constant, Action.ofValues, hwords]
  exact ⟨_, rfl, rfl⟩

namespace Context

theorem run_restore_of_large {checkpoint : Checkpoint} {t : FieldType} {values : Array Float32}
    (hopens : checkpoint.Opens constantTag) (hstored : checkpoint.storedConstant = .ok (t, values))
    (hlarge : sizeBound ≤ t.words) (inputs : List RegisterId) (s : Context) :
    ∃ e, (restore checkpoint inputs).run.run s = (.error e, s) ∧ e.isFault = true := by
  obtain ⟨e, hconstant, hfault⟩ := s.circuit.constant_of_large hlarge constantTag values
  refine ⟨e, ?_, hfault⟩
  rw [restore_eq, run_commit, RestoreRegistry.restore_of_opens hopens rfl, Restorer.constant_eq,
    hstored, liftM_ok_bind]
  simp only [hconstant]
  rfl

/-- Whatever was requested of a context before, restoring from a checkpoint faults only over sizes that are
too large, or for an operation if one of the requests has faulted already; and a constant whose field has
no room for its words always faults. -/
theorem restore_faults {env : Environment} (henv : env.Accounted) (requests : List Request)
    (checkpoint : Checkpoint) (inputs : List RegisterId) :
    let s := requests.foldl Request.apply (.new env)
    (∀ e s', (restore checkpoint inputs).run.run s = (.error e, s') → e.isFault = true →
      checkpoint.Oversized s.circuit inputs s.environment.capabilities ∨
        (checkpoint.Opens deviceTag ∧ ¬Request.Course (.new env) requests)) ∧
    ∀ t values, checkpoint.Opens constantTag → checkpoint.storedConstant = .ok (t, values) →
      sizeBound ≤ t.words →
      ∃ e, (restore checkpoint inputs).run.run s = (.error e, s) ∧ e.isFault = true := by
  intro s
  refine ⟨fun e s' hrun hfault => ?_, fun t values hopens hstored hlarge => ?_⟩
  · have hrestore : Leads (RestoreRegistry.builtin.restore checkpoint s.circuit inputs) s.environment
        (fun _ _ => True) fun e _ =>
          e.isFault = true → checkpoint.Oversized s.circuit inputs s.environment.capabilities ∨
            (checkpoint.Opens deviceTag ∧ ¬s.environment.Accounted) :=
      RestoreRegistry.leads_restore
    rw [restore_eq] at hrun
    refine (((Request.leads_commit (fun _ _ => True) hrestore).2 e s' hrun).2 hfault).imp_right ?_
    rintro ⟨hopens, hs⟩
    exact ⟨hopens, fun hcourse =>
      hs (Request.foldl_apply DeviceKernel.keeps_accounted hcourse henv)⟩
  · exact run_restore_of_large hopens hstored hlarge inputs s

def storedField (extents : String) : Checkpoint :=
  ⟨[("tag", .text "constant"), ("version.major", .integer 1), ("version.minor", .integer 0),
    ("field_shape", .text extents), ("tensor_shape", .text ""), ("element", .text "Float"),
    ("values", .words #[1.0, 2.0])]⟩

def storedOperation (opcode : String) : Checkpoint :=
  ⟨[("tag", .text "device"), ("version.major", .integer 1), ("version.minor", .integer 0),
    ("opcode", .text opcode)]⟩

def hugeSquare : FieldType :=
  { FieldType.twoByThree with
    field := ⟨[4294967296, 4294967296]⟩
    field_le := by decide
    field_pos := by decide }

def pictured : Context :=
  [.construct (.constant "image" .twoByThree (.replicate 6 1.0))].foldl Request.apply
    (.new RestoreRegistry.sharing)

/-- Beside an image, the adjoint of a filter of nine weights is restored without a fault, and a constant on
a huge square faults. -/
theorem restore_faults_image :
    (∀ e s', (restore (storedOperation "filter_adjoint(3)") [0, 0]).run.run pictured = (.error e, s') →
      e.isFault = false) ∧
    ∃ e, (restore (storedField "4294967296,4294967296") []).run.run pictured = (.error e, pictured) ∧
      e.isFault = true := by
  have haccounted : RestoreRegistry.sharing.Accounted :=
    Environment.accounted_new _ (by decide) (PlanStore.sound_new true)
  have hmoderate : Synthesis.Moderate (.filterAdjoint 3) [.twoByThree, .twoByThree] .standard :=
    ⟨by decide, by decide, by rintro _ ⟨⟩; decide⟩
  refine ⟨fun e s' hrun => ?_, ?_⟩
  · cases hfault : e.isFault with
    | false => rfl
    | true =>
        obtain (⟨hopens, -, -⟩ | ⟨-, hstored, htypes, hlarge⟩) | ⟨-, hcourse⟩ :=
          (restore_faults haccounted [.construct (.constant "image" .twoByThree (.replicate 6 1.0))]
            (storedOperation "filter_adjoint(3)") [0, 0]).1 e s' hrun hfault
        · have htag : (.ok deviceTag : Except CircuitError String) = .ok constantTag := hopens.1
          exact absurd (Except.ok.inj htag) (by decide)
        · obtain rfl := Except.ok.inj hstored
          obtain rfl := Except.ok.inj htypes
          exact absurd hmoderate hlarge
        · exact absurd ⟨fun _ h => by (cases h), trivial⟩ hcourse
  · exact (restore_faults haccounted [.construct (.constant "image" .twoByThree (.replicate 6 1.0))]
      (storedField "4294967296,4294967296") []).2 hugeSquare #[1.0, 2.0] ⟨rfl, 1, 0, rfl, rfl, rfl⟩ rfl
      (by decide)

/-- What is stored may well be too large: a field whose extents fit but not the number of its points, and a
filter whose extent fits but not the number of its weights. -/
theorem restore_faults_huge :
    (∃ e, (restore (storedField "4294967296,4294967296") []).run.run pictured = (.error e, pictured) ∧
      e.isFault = true) ∧
    ∃ e s', (restore (storedOperation "filter_adjoint(4294967297)") [0, 0]).run.run pictured =
      (.error e, s') ∧ e.isFault = true := by
  constructor
  · have hopens : (storedField "4294967296,4294967296").Opens constantTag := ⟨rfl, 1, 0, rfl, rfl, rfl⟩
    exact run_restore_of_large (t := hugeSquare) hopens rfl (by decide) [] pictured
  -- The context after the fault is not looked into, because evaluating it takes the plan store with it.
  · have hrestore : ((RestoreRegistry.builtin.restore (storedOperation "filter_adjoint(4294967297)")
        pictured.circuit [0, 0]).run.run pictured.environment).1 =
        .error (.kernel (.fault .sizeOverflow)) := rfl
    rw [restore_eq, run_commit]
    generalize (RestoreRegistry.builtin.restore (storedOperation "filter_adjoint(4294967297)")
      pictured.circuit [0, 0]).run.run pictured.environment = result at hrestore
    obtain ⟨_, env⟩ := result
    obtain rfl := hrestore
    exact ⟨_, _, rfl, rfl⟩

end Context

end FieldCircuit
