import FieldCircuit.Proofs.Circuit.WellFormed
import FieldCircuit.Proofs.Memory.Allocation

/-!
# Circuits under construction

A circuit is constructed by requests, in any order and each against the environment that the one before
it has left. Whatever is requested, and whether or not it is refused, the circuit stays well-formed and
the environment stays in order.
-/

namespace FieldCircuit

/-- The memory of the device is in order, and every plan that is kept was made for its key. -/
structure Environment.Sound (env : Environment) : Prop where
  bank : env.bank.Sound
  plans : env.plans.Sound

namespace Environment

theorem sound_new (device : DeviceSpec) (capabilities : Capabilities) {plans : PlanStore}
    (h : plans.Sound) : (Environment.new device capabilities plans).Sound :=
  ⟨device.sound_bank capabilities, h⟩

theorem keeps_onBank {α : Type} {x : BankM α} {p : α → Prop} (h : Keeps Bank.Sound x p) :
    Keeps Environment.Sound (Environment.onBank x) p := by
  intro env henv
  obtain ⟨hbank, hp⟩ := h env.bank henv.bank
  exact ⟨⟨hbank, henv.plans⟩, fun a ha => hp a (mapError_eq_ok_iff.1 ha)⟩

theorem keeps_plan (o : Opcode) (inputs : List FieldType) :
    Keeps Environment.Sound (Environment.plan o inputs) fun plan =>
      o.kind = .device ∧ plan.operation.Serves inputs := by
  intro env henv
  obtain ⟨hplans, hserves⟩ := PlanStore.synthesize_spec henv.plans o inputs env.capabilities
  refine ⟨⟨henv.bank, hplans⟩, fun plan hplan => ?_⟩
  have hok : (env.plans.synthesize o inputs env.capabilities).1 = .ok plan :=
    mapError_eq_ok_iff.1 hplan
  refine ⟨?_, hserves plan hok⟩
  cases o with
  | constant | sensor _ | actuator _ | host _ | recurrence => cases hok
  | _ => rfl

end Environment

theorem DeviceKernel.keeps_of (o : Opcode) (inputs : List FieldType) :
    Keeps Environment.Sound (DeviceKernel.of o inputs) fun k =>
      o.kind = .device ∧ (Action.device k).Suits inputs := by
  refine (Environment.keeps_plan o inputs).bind fun plan hplan => ?_
  refine Keeps.bind (p := fun intermediates => List.Forall₂ (Buffer.New .accelerator · .single ·)
    plan.operation.intermediates intermediates) (Environment.keeps_onBank (Bank.keeps_all ?_ ?_)) ?_
  · exact fun n _ => Buffer.keeps_allocate .accelerator n .single
  · exact fun n b hb => hb.liesOn.keeps_release
  · intro intermediates hnew
    refine Keeps.pure ⟨hplan.1, hplan.2, ?_⟩
    exact List.Forall₂.flip (hnew.imp fun n b hb => ⟨hb.length_eq, _, hb.carries⟩)

/-- The sensor is not in the middle of a window and has not fetched anything. -/
structure SensorKernel.Rested (s : SensorKernel) : Prop where
  deadline : s.pacing.deadline = none
  staged : s.staged = none

namespace Circuit

def Rested (c : Circuit Action) : Prop :=
  ∀ (i : KernelId) (k : Kernel Action), c.kernels[i]? = some k → ∀ s, k.action = .sensor s →
    s.Rested

structure Valid (c : Circuit Action) : Prop where
  wellFormed : c.WellFormed
  rested : c.Rested

theorem valid_empty : Valid empty :=
  ⟨wellFormed_empty, fun i k hk => by simp [empty] at hk⟩

variable {c c' : Circuit Action} {opcode : Opcode} {inputs : List RegisterId}
  {name : Option String} {action : Action} {id : KernelId}

theorem exists_types_of_add (h : c.add opcode inputs name action = .ok (id, c')) :
    ∃ types : List FieldType, inputs.map c.type? = types.map some := by
  obtain ⟨_, hinputs, -⟩ := bind_eq_ok_iff.1 h
  have hall := forM_eq_ok_iff.1 hinputs
  clear hinputs h
  induction inputs with
  | nil => exact ⟨[], rfl⟩
  | cons r inputs ih =>
      obtain ⟨types, htypes⟩ := ih fun i hi => hall i (List.mem_cons_of_mem _ hi)
      obtain ⟨w, hw, -⟩ := map_eq_ok_iff.1 (hall r (List.mem_cons_self ..))
      refine ⟨w.fieldType :: types, ?_⟩
      rw [List.map_cons, List.map_cons, htypes, type?, register_eq_ok hw, Option.map_some]

theorem Valid.add (h : c.Valid) (hadd : c.add opcode inputs name action = .ok (id, c'))
    (hsuits : ∀ types, inputs.map c.type? = types.map some → action.Suits types)
    (hkind : opcode.kind = action.kind)
    (hrested : ∀ s, action = .sensor s → s.Rested) : c'.Valid := by
  obtain ⟨types, htypes⟩ := exists_types_of_add hadd
  refine ⟨h.wellFormed.addKernel hadd htypes (hsuits types htypes) hkind ?_, ?_⟩
  · rw [List.map_map]
    exact List.zipIdx_map_fst 0 _
  · intro i k hk s hs
    rcases (getElem?_kernels_addKernel hadd).1 hk with hk | ⟨rfl, rfl⟩
    · exact h.rested i k hk s hs
    · exact hrested s hs

theorem addDriver_eq_ok {output : RegisterId}
    (h : c.addDriver opcode inputs name action = .ok (output, c')) :
    ∃ id, c.add opcode inputs name action = .ok (id, c') := by
  obtain ⟨⟨id, c₁⟩, hadd, h⟩ := bind_eq_ok_iff.1 h
  obtain ⟨k, -, h⟩ := bind_eq_ok_iff.1 h
  split at h
  · cases h
  · obtain ⟨-, rfl⟩ := Prod.mk.inj (Except.ok.inj h)
    exact ⟨id, hadd⟩

theorem types_unique {types others : List FieldType} (h : inputs.map c.type? = types.map some)
    (hothers : inputs.map c.type? = others.map some) : types = others :=
  List.map_injective_iff.2 (Option.some_injective _) (h.symm.trans hothers)

section Requests

variable {label : String} {t : FieldType} {output : RegisterId}

theorem constant_eq_ok_iff {values : Array Float32} : c.constant label t values = .ok (output, c') ↔
    t.words? = .ok values.size ∧
      c.addDriver .constant [] (some label) (.constant t values) = .ok (output, c') := by
  unfold Circuit.constant Action.ofValues
  constructor
  · intro h
    obtain ⟨a, ha, hadd⟩ := bind_eq_ok_iff.1 h
    obtain ⟨expected, hexpected, ha⟩ := bind_eq_ok_iff.1 ha
    by_cases hsize : values.size = expected
    · rw [if_neg (not_not.2 hsize)] at ha
      obtain rfl := Except.ok.inj ha
      exact ⟨hsize ▸ liftCircuit_eq_ok_iff.1 hexpected, hadd⟩
    · rw [if_pos hsize] at ha
      cases ha
  · rintro ⟨hwords, hadd⟩
    rw [liftCircuit_eq_ok_iff.2 hwords, ok_bind, if_neg (not_not.2 rfl)]
    exact hadd

theorem Valid.constant {values : Array Float32} (h : c.Valid)
    (hok : c.constant label t values = .ok (output, c')) : c'.Valid := by
  obtain ⟨hwords, hadd⟩ := constant_eq_ok_iff.1 hok
  obtain ⟨id, hadd⟩ := addDriver_eq_ok hadd
  exact h.add hadd (fun types _ => FieldType.words?_eq_ok hwords) rfl (fun s hs => by cases hs)

theorem sensor_eq_ok {x : Sensor} (h : c.sensor label t x = .ok (output, c')) :
    ∃ id s, s.Rested ∧ c.add (.sensor label) [] (some label) (.sensor s) = .ok (id, c') := by
  obtain ⟨k, hk, hadd⟩ := bind_eq_ok_iff.1 h
  obtain ⟨id, hadd⟩ := addDriver_eq_ok hadd
  obtain ⟨p, hp, hk⟩ := bind_eq_ok_iff.1 (liftCircuit_eq_ok_iff.1 hk)
  obtain rfl := Except.ok.inj hk
  refine ⟨id, _, ⟨?_, rfl⟩, hadd⟩
  unfold Pacing.ofRate at hp
  split at hp
  · obtain ⟨_, _, hp⟩ := bind_eq_ok_iff.1 hp
    rw [← Except.ok.inj hp]
  · rw [← Except.ok.inj hp]

theorem Valid.sensor {x : Sensor} (h : c.Valid) (hok : c.sensor label t x = .ok (output, c')) :
    c'.Valid := by
  obtain ⟨id, s, hrested, hadd⟩ := sensor_eq_ok hok
  refine h.add hadd (fun types _ => trivial) rfl ?_
  rintro _ ⟨⟩
  exact hrested

theorem Valid.actuator {input : RegisterId} {a : Actuator} (h : c.Valid)
    (hok : c.actuator label input a = .ok (id, c')) : c'.Valid := by
  refine h.add hok (fun types htypes => ?_) rfl (fun s hs => by cases hs)
  have hlength := congrArg List.length htypes
  rw [List.length_map, List.length_map] at hlength
  exact hlength.symm

theorem Valid.host {function : HostFunction} (h : c.Valid)
    (hok : c.host label inputs t function = .ok (output, c')) : c'.Valid := by
  obtain ⟨id, hadd⟩ := addDriver_eq_ok hok
  exact h.add hadd (fun _ _ => trivial) rfl (fun s hs => by cases hs)

/-- Recurrences are added if they have no initial values or such that fill the field. -/
theorem recurrence_eq_ok {initial : Option (Array Float32)}
    (h : c.recurrence label t initial = .ok (output, c')) :
    ∃ id, (∀ values ∈ initial, values.size = t.words) ∧
      c.add .recurrence [] (some label) (.recurrence t initial) = .ok (id, c') := by
  unfold Circuit.recurrence at h
  cases initial with
  | none =>
      obtain ⟨id, hadd⟩ := addDriver_eq_ok h
      exact ⟨id, fun _ hnone => (by cases hnone), hadd⟩
  | some values =>
      obtain ⟨expected, hexpected, h⟩ := bind_eq_ok_iff.1 h
      by_cases hsize : values.size = expected
      · rw [if_neg (not_not.2 hsize)] at h
        obtain ⟨id, hadd⟩ := addDriver_eq_ok h
        refine ⟨id, ?_, hadd⟩
        rintro _ ⟨⟩
        exact hsize.trans (FieldType.words?_eq_ok (liftCircuit_eq_ok_iff.1 hexpected))
      · rw [if_pos hsize] at h
        cases h

theorem Valid.recurrence {initial : Option (Array Float32)} (h : c.Valid)
    (hok : c.recurrence label t initial = .ok (output, c')) : c'.Valid := by
  obtain ⟨id, hsize, hadd⟩ := recurrence_eq_ok hok
  exact h.add hadd (fun _ _ => hsize) rfl (fun s hs => by cases hs)

theorem Valid.keeps_operation (h : c.Valid) :
    Keeps Environment.Sound (c.operation name opcode inputs) fun result => result.2.Valid := by
  refine (Keeps.lift fun types htypes => types_eq_ok htypes).bind fun types htypes => ?_
  refine (DeviceKernel.keeps_of opcode types).bind fun k hk => Keeps.lift fun result hok => ?_
  obtain ⟨id, hadd⟩ := addDriver_eq_ok hok
  refine h.add hadd (fun others hothers => ?_) hk.1 (fun s hs => by cases hs)
  exact types_unique htypes hothers ▸ hk.2

theorem kernel_eq_ok {k : Kernel Action} (h : c.kernel id = .ok k) : c.kernels[id]? = some k := by
  unfold Circuit.kernel at h
  split at h
  · rename_i k' hk'
    exact Except.ok.inj h ▸ hk'
  · cases h

theorem keeps_copy {types others : List FieldType} {a : Action} (h : a.Suits others) :
    Keeps Environment.Sound (a.copy types) fun b =>
      b.kind = a.kind ∧ b.Suits types ∧ ∀ s, b ≠ .sensor s := by
  cases a with
  | device k =>
      refine (DeviceKernel.keeps_of k.opcode types).bind fun k' hk' => Keeps.pure ?_
      exact ⟨rfl, hk'.2, fun s hs => by cases hs⟩
  | sensor k => exact Keeps.throw _
  | actuator a => exact Keeps.throw _
  | constant t values => exact Keeps.pure ⟨rfl, h, fun s hs => by cases hs⟩
  | host t f => exact Keeps.pure ⟨rfl, trivial, fun s hs => by cases hs⟩
  | recurrence t initial => exact Keeps.pure ⟨rfl, h, fun s hs => by cases hs⟩

theorem Valid.keeps_copyKernel (h : c.Valid) :
    Keeps Environment.Sound (c.copyKernel id inputs) fun result => result.2.Valid := by
  refine (Keeps.lift fun types htypes => types_eq_ok htypes).bind fun types htypes => ?_
  refine (Keeps.lift fun k hk => kernel_eq_ok hk).bind fun k hk => ?_
  have hfits := h.wellFormed.fits id k hk
  obtain ⟨others, -, hsuits⟩ := hfits.inputs
  refine (keeps_copy hsuits).bind fun a ha => Keeps.lift fun result hadd => ?_
  refine h.add hadd (fun others hothers => types_unique htypes hothers ▸ ha.2.1) ?_ ?_
  · exact hfits.kind.trans ha.1.symm
  · exact fun s hs => absurd hs (ha.2.2 s)

end Requests

inductive Request
  | constant (name : String) (fieldType : FieldType) (values : Array Float32)
  | sensor (name : String) (fieldType : FieldType) (sensor : Sensor)
  | host (name : String) (inputs : List RegisterId) (output : FieldType) (function : HostFunction)
  | operation (name : Option String) (opcode : Opcode) (inputs : List RegisterId)
  | actuator (name : String) (input : RegisterId) (actuator : Actuator)
  | recurrence (name : String) (fieldType : FieldType) (initial : Option (Array Float32))
  | copyKernel (kernel : KernelId) (inputs : List RegisterId)
  | bind (recurrence driver : RegisterId)

namespace Request

def perform (c : Circuit Action) : Request → EnvironmentM (Circuit Action)
  | constant name t values => do return (← c.constant name t values).2
  | sensor name t s => do return (← c.sensor name t s).2
  | host name inputs output function => do return (← c.host name inputs output function).2
  | operation name opcode inputs => do return (← c.operation name opcode inputs).2
  | actuator name input a => do return (← c.actuator name input a).2
  | recurrence name t initial => do return (← c.recurrence name t initial).2
  | copyKernel kernel inputs => do return (← c.copyKernel kernel inputs).2
  | bind target driver => liftM (c.bind target driver)

/-- The circuit and the environment after a request. A refused request leaves the circuit as it
was. -/
def apply (x : Circuit Action × Environment) (r : Request) : Circuit Action × Environment :=
  match (r.perform x.1).run.run x.2 with
  | (.ok c, env) => (c, env)
  | (.error _, env) => (x.1, env)

end Request

/-- The circuit that requests construct in an environment, and what becomes of the environment. -/
def construct (env : Environment) (requests : List Request) : Circuit Action × Environment :=
  requests.foldl Request.apply (.empty, env)

theorem Valid.keeps_perform (h : c.Valid) (r : Request) :
    Keeps Environment.Sound (r.perform c) Valid := by
  cases r with
  | constant name t values =>
      exact Keeps.lift_snd fun _ c' hok => h.constant hok
  | sensor name t s =>
      exact Keeps.lift_snd fun _ c' hok => h.sensor hok
  | host name inputs output function =>
      exact Keeps.lift_snd fun _ c' hok => h.host hok
  | operation name opcode inputs =>
      exact h.keeps_operation.bind fun result hresult => Keeps.pure hresult
  | actuator name input a =>
      exact Keeps.lift_snd fun _ c' hok => h.actuator hok
  | recurrence name t initial =>
      exact Keeps.lift_snd fun _ c' hok => h.recurrence hok
  | copyKernel kernel inputs =>
      exact h.keeps_copyKernel.bind fun result hresult => Keeps.pure hresult
  | bind target driver =>
      refine Keeps.lift fun c' hok => ?_
      obtain ⟨t, -, -, rfl⟩ := bind_eq_ok hok
      exact ⟨h.wellFormed.bind hok, h.rested⟩

theorem construct_induction {inv : Environment → Prop} {p : Circuit Action → Prop}
    (hempty : p .empty) (hperform : ∀ c r, p c → Keeps inv (Request.perform c r) p)
    {env : Environment} (h : inv env) (requests : List Request) :
    p (construct env requests).1 ∧ inv (construct env requests).2 := by
  have hall : ∀ (l : List Request) (x : Circuit Action × Environment), p x.1 → inv x.2 →
      p (l.foldl Request.apply x).1 ∧ inv (l.foldl Request.apply x).2 := by
    intro l
    induction l with
    | nil => exact fun x hc henv => ⟨hc, henv⟩
    | cons r l ih =>
        intro x hc henv
        obtain ⟨henv', hc'⟩ := hperform x.1 r hc x.2 henv
        rw [List.foldl_cons]
        unfold Request.apply
        generalize (r.perform x.1).run.run x.2 = result at henv' hc'
        rcases result with ⟨_ | c, env'⟩
        · exact ih _ hc henv'
        · exact ih _ (hc' c rfl) henv'
  exact hall requests _ hempty h

/-- Whatever is requested, the circuit is well-formed and the environment stays in order. -/
theorem construct_spec {env : Environment} (h : env.Sound) (requests : List Request) :
    (construct env requests).1.Valid ∧ (construct env requests).2.Sound :=
  construct_induction valid_empty (fun _ r hc => hc.keeps_perform r) h requests

end Circuit

end FieldCircuit
