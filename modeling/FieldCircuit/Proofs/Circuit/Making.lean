import FieldCircuit.Proofs.Circuit.Construction
import FieldCircuit.Proofs.Opcode.Text
import FieldCircuit.Proofs.PlanSharing

/-!
# Kernels that can be made again

The opcode of a kernel and the types of its operands say how the kernel was made. An operation of the
accelerator was synthesized for them, or shares the plan of one that matches, and so it can be
synthesized again with the same result type; a constant has as many values as its field has words. This
holds of every kernel of every circuit that is constructed by requests.
-/

namespace FieldCircuit

/-- The action can be made again from the opcode and operands of these types. -/
def Action.MadeFor (opcode : Opcode) (types : List FieldType) : Action → Prop
  | device k => k.opcode = opcode ∧ ∃ caps op, Synthesis.synthesize opcode types caps = .ok op ∧
      op.output = k.operation.output
  | constant t values => opcode = .constant ∧ t.words? = .ok values.size
  | sensor _ | actuator _ | host .. | recurrence .. => True

theorem Synthesis.kind_of_synthesize {o : Opcode} {inputs : List FieldType} {caps : Capabilities}
    {op : Operation} (h : synthesize o inputs caps = .ok op) : o.kind = .device := by
  cases o with
  | constant | sensor _ | actuator _ | host _ | recurrence => cases h
  | _ => rfl

theorem Synthesis.sized_of_synthesize {o : Opcode} {inputs : List FieldType} {caps : Capabilities}
    {op : Operation} (h : synthesize o inputs caps = .ok op) : o.Sized := by
  cases o with
  | filterAdjoint size =>
      obtain ⟨request, hprepare, hbuild⟩ := bind_eq_ok_iff.1 h
      obtain ⟨output, -, hprepare⟩ := bind_eq_ok_iff.1 hprepare
      obtain ⟨image, -, hprepare⟩ := bind_eq_ok_iff.1 hprepare
      obtain ⟨gradient, -, hprepare⟩ := bind_eq_ok_iff.1 hprepare
      obtain rfl := Except.ok.inj hprepare
      obtain ⟨p, hp, -⟩ := bind_eq_ok_iff.1
        (show Correlation.build size image gradient output caps = .ok op from hbuild)
      -- the outputs are kept in local memory, whose bytes are counted by a machine size
      obtain ⟨i, heq, hfits, -⟩ := TilePlan.search_eq_ok hp
      have hsize : p.size = size := congrArg TilePlan.size heq
      simp only [TilePlan.fits, Bool.and_eq_true, decide_eq_true_eq] at hfits
      calc size ≤ size * size := Nat.le_mul_self size
        _ = p.outputs := by rw [TilePlan.outputs, hsize]
        _ ≤ p.localWords := Nat.le_add_left _ _
        _ ≤ p.localBytes := Nat.le_mul_of_pos_right _ (by decide)
        _ < sizeBound := hfits.2
  | unary | scale | offset | binary | complexBinary | tensorReduce | convolve | fieldReduce | fft
  | constant | sensor | actuator | host | recurrence => trivial

/-- Two actions that are made for the same opcode and operands have the same result type. -/
theorem DeviceKernel.output_unique {k k' : DeviceKernel} {o : Opcode} {types : List FieldType}
    (h : (Action.device k).MadeFor o types) (h' : (Action.device k').MadeFor o types) :
    k.operation.output = k'.operation.output := by
  obtain ⟨-, caps, op, hop, houtput⟩ := h
  obtain ⟨-, caps', op', hop', houtput'⟩ := h'
  rw [← houtput, ← houtput']
  exact Except.ok.inj
    ((Synthesis.output_synthesize hop).symm.trans (Synthesis.output_synthesize hop'))

section Synthesized

variable (o : Opcode) (inputs : List FieldType)

/-- A plan has the result type of an operation that can be synthesized for the operands. -/
theorem Environment.keeps_made : Keeps (fun env : Environment => env.plans.Sound)
    (Environment.plan o inputs) fun plan => ∃ caps op,
      Synthesis.synthesize o inputs caps = .ok op ∧ op.output = plan.operation.output := by
  intro env henv
  refine ⟨(PlanStore.synthesize_spec henv o inputs env.capabilities).1, fun plan hplan => ?_⟩
  have hanswer : (env.plans.answer ⟨o, inputs, env.capabilities⟩).1 = .ok plan :=
    mapError_eq_ok_iff.1 hplan
  have hconcur := PlanStore.answer_concur henv ⟨o, inputs, env.capabilities⟩
  rw [hanswer] at hconcur
  generalize hfresh : Synthesis.synthesize o inputs env.capabilities = fresh at hconcur
  cases hconcur with
  | ok h => exact ⟨env.capabilities, _, hfresh, h.1.output.symm⟩

theorem Environment.keeps_plans_onBank {α : Type} (x : BankM α) :
    Keeps (fun env : Environment => env.plans.Sound) (Environment.onBank x) fun _ => True :=
  fun _ henv => ⟨henv, fun _ _ => trivial⟩

theorem DeviceKernel.keeps_made : Keeps (fun env : Environment => env.plans.Sound)
    (DeviceKernel.of o inputs) fun k => (Action.device k).MadeFor o inputs := by
  refine (Environment.keeps_made o inputs).bind fun plan hplan => ?_
  refine (Environment.keeps_plans_onBank _).bind fun intermediates _ => ?_
  exact Keeps.pure ⟨rfl, hplan⟩

end Synthesized

namespace Circuit

/-- Every kernel can be made again from its opcode and the types of its operands. -/
def Made (c : Circuit Action) : Prop :=
  ∀ (i : KernelId) (k : Kernel Action), c.kernels[i]? = some k →
    ∃ types, k.inputs.map c.type? = types.map some ∧ k.action.MadeFor k.opcode types

theorem made_empty : Made empty := fun i k hk => by simp [empty] at hk

variable {c c' : Circuit Action} {opcode : Opcode} {inputs : List RegisterId}
  {name : Option String} {action : Action} {id : KernelId}

theorem Made.add (h : c.Made) (hadd : c.add opcode inputs name action = .ok (id, c'))
    (hmade : ∀ types, inputs.map c.type? = types.map some → action.MadeFor opcode types) :
    c'.Made := by
  have htypes : ∀ {registers : List RegisterId} {types : List FieldType},
      registers.map c.type? = types.map some → registers.map c'.type? = types.map some := by
    intro registers types hregisters
    rw [← hregisters]
    exact List.map_congr_left fun r hr => type?_addKernel_of_lt hadd (lt_of_mem hregisters hr)
  intro i k hk
  rcases (getElem?_kernels_addKernel hadd).1 hk with hk | ⟨rfl, rfl⟩
  · obtain ⟨types, hinputs, hmade⟩ := h i k hk
    exact ⟨types, htypes hinputs, hmade⟩
  · obtain ⟨types, hinputs⟩ := exists_types_of_add hadd
    exact ⟨types, htypes hinputs, hmade types hinputs⟩

/-- An operation is added as a kernel that is made for the types of its operands. -/
theorem keeps_operation_made : Keeps (fun env : Environment => env.plans.Sound)
    (c.operation name opcode inputs) fun result => ∃ types d,
      inputs.map c.type? = types.map some ∧ (Action.device d).MadeFor opcode types ∧
      c.addDriver opcode inputs name (.device d) = .ok result := by
  refine (Keeps.lift fun types htypes => types_eq_ok htypes).bind fun types htypes => ?_
  refine (DeviceKernel.keeps_made opcode types).bind fun d hd => Keeps.lift fun result hok => ?_
  exact ⟨types, d, htypes, hd, hok⟩

theorem Made.keeps_operation (h : c.Made) : Keeps (fun env : Environment => env.plans.Sound)
    (c.operation name opcode inputs) fun result => result.2.Made := by
  refine keeps_operation_made.mono fun result hresult => ?_
  obtain ⟨types, d, htypes, hd, hok⟩ := hresult
  obtain ⟨id, hadd⟩ := addDriver_eq_ok hok
  exact h.add hadd fun others hothers => types_unique htypes hothers ▸ hd

theorem keeps_made_copy {types others : List FieldType} {a : Action} (h : a.MadeFor opcode others) :
    Keeps (fun env : Environment => env.plans.Sound) (a.copy types) (·.MadeFor opcode types) := by
  cases a with
  | device k =>
      obtain ⟨rfl, -⟩ := h
      exact (DeviceKernel.keeps_made k.opcode types).bind fun k' hk' => Keeps.pure hk'
  | sensor k => exact Keeps.throw _
  | actuator a => exact Keeps.throw _
  | constant t values => exact Keeps.pure h
  | host t f => exact Keeps.pure trivial
  | recurrence t initial => exact Keeps.pure trivial

theorem Made.keeps_copyKernel (h : c.Made) : Keeps (fun env : Environment => env.plans.Sound)
    (c.copyKernel id inputs) fun result => result.2.Made := by
  refine (Keeps.lift fun types htypes => types_eq_ok htypes).bind fun types htypes => ?_
  refine (Keeps.lift fun k hk => kernel_eq_ok hk).bind fun k hk => ?_
  obtain ⟨others, -, hmade⟩ := h id k hk
  refine (keeps_made_copy hmade).bind fun a ha => Keeps.lift fun result hadd => ?_
  exact h.add hadd fun others hothers => types_unique htypes hothers ▸ ha

theorem Made.keeps_perform (h : c.Made) (r : Request) :
    Keeps (fun env : Environment => env.plans.Sound) (r.perform c) Made := by
  cases r with
  | constant name t values =>
      refine Keeps.lift_snd fun r c' hok => ?_
      obtain ⟨hwords, hadd⟩ := constant_eq_ok_iff.1 hok
      obtain ⟨id, hadd⟩ := addDriver_eq_ok hadd
      exact h.add hadd fun _ _ => ⟨rfl, hwords⟩
  | sensor name t s =>
      refine Keeps.lift_snd fun r c' hok => ?_
      obtain ⟨id, s, -, hadd⟩ := sensor_eq_ok hok
      exact h.add hadd fun _ _ => trivial
  | host name inputs output function =>
      refine Keeps.lift_snd fun r c' hok => ?_
      obtain ⟨id, hadd⟩ := addDriver_eq_ok hok
      exact h.add hadd fun _ _ => trivial
  | operation name opcode inputs =>
      exact h.keeps_operation.bind fun result hresult => Keeps.pure hresult
  | actuator name input a =>
      exact Keeps.lift_snd fun id c' hok => h.add hok fun _ _ => trivial
  | recurrence name t initial =>
      refine Keeps.lift_snd fun r c' hok => ?_
      obtain ⟨id, -, hadd⟩ := recurrence_eq_ok hok
      exact h.add hadd fun _ _ => trivial
  | copyKernel kernel inputs =>
      exact h.keeps_copyKernel.bind fun result hresult => Keeps.pure hresult
  | bind target driver =>
      refine Keeps.lift fun c' hok => ?_
      obtain ⟨t, -, -, rfl⟩ := bind_eq_ok hok
      exact h

/-- Whatever is requested, every kernel can be made again. -/
theorem made_construct {env : Environment} (h : env.plans.Sound) (requests : List Request) :
    (construct env requests).1.Made :=
  (construct_induction made_empty (fun _ r hc => hc.keeps_perform r) h requests).1

end Circuit

end FieldCircuit
