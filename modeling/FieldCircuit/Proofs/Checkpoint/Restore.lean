import FieldCircuit.Proofs.Checkpoint.Stored
import FieldCircuit.Proofs.Circuit.Making

/-!
# Saved kernels are restored

A constant and an operation of the accelerator are saved as the parameters that they were made from, and
restoring makes them again: a constant with the same values anywhere, an operation wherever it could be
added to a circuit with the same operand types. The circuit gains this one kernel, and the register that
the kernel drives is of the type that it was of in the circuit that the kernel was saved from.
-/

namespace FieldCircuit

namespace Circuit

/-- The circuit `c'` is `c` with one more kernel, which drives one more register of the given type. -/
structure Gains (c : Circuit Action) (k : Kernel Action) (r : RegisterId) (t : FieldType)
    (c' : Circuit Action) : Prop where
  kernels : c'.kernels = c.kernels.push k
  outputs : k.outputs = [r]
  size : c'.registers.size = c.registers.size + 1
  type : c'.type? r = some t
  kept : ∀ s < c.registers.size, c'.type? s = c.type? s
  recurrences : c'.recurrences = c.recurrences

variable {c c' : Circuit Action} {opcode : Opcode} {inputs : List RegisterId}
  {name : Option String} {action : Action} {r : RegisterId} {t : FieldType}

theorem add_eq_addKernel (ht : action.outputTypes = [t]) : c.add opcode inputs name action =
    c.addKernel opcode inputs [(outputName opcode c.registers.size name 0, t)] action := by
  rw [Circuit.add, ht]
  rfl

theorem gains_of_addDriver (h : c.addDriver opcode inputs name action = .ok (r, c'))
    (ht : action.outputTypes = [t]) (hkind : opcode.kind ≠ .recurrence) :
    c.Gains (c.newKernel opcode inputs 1 action) r t c' := by
  obtain ⟨⟨id, c₁⟩, hadd, h⟩ := bind_eq_ok_iff.1 h
  obtain ⟨k, hk, h⟩ := bind_eq_ok_iff.1 h
  rw [add_eq_addKernel ht] at hadd
  obtain ⟨rfl, hkernels, hregisters, -⟩ := addKernel_eq_ok hadd
  have hlast := kernel_eq_ok hk
  rw [hkernels, Array.getElem?_push_size] at hlast
  obtain rfl := Option.some.inj hlast
  obtain ⟨rfl, rfl⟩ := Prod.mk.inj (Except.ok.inj h)
  refine ⟨hkernels, rfl, ?_, ?_, fun s hs => type?_addKernel_of_lt hadd hs, ?_⟩
  · rw [hregisters, produce, List.foldl_cons, List.foldl_nil, Array.size_push, size_consume]
  · change c₁.registers[c.registers.size]?.map Wire.fieldType = some t
    rw [getElem?_addKernel_fresh hadd (Nat.le_refl _), Nat.sub_self]
    rfl
  · rcases recurrences_addKernel hadd with ⟨heq, -⟩ | ⟨-, heq⟩
    · exact absurd heq hkind
    · exact heq

theorem exists_addDriver (c : Circuit Action) (opcode : Opcode) (name : Option String)
    (ht : action.outputTypes = [t]) : ∃ r c', c.addDriver opcode [] name action = .ok (r, c') := by
  obtain ⟨id, c', hadd⟩ : ∃ id c', c.addKernel opcode []
      [(outputName opcode c.registers.size name 0, t)] action = .ok (id, c') := ⟨_, _, rfl⟩
  obtain ⟨rfl, hkernels, -, -⟩ := addKernel_eq_ok hadd
  have hkernel : c'.kernel c.kernels.size = .ok (c.newKernel opcode [] 1 action) := by
    rw [Circuit.kernel, hkernels, Array.getElem?_push_size]
    rfl
  refine ⟨c.registers.size, c', ?_⟩
  rw [addDriver, add_eq_addKernel ht, hadd, ok_bind]
  simp only [hkernel, ok_bind]
  rfl

theorem save_eq_ok {id : KernelId} {k : Kernel Action} {p : Parameters} (hk : c.kernel id = .ok k)
    (hp : k.action.parameters? = some p) (prior : Checkpoint) :
    c.save id prior = .ok (true, p.save prior) := by
  simp only [Circuit.save, hk, ok_bind, hp]
  rfl

end Circuit

namespace Restorer

variable {p : Parameters} (prior : Checkpoint) (c : Circuit Action) (inputs : List RegisterId)

theorem constant_save {t : FieldType} {values : Array Float32} {n : Nat}
    (hp : (Action.constant t values).parameters? = some p) (hwords : t.words? = .ok n) :
    constant (p.save prior) c inputs = (do
      let (r, c) ← c.constant constantTag t values
      return ([r], c) : EnvironmentM (List RegisterId × Circuit Action)) := by
  have hread : ∀ name value, (name, value) ∈ p.fields → (p.save prior).get? name = some value :=
    fun name value hmem => Action.get?_save hp prior hmem
  obtain rfl := Option.some.inj hp
  have hfield := Checkpoint.readText_eq_ok (hread "field_shape" (.text (storedExtents t.field))
    (by simp))
  have htensor := Checkpoint.readText_eq_ok (hread "tensor_shape" (.text (storedExtents t.tensor))
    (by simp))
  have helement := Checkpoint.readText_eq_ok (hread "element" (.text t.element.name) (by simp))
  have hvalues := Checkpoint.readWords_eq_ok (hread "values" (.words values) (by simp))
  obtain ⟨hfieldLt, htensorLt⟩ := FieldType.extents_lt_of_words? hwords
  have htype : (liftM (FieldType.of t.field t.tensor t.element) : Except CircuitError FieldType) =
      .ok t := by
    simp only [FieldType.of, dif_pos t.field_le, dif_pos t.tensor_le, dif_pos t.field_pos,
      dif_pos t.tensor_pos]
    rfl
  simp only [constant, hfield, htensor, helement, hvalues, liftM_ok_bind, Element.ofName?_name,
    readExtents_storedExtents hfieldLt, readExtents_storedExtents htensorLt, htype]

theorem device_save {k : DeviceKernel} (hp : (Action.device k).parameters? = some p)
    (hnumeric : k.opcode.Numeric) (hsized : k.opcode.Sized) :
    device (p.save prior) c inputs = (do
      let (r, c) ← c.operation none k.opcode inputs
      return ([r], c) : EnvironmentM (List RegisterId × Circuit Action)) := by
  have hread : (p.save prior).readText "opcode" = .ok k.opcode.render := by
    refine Checkpoint.readText_eq_ok (Action.get?_save hp prior ?_)
    obtain rfl := Option.some.inj hp
    exact List.mem_cons_self
  have hparse : Opcode.parse k.opcode.render = .ok k.opcode := by
    rw [Opcode.parse, Opcode.parse?_render hnumeric hsized]
  rw [device, hread, liftM_ok_bind, hparse]
  rfl

end Restorer

namespace RestoreRegistry

/-- Restoring from the checkpoint succeeds, and the circuit gains a kernel with this opcode and these
operands, which drives a register of this type and whose action has the property. -/
def Restores (saved : Checkpoint) (c : Circuit Action) (inputs : List RegisterId) (env : Environment)
    (opcode : Opcode) (operands : List RegisterId) (t : FieldType) (p : Action → Prop) : Prop :=
  ∃ r k c' env', (builtin.restore saved c inputs).run.run env = (.ok ([r], c'), env') ∧
    c.Gains k r t c' ∧ k.opcode = opcode ∧ k.inputs = operands ∧ p k.action

variable {p : Parameters} (prior : Checkpoint) {c : Circuit Action} {inputs : List RegisterId}
  {env : Environment}

theorem restores_constant {t : FieldType} {values : Array Float32}
    (hp : (Action.constant t values).parameters? = some p) (hwords : t.words? = .ok values.size) :
    Restores (p.save prior) c inputs env .constant [] t (· = .constant t values) := by
  have houtput : (Action.constant t values).outputTypes = [t] := rfl
  obtain ⟨r, c', hadd⟩ := c.exists_addDriver .constant (some constantTag) houtput
  have hconstant : c.constant constantTag t values = .ok (r, c') :=
    Circuit.constant_eq_ok_iff.2 ⟨hwords, hadd⟩
  refine ⟨r, _, c', env, ?_, Circuit.gains_of_addDriver hadd houtput (by decide), rfl, rfl, rfl⟩
  have hrestorer : builtin.restore (p.save prior) c inputs =
      Restorer.constant (p.save prior) c inputs :=
    restore_save hp (Option.some.inj hp ▸ rfl) prior c inputs
  rw [hrestorer, Restorer.constant_save prior c inputs hp hwords, hconstant]
  rfl

/-- An operation that was saved is restored wherever it could be added on operands of the same types. -/
theorem restores_device {d : DeviceKernel} {types : List FieldType}
    (hp : (Action.device d).parameters? = some p) (hmade : (Action.device d).MadeFor d.opcode types)
    (hnumeric : d.opcode.Numeric) (henv : env.plans.Sound)
    (hinputs : inputs.map c.type? = types.map some)
    (hok : ∃ result, ((c.operation none d.opcode inputs).run.run env).1 = .ok result) :
    Restores (p.save prior) c inputs env d.opcode inputs d.operation.output
      fun a => ∃ d', a = .device d' ∧ d'.opcode = d.opcode := by
  obtain ⟨⟨r, c'⟩, hok⟩ := hok
  obtain ⟨types', d', htypes', hmade', hadd⟩ := (Circuit.keeps_operation_made env henv).2 _ hok
  obtain rfl := Circuit.types_unique hinputs htypes'
  have houtput : (Action.device d').outputTypes = [d.operation.output] := by
    rw [← DeviceKernel.output_unique hmade' hmade]
    rfl
  obtain ⟨-, caps, op, hop, -⟩ := hmade
  have hsized : d.opcode.Sized := Synthesis.sized_of_synthesize hop
  have hkind : d.opcode.kind ≠ .recurrence := Synthesis.kind_of_synthesize hop ▸ by decide
  have hgains := Circuit.gains_of_addDriver hadd houtput hkind
  refine ⟨r, _, c', ((c.operation none d.opcode inputs).run.run env).2, ?_, hgains, rfl, rfl, d', rfl,
    hmade'.1⟩
  have hrestorer : builtin.restore (p.save prior) c inputs =
      Restorer.device (p.save prior) c inputs :=
    restore_save hp (Option.some.inj hp ▸ rfl) prior c inputs
  rw [hrestorer, Restorer.device_save prior c inputs hp hnumeric hsized, run_bind]
  generalize (c.operation none d.opcode inputs).run.run env = result at hok
  obtain ⟨result, env'⟩ := result
  obtain rfl : result = _ := hok
  rfl

/-- Checkpoints round trip. In a circuit that was constructed by requests, every constant can be saved, and
every operation of the accelerator whose parameter is a number, if it has one, whatever the checkpoint
held before. Restoring makes a circuit gain this one kernel, with the same opcode, whose register is of
the same type: a constant with the same values in any circuit, an operation in any circuit to which it
could be added on operands of the types that it had. -/
theorem restores_saved {env : Environment} (h : env.Sound) (requests : List Circuit.Request)
    {id : KernelId} {k : Circuit.Kernel Action}
    (hk : (Circuit.construct env requests).1.kernel id = .ok k) (prior : Checkpoint) :
    (∀ t values, k.action = .constant t values → ∃ saved r,
      (Circuit.construct env requests).1.save id prior = .ok (true, saved) ∧
      k.outputs = [r] ∧ (Circuit.construct env requests).1.type? r = some t ∧
      ∀ (c : Circuit Action) (inputs : List RegisterId) (env' : Environment),
        Restores saved c inputs env' k.opcode [] t (· = .constant t values)) ∧
    ∀ d, k.action = .device d → k.opcode.Numeric → ∃ saved r t,
      (Circuit.construct env requests).1.save id prior = .ok (true, saved) ∧
      k.outputs = [r] ∧ (Circuit.construct env requests).1.type? r = some t ∧
      ∀ (c : Circuit Action) (inputs : List RegisterId) (env' : Environment), env'.plans.Sound →
        inputs.map c.type? = k.inputs.map (Circuit.construct env requests).1.type? →
        (∃ result, ((c.operation none k.opcode inputs).run.run env').1 = .ok result) →
        Restores saved c inputs env' k.opcode inputs t
          fun a => ∃ d', a = .device d' ∧ d'.opcode = k.opcode := by
  have hvalid := (Circuit.construct_spec h requests).1
  have hmade := Circuit.made_construct h.plans requests
  generalize (Circuit.construct env requests).1 = source at hk hvalid hmade
  have hfits := hvalid.wellFormed.fits id k (Circuit.kernel_eq_ok hk)
  obtain ⟨types, htypes, hmade⟩ := hmade id k (Circuit.kernel_eq_ok hk)
  have houtput : ∀ t, k.action.outputTypes = [t] → ∃ r, k.outputs = [r] ∧ source.type? r = some t := by
    intro t ht
    have houtputs := hfits.outputs
    rw [ht, List.map_singleton, List.map_eq_singleton_iff] at houtputs
    exact houtputs
  refine ⟨fun t values haction => ?_, fun d haction hnumeric => ?_⟩
  · rw [haction] at hmade
    obtain ⟨r, houtputs, htype⟩ := houtput t (by rw [haction]; rfl)
    obtain ⟨p, hp⟩ : ∃ p, (Action.constant t values).parameters? = some p := ⟨_, rfl⟩
    refine ⟨p.save prior, r, Circuit.save_eq_ok hk (haction ▸ hp) prior, houtputs, htype, ?_⟩
    intro c inputs env'
    rw [hmade.1]
    exact restores_constant prior hp hmade.2
  · rw [haction] at hmade
    obtain ⟨r, houtputs, htype⟩ := houtput d.operation.output (by rw [haction]; rfl)
    obtain ⟨p, hp⟩ : ∃ p, (Action.device d).parameters? = some p := ⟨_, rfl⟩
    refine ⟨p.save prior, r, d.operation.output, Circuit.save_eq_ok hk (haction ▸ hp) prior, houtputs,
      htype, ?_⟩
    intro c inputs env' henv' hinputs hok
    have hopcode : d.opcode = k.opcode := hmade.1
    rw [← hopcode] at hmade hnumeric hok ⊢
    exact restores_device prior hp hmade hnumeric henv' (hinputs.trans htypes) hok

def sharing : Environment := .new .standard .standard (.new true)

def adjointRequests : List Circuit.Request :=
  [.constant "image" .twoByThree (.replicate 6 1.0), .operation none (.filterAdjoint 3) [0, 0]]

def pictured : Circuit Action where
  kernels := #[⟨0, .constant, [], [0], .constant .twoByThree (.replicate 6 1.0)⟩]
  registers := #[⟨0, "image", .twoByThree, 0, []⟩]
  recurrences := []

/-- The operation is saved over what another kernel has left and restored into the circuit with nothing but
the image; the image is restored into a circuit with nothing. -/
theorem restores_saved_adjoint :
    let source := (Circuit.construct sharing adjointRequests).1
    let stale : Checkpoint := ⟨[("opcode", .integer 3), ("values", .text "")]⟩
    ∃ image adjoint t, source.save 0 stale = .ok (true, image) ∧
      source.save 1 stale = .ok (true, adjoint) ∧
      Restores image .empty [] sharing .constant [] .twoByThree
        (· = .constant .twoByThree (.replicate 6 1.0)) ∧
      Restores adjoint pictured [0, 0] sharing (.filterAdjoint 3) [0, 0] t
        fun a => ∃ d, a = .device d ∧ d.opcode = .filterAdjoint 3 := by
  intro source stale
  have hsound : sharing.Sound := Environment.sound_new _ _ (PlanStore.sound_new true)
  obtain ⟨⟨r, c⟩, env', hoperation⟩ : ∃ result env',
      (pictured.operation none (.filterAdjoint 3) [0, 0]).run.run sharing = (.ok result, env') :=
    ⟨_, _, rfl⟩
  have hok : ((pictured.operation none (.filterAdjoint 3) [0, 0]).run.run sharing).1 = .ok (r, c) :=
    congrArg Prod.fst hoperation
  have hsource : source = c := by
    change (Circuit.Request.apply (pictured, sharing) (.operation none (.filterAdjoint 3) [0, 0])).1 = c
    simp only [Circuit.Request.apply, Circuit.Request.perform, run_bind, hoperation]
    rfl
  obtain ⟨types, d, htypes, hmade, hadd⟩ := (Circuit.keeps_operation_made sharing hsound.plans).2 _ hok
  have hgains := Circuit.gains_of_addDriver hadd rfl (by decide)
  have himage : source.kernel 0 = .ok ⟨0, .constant, [], [0],
      .constant .twoByThree (.replicate 6 1.0)⟩ := by
    rw [hsource, Circuit.kernel, hgains.kernels]
    rfl
  have hadjoint : source.kernel 1 = .ok ⟨1, .filterAdjoint 3, [0, 0], [1], .device d⟩ := by
    rw [hsource, Circuit.kernel, hgains.kernels]
    rfl
  have hinputs : [0, 0].map pictured.type? = [0, 0].map source.type? := by
    rw [hsource, List.map_cons, List.map_cons, List.map_nil, List.map_cons, List.map_cons, List.map_nil,
      hgains.kept 0 (by decide)]
  obtain ⟨image, _, hsavedImage, -, -, hrestoredImage⟩ :=
    (restores_saved hsound adjointRequests himage stale).1 _ _ rfl
  obtain ⟨adjoint, _, t, hsaved, -, -, hrestored⟩ :=
    (restores_saved hsound adjointRequests hadjoint stale).2 _ rfl trivial
  exact ⟨image, adjoint, t, hsavedImage, hsaved, hrestoredImage .empty [] sharing,
    hrestored pictured [0, 0] sharing hsound.plans hinputs ⟨_, hok⟩⟩

end RestoreRegistry

end FieldCircuit
