import FieldCircuit.Circuit.Construction
import FieldCircuit.Proofs.Circuit.Wiring
import FieldCircuit.Proofs.Memory.Buffer
import FieldCircuit.Proofs.Plan

/-!
# Well-formed circuits

A circuit is well-formed if it is wired, if the action of every kernel is of its kind and can deal with
the types of the registers that the kernel reads and drives, and if a recurrence and its driver are of
one type. Adding a kernel with a suitable action and binding a recurrence keep circuits well-formed.
-/

namespace FieldCircuit

def Action.kind : Action → KernelKind
  | device _ => .device
  | constant .. => .constant
  | sensor _ => .sensor
  | actuator _ => .actuator
  | host .. => .host
  | recurrence .. => .recurrence

theorem Action.exists_sensor {a : Action} (h : a.kind = .sensor) : ∃ s, a = .sensor s := by
  cases a with
  | sensor s => exact ⟨s, rfl⟩
  | device | constant | actuator | host | recurrence => cases h

def Action.Suits (types : List FieldType) : Action → Prop
  | device k => k.operation.Serves types ∧
      Buffer.Measure k.intermediates k.operation.intermediates
  | constant t values => values.size = t.words
  | actuator _ => types.length = 1
  | recurrence t initial => ∀ values ∈ initial, values.size = t.words
  | sensor _ | host .. => True

namespace Circuit

variable {c : Circuit Action}

def type? (c : Circuit Action) (r : RegisterId) : Option FieldType :=
  c.registers[r]?.map Wire.fieldType

/-- The action of the kernel is of its kind and can deal with the types of its registers. -/
structure Fits (c : Circuit Action) (k : Kernel Action) : Prop where
  kind : k.kind = k.action.kind
  inputs : ∃ types, k.inputs.map c.type? = types.map some ∧ k.action.Suits types
  outputs : k.outputs.map c.type? = k.action.outputTypes.map some

/-- The circuit is wired, and its kernels and recurrences are of the right types. -/
structure WellFormed (c : Circuit Action) : Prop extends Wired c where
  fits : ∀ (i : KernelId) k, c.kernels[i]? = some k → c.Fits k
  drivers : ∀ b ∈ c.recurrences, ∀ d, b.driver = some d →
    ∃ t, c.type? b.register = some t ∧ c.type? d = some t

theorem wellFormed_empty : WellFormed empty :=
  ⟨wired_empty, fun i k hk => by simp [empty] at hk, fun b hb => by simp [empty] at hb⟩

theorem type?_eq_some {r : RegisterId} {t : FieldType} (h : c.type? r = some t) :
    ∃ w, c.registers[r]? = some w ∧ w.fieldType = t :=
  Option.map_eq_some_iff.1 h

theorem lt_of_type?_eq_some {r : RegisterId} {t : FieldType} (h : c.type? r = some t) :
    r < c.registers.size := by
  obtain ⟨w, hw, -⟩ := type?_eq_some h
  exact (Array.getElem?_eq_some_iff.1 hw).1

theorem exists_type?_of_mem {registers : List RegisterId} {types : List FieldType}
    (h : registers.map c.type? = types.map some) {r : RegisterId} (hr : r ∈ registers) :
    ∃ t ∈ types, c.type? r = some t := by
  have hmem : c.type? r ∈ types.map some := h ▸ List.mem_map_of_mem hr
  obtain ⟨t, ht, heq⟩ := List.mem_map.1 hmem
  exact ⟨t, ht, heq.symm⟩

theorem lt_of_mem {registers : List RegisterId} {types : List FieldType}
    (h : registers.map c.type? = types.map some) {r : Nat} (hr : r ∈ registers) :
    r < c.registers.size := by
  obtain ⟨t, -, ht⟩ := exists_type?_of_mem h hr
  exact lt_of_type?_eq_some ht

theorem types_eq_ok {registers : List RegisterId} {types : List FieldType}
    (h : c.types registers = .ok types) : registers.map c.type? = types.map some := by
  have hall := mapM_eq_ok_iff.1 h
  clear h
  induction hall with
  | nil => rfl
  | @cons r t rs ts hr _ ih =>
      obtain ⟨w, hw, ht⟩ := bind_eq_ok_iff.1 hr
      rw [List.map_cons, List.map_cons, ih, type?, register_eq_ok hw, Option.map_some,
        Except.ok.inj ht]

section AddKernel

variable {opcode : Opcode} {inputs : List RegisterId} {outputs : List (String × FieldType)}
  {action : Action} {id : KernelId} {c' : Circuit Action}

theorem type?_addKernel_of_lt (h : c.addKernel opcode inputs outputs action = .ok (id, c'))
    {r : Nat} (hr : r < c.registers.size) : c'.type? r = c.type? r := by
  rw [type?, type?, getElem?_addKernel_of_lt h hr, Option.map_map]
  congr 1
  funext w
  by_cases hmem : r ∈ inputs <;> simp [hmem]

theorem Fits.congr {k : Kernel Action} (h : c.Fits k)
    (htype : ∀ r < c.registers.size, c'.type? r = c.type? r) : c'.Fits k := by
  obtain ⟨hkind, ⟨types, hinputs, hsuits⟩, houtputs⟩ := h
  refine ⟨hkind, ⟨types, ?_, hsuits⟩, ?_⟩
  · rw [← hinputs]
    exact List.map_congr_left fun r hr => htype r (lt_of_mem hinputs hr)
  · rw [← houtputs]
    exact List.map_congr_left fun r hr => htype r (lt_of_mem houtputs hr)

theorem fits_newKernel (hadd : c.addKernel opcode inputs outputs action = .ok (id, c'))
    {types : List FieldType} (hinputs : inputs.map c.type? = types.map some)
    (hsuits : action.Suits types) (hkind : opcode.kind = action.kind)
    (houtputs : outputs.map Prod.snd = action.outputTypes) :
    c'.Fits (c.newKernel opcode inputs outputs.length action) := by
  refine ⟨hkind, ⟨types, ?_, hsuits⟩, ?_⟩
  · rw [← hinputs]
    exact List.map_congr_left fun r hr => type?_addKernel_of_lt hadd (lt_of_mem hinputs hr)
  · change ((List.range outputs.length).map (c.registers.size + ·)).map c'.type? =
      action.outputTypes.map some
    rw [← houtputs]
    apply List.ext_getElem (by simp)
    intro j hj _
    have hlt : j < outputs.length := by simpa using hj
    simp [type?, getElem?_addKernel_fresh hadd, List.getElem?_eq_getElem hlt]

/-- A circuit stays well-formed when it gets a kernel whose action is of its kind and can deal with
its inputs. -/
theorem WellFormed.addKernel (h : c.WellFormed)
    (hadd : c.addKernel opcode inputs outputs action = .ok (id, c')) {types : List FieldType}
    (hinputs : inputs.map c.type? = types.map some) (hsuits : action.Suits types)
    (hkind : opcode.kind = action.kind) (houtputs : outputs.map Prod.snd = action.outputTypes) :
    c'.WellFormed := by
  have htype := fun (r : Nat) hr => type?_addKernel_of_lt hadd (r := r) hr
  have hold : ∀ b ∈ c.recurrences, ∀ d, b.driver = some d →
      ∃ t, c'.type? b.register = some t ∧ c'.type? d = some t := by
    intro b hb d hd
    obtain ⟨t, hregister, hdriver⟩ := h.drivers b hb d hd
    refine ⟨t, ?_, ?_⟩
    · rw [htype _ (lt_of_type?_eq_some hregister), hregister]
    · rw [htype _ (lt_of_type?_eq_some hdriver), hdriver]
  refine ⟨h.toWired.addKernel hadd, ?_, ?_⟩
  · intro i k hk
    rcases (getElem?_kernels_addKernel hadd).1 hk with hk | ⟨rfl, rfl⟩
    · exact (h.fits i k hk).congr htype
    · exact fits_newKernel hadd hinputs hsuits hkind houtputs
  · intro b hb d hd
    rcases recurrences_addKernel hadd with ⟨-, heq⟩ | ⟨-, heq⟩
    · rw [heq, List.mem_append] at hb
      rcases hb with hb | hb
      · exact hold b hb d hd
      · obtain ⟨_, -, rfl⟩ := List.mem_map.1 hb
        cases hd
    · exact hold b (heq ▸ hb) d hd

end AddKernel

theorem bind_eq_ok {recurrence driver : RegisterId} {c' : Circuit Action}
    (h : c.bind recurrence driver = .ok c') : ∃ t, c.type? recurrence = some t ∧
      c.type? driver = some t ∧ c' = { c with recurrences := c.recurrences.map fun b =>
        if b.register = recurrence then { b with driver := some driver } else b } := by
  unfold Circuit.bind at h
  obtain ⟨target, htarget, h⟩ := bind_eq_ok_iff.1 h
  obtain ⟨source, hsource, h⟩ := bind_eq_ok_iff.1 h
  have hfound : ∀ {r : RegisterId} {w : Wire}, c.register r = .ok w →
      c.type? r = some w.fieldType := by
    intro r w hw
    rw [type?, register_eq_ok hw, Option.map_some]
  by_cases hself : recurrence = driver
  · rw [if_pos hself] at h
    cases h
  rw [if_neg hself] at h
  by_cases htype : target.fieldType = source.fieldType
  · rw [if_neg (not_not.2 htype)] at h
    split at h
    · cases h
    · rename_i b hb
      by_cases hbound : b.driver.isSome = true
      · rw [if_pos hbound] at h
        cases h
      · rw [if_neg hbound] at h
        refine ⟨source.fieldType, ?_, hfound hsource, (Except.ok.inj h).symm⟩
        rw [hfound htarget, htype]
  · rw [if_pos htype] at h
    cases h

theorem Wired.bind (h : c.Wired) {recurrence driver : RegisterId} {c' : Circuit Action}
    (hbind : c.bind recurrence driver = .ok c') : c'.Wired := by
  obtain ⟨_, -, -, rfl⟩ := bind_eq_ok hbind
  refine h.rebind ?_
  rw [List.map_map]
  apply List.map_congr_left
  intro b _
  by_cases hb : b.register = recurrence <;> simp [hb]

theorem WellFormed.bind (h : c.WellFormed) {recurrence driver : RegisterId} {c' : Circuit Action}
    (hbind : c.bind recurrence driver = .ok c') : c'.WellFormed := by
  have hwired := h.toWired.bind hbind
  obtain ⟨t, hregister, hdriver, rfl⟩ := bind_eq_ok hbind
  refine ⟨hwired, fun i k hk => ?_, ?_⟩
  · exact (h.fits i k hk).congr fun _ _ => rfl
  · intro b hb d hd
    obtain ⟨b₀, hb₀, rfl⟩ := List.mem_map.1 hb
    by_cases heq : b₀.register = recurrence
    · rw [if_pos heq] at hd ⊢
      exact ⟨t, heq ▸ hregister, Option.some.inj hd ▸ hdriver⟩
    · rw [if_neg heq] at hd ⊢
      exact h.drivers b₀ hb₀ d hd

end Circuit

end FieldCircuit
