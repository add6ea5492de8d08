import FieldCircuit.Circuit.Graph
import FieldCircuit.Proofs.Outcome
import Mathlib.Data.List.Nodup

/-!
# Wiring

In a circuit that is wired kernels and wires stand at the places that their numbers say, every wire is
an output of its producer, once, and of no other kernel, it lists the kernels that read it, and the
recurrences are the outputs of the kernels of that kind. A kernel reads outputs of earlier kernels
only. What the kernels do does not matter. Adding a kernel, whatever it reads and drives, keeps a
circuit wired.
-/

namespace FieldCircuit

theorem liftCircuit_eq_ok_iff {α : Type} {x : Except Fault α} {a : α} :
    (liftM x : Except CircuitError α) = .ok a ↔ x = .ok a := by
  -- a fault reaches the circuit as a fault of the device
  change (x.mapError DeviceError.fault).mapError CircuitError.device = .ok a ↔ x = .ok a
  rw [mapError_eq_ok_iff, mapError_eq_ok_iff]

namespace Circuit

variable {σ : Type} {c c' : Circuit σ}

def producer? (c : Circuit σ) (r : RegisterId) : Option KernelId :=
  c.registers[r]?.map Wire.producer

/-- Kernels, wires and recurrences of the circuit agree with each other. -/
structure Wired (c : Circuit σ) : Prop where
  id : ∀ (i : KernelId) k, c.kernels[i]? = some k → k.id = i
  wireId : ∀ (r : RegisterId) w, c.registers[r]? = some w → w.id = r
  drives : ∀ (i : KernelId) k, c.kernels[i]? = some k → ∀ r ∈ k.outputs, c.producer? r = some i
  driven : ∀ r i, c.producer? r = some i → ∃ k, c.kernels[i]? = some k ∧ r ∈ k.outputs
  once : ∀ (i : KernelId) k, c.kernels[i]? = some k → k.outputs.Nodup
  before : ∀ (i : KernelId) k, c.kernels[i]? = some k → ∀ q ∈ k.inputs, ∀ r ∈ k.outputs, q < r
  earlier : ∀ (i : KernelId) k, c.kernels[i]? = some k → ∀ r ∈ k.inputs,
    ∃ p < i, c.producer? r = some p
  nodup : ∀ (r : RegisterId) w, c.registers[r]? = some w → w.consumers.Nodup
  consumers : ∀ (r : RegisterId) w, c.registers[r]? = some w → ∀ i,
    i ∈ w.consumers ↔ ∃ k, c.kernels[i]? = some k ∧ r ∈ k.inputs
  distinct : (c.recurrences.map Binding.register).Nodup
  recurrences : ∀ r, r ∈ c.recurrences.map Binding.register ↔
    ∃ (i : KernelId) (k : Kernel σ), c.kernels[i]? = some k ∧ r ∈ k.outputs ∧ k.kind = .recurrence

theorem wired_empty : Wired (empty : Circuit σ) := by
  constructor <;> intros <;> simp_all [empty, producer?]

theorem register_eq_ok {r : RegisterId} {w : Wire} (h : c.register r = .ok w) :
    c.registers[r]? = some w := by
  unfold register at h
  split at h
  · rename_i v hv
    rw [hv, Except.ok.inj h]
  · cases h

theorem lt_of_producer? {r : Nat} {p : KernelId} (h : c.producer? r = some p) :
    r < c.registers.size := by
  obtain ⟨w, hw, -⟩ := Option.map_eq_some_iff.1 h
  exact (Array.getElem?_eq_some_iff.1 hw).1

namespace Wired

theorem lt_of_mem_outputs (h : c.Wired) {i : KernelId} {k : Kernel σ}
    (hk : c.kernels[i]? = some k) {r : Nat} (hr : r ∈ k.outputs) : r < c.registers.size :=
  lt_of_producer? (h.drives i k hk r hr)

theorem lt_of_mem_inputs (h : c.Wired) {i : KernelId} {k : Kernel σ}
    (hk : c.kernels[i]? = some k) {r : Nat} (hr : r ∈ k.inputs) : r < c.registers.size := by
  obtain ⟨p, -, hp⟩ := h.earlier i k hk r hr
  exact lt_of_producer? hp

theorem lt_of_mem_recurrences (h : c.Wired) {r : Nat}
    (hr : r ∈ c.recurrences.map Binding.register) : r < c.registers.size := by
  obtain ⟨i, k, hk, hout, -⟩ := (h.recurrences r).1 hr
  exact h.lt_of_mem_outputs hk hout

theorem lt_of_driven (h : c.Wired) {r : RegisterId} {i : KernelId} (hi : c.producer? r = some i) :
    i < c.kernels.size := by
  obtain ⟨k, hk, -⟩ := h.driven r i hi
  exact (Array.getElem?_eq_some_iff.1 hk).1

theorem rebind (h : c.Wired) {bindings : List Binding}
    (heq : bindings.map Binding.register = c.recurrences.map Binding.register) :
    Wired { c with recurrences := bindings } :=
  ⟨h.id, h.wireId, h.drives, h.driven, h.once, h.before, h.earlier, h.nodup, h.consumers,
    (by rw [heq]; exact h.distinct), by rw [heq]; exact h.recurrences⟩

end Wired

structure Alike (c c' : Circuit σ) : Prop where
  size : c'.kernels.size = c.kernels.size
  kernels : ∀ (i : KernelId) k, c.kernels[i]? = some k →
    ∃ a, c'.kernels[i]? = some { k with action := a }
  wires : c'.registers = c.registers
  recurrences : c'.recurrences = c.recurrences

namespace Alike

theorem symm (h : c.Alike c') : c'.Alike c := by
  refine ⟨h.size.symm, fun i k hk => ?_, h.wires.symm, h.recurrences.symm⟩
  have hi : i < c.kernels.size := h.size ▸ (Array.getElem?_eq_some_iff.1 hk).1
  obtain ⟨a, ha⟩ := h.kernels i _ (Array.getElem?_eq_getElem hi)
  obtain rfl := Option.some.inj (hk.symm.trans ha)
  exact ⟨c.kernels[i].action, Array.getElem?_eq_getElem hi⟩

theorem producer? (h : c.Alike c') (r : RegisterId) : c'.producer? r = c.producer? r := by
  rw [Circuit.producer?, Circuit.producer?, h.wires]

theorem wired (h : c.Alike c') (hc : c.Wired) : c'.Wired where
  id i k hk := by
    obtain ⟨a, ha⟩ := h.symm.kernels i k hk
    exact hc.id i { k with action := a } ha
  wireId r w hw := hc.wireId r w (h.wires ▸ hw)
  drives i k hk r hr := by
    obtain ⟨a, ha⟩ := h.symm.kernels i k hk
    exact (h.producer? r).trans (hc.drives i _ ha r hr)
  driven r i hi := by
    obtain ⟨k, hk, hr⟩ := hc.driven r i (h.producer? r ▸ hi)
    obtain ⟨a, ha⟩ := h.kernels i k hk
    exact ⟨_, ha, hr⟩
  once i k hk := by
    obtain ⟨a, ha⟩ := h.symm.kernels i k hk
    exact hc.once i { k with action := a } ha
  before i k hk := by
    obtain ⟨a, ha⟩ := h.symm.kernels i k hk
    exact hc.before i { k with action := a } ha
  earlier i k hk r hr := by
    obtain ⟨a, ha⟩ := h.symm.kernels i k hk
    obtain ⟨p, hp, hproducer⟩ := hc.earlier i _ ha r hr
    exact ⟨p, hp, (h.producer? r).trans hproducer⟩
  nodup r w hw := hc.nodup r w (h.wires ▸ hw)
  consumers r w hw i := by
    rw [hc.consumers r w (h.wires ▸ hw) i]
    constructor
    · rintro ⟨k, hk, hr⟩
      obtain ⟨a, ha⟩ := h.kernels i k hk
      exact ⟨_, ha, hr⟩
    · rintro ⟨k, hk, hr⟩
      obtain ⟨a, ha⟩ := h.symm.kernels i k hk
      exact ⟨_, ha, hr⟩
  distinct := h.recurrences ▸ hc.distinct
  recurrences r := by
    rw [h.recurrences, hc.recurrences r]
    constructor
    · rintro ⟨i, k, hk, hr, hkind⟩
      obtain ⟨a, ha⟩ := h.kernels i k hk
      exact ⟨i, _, ha, hr, hkind⟩
    · rintro ⟨i, k, hk, hr, hkind⟩
      obtain ⟨a, ha⟩ := h.symm.kernels i k hk
      exact ⟨i, _, ha, hr, hkind⟩

end Alike

namespace Wire

theorem addConsumer_addConsumer (w : Wire) (k : KernelId) :
    (w.addConsumer k).addConsumer k = w.addConsumer k := by
  by_cases h : k ∈ w.consumers
  · simp only [addConsumer, if_pos h]
  · simp [addConsumer, h]

@[simp] theorem id_addConsumer (w : Wire) (k : KernelId) : (w.addConsumer k).id = w.id := by
  unfold addConsumer
  split <;> rfl

@[simp] theorem fieldType_addConsumer (w : Wire) (k : KernelId) :
    (w.addConsumer k).fieldType = w.fieldType := by
  unfold addConsumer
  split <;> rfl

@[simp] theorem producer_addConsumer (w : Wire) (k : KernelId) :
    (w.addConsumer k).producer = w.producer := by
  unfold addConsumer
  split <;> rfl

theorem mem_addConsumer {w : Wire} {k i : KernelId} :
    i ∈ (w.addConsumer k).consumers ↔ i ∈ w.consumers ∨ i = k := by
  unfold addConsumer
  split
  · rename_i hmem
    exact ⟨.inl, fun h => h.elim (fun hi => hi) fun heq => heq ▸ hmem⟩
  · simp

theorem nodup_addConsumer {w : Wire} (h : w.consumers.Nodup) (k : KernelId) :
    (w.addConsumer k).consumers.Nodup := by
  unfold addConsumer
  split
  · exact h
  · rename_i hmem
    exact List.nodup_append.2 ⟨h, List.nodup_singleton k, by
      rintro i hi _ hk rfl
      exact hmem (List.mem_singleton.1 hk ▸ hi)⟩

end Wire

theorem getElem?_consume (registers : Array Wire) (inputs : List RegisterId) (k : KernelId)
    (r : RegisterId) : (consume registers inputs k)[r]? =
      registers[r]?.map fun w => if r ∈ inputs then w.addConsumer k else w := by
  induction inputs generalizing registers with
  | nil => simp [consume]
  | cons i inputs ih =>
      have hstep : consume registers (i :: inputs) k =
          consume (registers.modify i (·.addConsumer k)) inputs k := rfl
      rw [hstep, ih, Array.getElem?_modify]
      by_cases hir : i = r
      · subst hir
        cases registers[i]? with
        | none => simp
        | some w => by_cases hmem : i ∈ inputs <;> simp [hmem, Wire.addConsumer_addConsumer]
      · have hri : r ≠ i := fun h => hir h.symm
        simp [hir, hri]

theorem size_consume (registers : Array Wire) (inputs : List RegisterId) (k : KernelId) :
    (consume registers inputs k).size = registers.size := by
  induction inputs generalizing registers with
  | nil => rfl
  | cons i inputs ih => exact (ih _).trans Array.size_modify

theorem getElem?_produce (registers : Array Wire) (outputs : List (String × FieldType))
    (k : KernelId) (r : Nat) : (produce registers outputs k)[r]? =
      if r < registers.size then registers[r]?
      else outputs[r - registers.size]?.map fun o => ⟨r, o.1, o.2, k, []⟩ := by
  induction outputs generalizing registers with
  | nil =>
      by_cases hr : r < registers.size
      · simp [produce, hr]
      · simp [produce, hr]
  | cons o outputs ih =>
      have hstep : produce registers (o :: outputs) k =
          produce (registers.push ⟨registers.size, o.1, o.2, k, []⟩) outputs k := rfl
      rw [hstep, ih, Array.size_push]
      rcases Nat.lt_trichotomy r registers.size with hlt | heq | hgt
      · rw [if_pos (by omega), if_pos hlt, Array.getElem?_push, if_neg (by omega)]
      · subst heq
        simp
      · rw [if_neg (by omega), if_neg (by omega),
          show r - registers.size = (r - (registers.size + 1)) + 1 by omega,
          List.getElem?_cons_succ]

section AddKernel

variable {opcode : Opcode} {inputs : List RegisterId} {outputs : List (String × FieldType)}
  {action : σ} {id : KernelId}

def newKernel (c : Circuit σ) (opcode : Opcode) (inputs : List RegisterId) (outputs : Nat)
    (action : σ) : Kernel σ :=
  ⟨c.kernels.size, opcode, inputs, (List.range outputs).map (c.registers.size + ·), action⟩

theorem addKernel_eq_ok (h : c.addKernel opcode inputs outputs action = .ok (id, c')) :
    id = c.kernels.size ∧
      c'.kernels = c.kernels.push (c.newKernel opcode inputs outputs.length action) ∧
      c'.registers = produce (consume c.registers inputs id) outputs id ∧
      c'.recurrences = c.recurrences ++ (match opcode.kind with
        | .recurrence => (c.newKernel opcode inputs outputs.length action).outputs.map (⟨·, none⟩)
        | _ => []) := by
  obtain ⟨_, -, h⟩ := bind_eq_ok_iff.1 h
  obtain ⟨rfl, rfl⟩ := Prod.mk.inj (Except.ok.inj h)
  exact ⟨rfl, rfl, rfl, rfl⟩

theorem lt_of_addKernel (h : c.addKernel opcode inputs outputs action = .ok (id, c')) {r : Nat}
    (hr : r ∈ inputs) : r < c.registers.size := by
  obtain ⟨_, hinputs, -⟩ := bind_eq_ok_iff.1 h
  obtain ⟨w, hw, -⟩ := bind_eq_ok_iff.1 (forM_eq_ok_iff.1 hinputs r hr)
  exact (Array.getElem?_eq_some_iff.1 (register_eq_ok hw)).1

theorem mem_outputs_newKernel {n : Nat} {r : Nat} :
    r ∈ (c.newKernel opcode inputs n action).outputs ↔
      c.registers.size ≤ r ∧ r - c.registers.size < n := by
  simp only [newKernel, List.mem_map, List.mem_range]
  constructor
  · rintro ⟨j, hj, rfl⟩
    omega
  · rintro ⟨hle, hlt⟩
    exact ⟨r - c.registers.size, hlt, by omega⟩

theorem nodup_outputs_newKernel (n : Nat) :
    (c.newKernel opcode inputs n action).outputs.Nodup :=
  List.nodup_range.map fun _ _ heq => Nat.add_left_cancel heq

theorem getElem?_kernels_addKernel (h : c.addKernel opcode inputs outputs action = .ok (id, c'))
    {i : Nat} {k : Kernel σ} : c'.kernels[i]? = some k ↔ c.kernels[i]? = some k ∨
      i = id ∧ k = c.newKernel opcode inputs outputs.length action := by
  obtain ⟨rfl, hkernels, -, -⟩ := addKernel_eq_ok h
  rw [hkernels, Array.getElem?_push]
  by_cases hi : i = c.kernels.size
  · subst hi
    simp [eq_comm]
  · simp [hi]

theorem getElem?_addKernel_of_lt (h : c.addKernel opcode inputs outputs action = .ok (id, c'))
    {r : Nat} (hr : r < c.registers.size) : c'.registers[r]? =
      c.registers[r]?.map fun w => if r ∈ inputs then w.addConsumer id else w := by
  obtain ⟨-, -, hregisters, -⟩ := addKernel_eq_ok h
  rw [hregisters, getElem?_produce, size_consume, if_pos hr, getElem?_consume]

theorem getElem?_addKernel_fresh (h : c.addKernel opcode inputs outputs action = .ok (id, c'))
    {r : Nat} (hr : c.registers.size ≤ r) : c'.registers[r]? =
      outputs[r - c.registers.size]?.map fun o => ⟨r, o.1, o.2, id, []⟩ := by
  obtain ⟨-, -, hregisters, -⟩ := addKernel_eq_ok h
  rw [hregisters, getElem?_produce, size_consume, if_neg (by omega)]

/-- A wire of the new circuit is one that was there, with the new kernel as a consumer if it reads
it, or an output of the new kernel. -/
theorem wire_addKernel (h : c.addKernel opcode inputs outputs action = .ok (id, c')) {r : Nat}
    {w : Wire} (hw : c'.registers[r]? = some w) :
    (∃ v, c.registers[r]? = some v ∧ w = if r ∈ inputs then v.addConsumer id else v) ∨
      r ∈ (c.newKernel opcode inputs outputs.length action).outputs ∧
        ∃ o : String × FieldType, w = ⟨r, o.1, o.2, id, []⟩ := by
  by_cases hr : r < c.registers.size
  · rw [getElem?_addKernel_of_lt h hr] at hw
    obtain ⟨v, hv, rfl⟩ := Option.map_eq_some_iff.1 hw
    exact .inl ⟨v, hv, rfl⟩
  · rw [getElem?_addKernel_fresh h (Nat.le_of_not_lt hr)] at hw
    obtain ⟨o, ho, rfl⟩ := Option.map_eq_some_iff.1 hw
    exact .inr ⟨mem_outputs_newKernel.2 ⟨Nat.le_of_not_lt hr, (List.getElem?_eq_some_iff.1 ho).1⟩,
      o, rfl⟩

theorem producer?_addKernel_of_lt (h : c.addKernel opcode inputs outputs action = .ok (id, c'))
    {r : Nat} (hr : r < c.registers.size) : c'.producer? r = c.producer? r := by
  rw [producer?, producer?, getElem?_addKernel_of_lt h hr, Option.map_map]
  congr 1
  funext w
  by_cases hmem : r ∈ inputs <;> simp [hmem]

theorem producer?_addKernel (h : c.addKernel opcode inputs outputs action = .ok (id, c'))
    {r : RegisterId} {p : KernelId} (hp : c.producer? r = some p) : c'.producer? r = some p :=
  (producer?_addKernel_of_lt h (lt_of_producer? hp)).trans hp

theorem producer?_addKernel_fresh (h : c.addKernel opcode inputs outputs action = .ok (id, c'))
    {r : Nat} (hr : r ∈ (c.newKernel opcode inputs outputs.length action).outputs) :
    c'.producer? r = some id := by
  obtain ⟨hle, hlt⟩ := mem_outputs_newKernel.1 hr
  rw [producer?, getElem?_addKernel_fresh h hle, List.getElem?_eq_getElem hlt]
  rfl

theorem recurrences_addKernel (hadd : c.addKernel opcode inputs outputs action = .ok (id, c')) :
    opcode.kind = .recurrence ∧ c'.recurrences = c.recurrences ++
        (c.newKernel opcode inputs outputs.length action).outputs.map (⟨·, none⟩) ∨
      opcode.kind ≠ .recurrence ∧ c'.recurrences = c.recurrences := by
  obtain ⟨-, -, -, hrecurrences⟩ := addKernel_eq_ok hadd
  by_cases hkind : opcode.kind = .recurrence
  · rw [hkind] at hrecurrences
    exact .inl ⟨hkind, hrecurrences⟩
  · refine .inr ⟨hkind, ?_⟩
    rw [hrecurrences]
    split
    · exact absurd ‹_› hkind
    · exact List.append_nil _

namespace Wired

variable (h : c.Wired) (hadd : c.addKernel opcode inputs outputs action = .ok (id, c'))

include h hadd

theorem driven_addKernel (r : RegisterId) (i : KernelId) (hi : c'.producer? r = some i) :
    ∃ k, c'.kernels[i]? = some k ∧ r ∈ k.outputs := by
  obtain ⟨w, hw, rfl⟩ := Option.map_eq_some_iff.1 hi
  rcases wire_addKernel hadd hw with ⟨v, hv, rfl⟩ | ⟨hout, o, rfl⟩
  · have hproducer : c.producer? r = some v.producer := by rw [producer?, hv, Option.map_some]
    obtain ⟨k, hk, hout⟩ := h.driven r _ hproducer
    refine ⟨k, (getElem?_kernels_addKernel hadd).2 (.inl ?_), hout⟩
    split
    · rwa [Wire.producer_addConsumer]
    · exact hk
  · exact ⟨_, (getElem?_kernels_addKernel hadd).2 (.inr ⟨rfl, rfl⟩), hout⟩

theorem nodup_addKernel (r : RegisterId) (w : Wire) (hw : c'.registers[r]? = some w) :
    w.consumers.Nodup := by
  rcases wire_addKernel hadd hw with ⟨v, hv, rfl⟩ | ⟨-, o, rfl⟩
  · split
    · exact Wire.nodup_addConsumer (h.nodup r v hv) id
    · exact h.nodup r v hv
  · exact List.nodup_nil

theorem consumers_addKernel (r : RegisterId) (w : Wire) (hw : c'.registers[r]? = some w)
    (i : KernelId) : i ∈ w.consumers ↔ ∃ k, c'.kernels[i]? = some k ∧ r ∈ k.inputs := by
  have hreads : (∃ k, c'.kernels[i]? = some k ∧ r ∈ k.inputs) ↔
      (∃ k, c.kernels[i]? = some k ∧ r ∈ k.inputs) ∨ i = id ∧ r ∈ inputs := by
    constructor
    · rintro ⟨k, hk, hr⟩
      rcases (getElem?_kernels_addKernel hadd).1 hk with hk | ⟨rfl, rfl⟩
      · exact .inl ⟨k, hk, hr⟩
      · exact .inr ⟨rfl, hr⟩
    · rintro (⟨k, hk, hr⟩ | ⟨rfl, hr⟩)
      · exact ⟨k, (getElem?_kernels_addKernel hadd).2 (.inl hk), hr⟩
      · exact ⟨_, (getElem?_kernels_addKernel hadd).2 (.inr ⟨rfl, rfl⟩), hr⟩
  rw [hreads]
  rcases wire_addKernel hadd hw with ⟨v, hv, rfl⟩ | ⟨hout, o, rfl⟩
  · rw [← h.consumers r v hv i]
    by_cases hmem : r ∈ inputs
    · simp [hmem, Wire.mem_addConsumer]
    · simp [hmem]
  · have hfresh := Nat.not_lt.2 (mem_outputs_newKernel.1 hout).1
    refine ⟨fun hmem => (by cases hmem), ?_⟩
    rintro (⟨k, hk, hmem⟩ | ⟨-, hmem⟩)
    · exact absurd (h.lt_of_mem_inputs hk hmem) hfresh
    · exact absurd (lt_of_addKernel hadd hmem) hfresh

theorem distinct_addKernel : (c'.recurrences.map Binding.register).Nodup := by
  rcases recurrences_addKernel hadd with ⟨-, heq⟩ | ⟨-, heq⟩
  · rw [heq, List.map_append, List.map_map]
    refine List.nodup_append.2 ⟨h.distinct, ?_, ?_⟩
    · simpa [Function.comp_def] using nodup_outputs_newKernel outputs.length
    · rintro r hr _ hnew rfl
      obtain ⟨_, hout, rfl⟩ := List.mem_map.1 hnew
      exact absurd (h.lt_of_mem_recurrences hr) (Nat.not_lt.2 (mem_outputs_newKernel.1 hout).1)
  · rw [heq]
    exact h.distinct

theorem mem_recurrences_addKernel (r : RegisterId) :
    r ∈ c'.recurrences.map Binding.register ↔ ∃ (i : KernelId) (k : Kernel σ),
      c'.kernels[i]? = some k ∧ r ∈ k.outputs ∧ k.kind = .recurrence := by
  have hsplit : (∃ (i : KernelId) (k : Kernel σ), c'.kernels[i]? = some k ∧ r ∈ k.outputs ∧
      k.kind = .recurrence) ↔ r ∈ c.recurrences.map Binding.register ∨
        r ∈ (c.newKernel opcode inputs outputs.length action).outputs ∧
          opcode.kind = .recurrence := by
    rw [h.recurrences r]
    constructor
    · rintro ⟨i, k, hk, hout⟩
      rcases (getElem?_kernels_addKernel hadd).1 hk with hk | ⟨rfl, rfl⟩
      · exact .inl ⟨i, k, hk, hout⟩
      · exact .inr hout
    · rintro (⟨i, k, hk, hout⟩ | hout)
      · exact ⟨i, k, (getElem?_kernels_addKernel hadd).2 (.inl hk), hout⟩
      · exact ⟨_, _, (getElem?_kernels_addKernel hadd).2 (.inr ⟨rfl, rfl⟩), hout⟩
  rw [hsplit]
  rcases recurrences_addKernel hadd with ⟨hrecurrence, heq⟩ | ⟨hother, heq⟩
  · rw [heq, List.map_append, List.mem_append, List.map_map]
    simp [Function.comp_def, hrecurrence]
  · simp [heq, hother]

/-- A circuit stays wired when it gets a kernel. -/
theorem addKernel : c'.Wired := by
  have hid := (addKernel_eq_ok hadd).1
  have hkernel := fun {i : Nat} {k} => getElem?_kernels_addKernel hadd (i := i) (k := k)
  refine ⟨?_, ?_, ?_, h.driven_addKernel hadd, ?_, ?_, ?_, h.nodup_addKernel hadd,
    h.consumers_addKernel hadd, h.distinct_addKernel hadd, h.mem_recurrences_addKernel hadd⟩
  · intro i k hk
    rcases hkernel.1 hk with hk | ⟨rfl, rfl⟩
    · exact h.id i k hk
    · exact hid.symm
  · intro r w hw
    rcases wire_addKernel hadd hw with ⟨v, hv, rfl⟩ | ⟨-, o, rfl⟩
    · split
      · rw [Wire.id_addConsumer, h.wireId r v hv]
      · exact h.wireId r v hv
    · rfl
  · intro i k hk r hr
    rcases hkernel.1 hk with hk | ⟨rfl, rfl⟩
    · exact producer?_addKernel hadd (h.drives i k hk r hr)
    · exact producer?_addKernel_fresh hadd hr
  · intro i k hk
    rcases hkernel.1 hk with hk | ⟨rfl, rfl⟩
    · exact h.once i k hk
    · exact nodup_outputs_newKernel _
  · intro i k hk
    rcases hkernel.1 hk with hk | ⟨rfl, rfl⟩
    · exact h.before i k hk
    · intro q hq r hr
      exact Nat.lt_of_lt_of_le (lt_of_addKernel hadd hq) (mem_outputs_newKernel.1 hr).1
  · intro i k hk r hr
    rcases hkernel.1 hk with hk | ⟨rfl, rfl⟩
    · obtain ⟨p, hlt, hp⟩ := h.earlier i k hk r hr
      exact ⟨p, hlt, producer?_addKernel hadd hp⟩
    · have hlt := lt_of_addKernel hadd hr
      have hp : c.producer? r = some c.registers[r].producer := by
        rw [producer?, Array.getElem?_eq_getElem hlt, Option.map_some]
      refine ⟨_, ?_, producer?_addKernel hadd hp⟩
      rw [hid]
      exact h.lt_of_driven hp

end Wired

end AddKernel

end Circuit

end FieldCircuit
