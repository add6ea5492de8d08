import FieldCircuit.Proofs.Circuit.Machine
import FieldCircuit.Proofs.Pacing
import FieldCircuit.Scheduler

/-!
# The state of a scheduler

A scheduler represents a state of the machine of its circuit: every register holds the value that the
machine has for it, wherever its current copy lies, every sensor has come as far as in the machine, and
the buffers that operations share have their lengths. What else there is (which copies are current, what
stale copies and shared buffers hold, deadlines, statistics) is not determined by the machine.
-/

namespace FieldCircuit

/-- What an action may have become at a time, if it is a sensor that has come this far. The frame that is
staged fills the field if all frames of the sensor do. -/
inductive Action.Becomes (i : Intake) (now : Nat) : Action → Action → Prop
  | device {d d' : DeviceKernel} (operation : d'.operation = d.operation)
      (intermediates : Buffer.Measure d'.intermediates d.operation.intermediates) :
      Becomes i now (.device d) (.device d')
  | sensor {s : SensorKernel} {p : Pacing} (period : p.period = s.pacing.period)
      (near : p.Near now)
      (staged : s.Regular → ∀ frame ∈ i.staged, frame.size = s.fieldType.words) :
      Becomes i now (.sensor s) (.sensor { s.atIntake i with pacing := p })
  | constant (t : FieldType) (values : Array Float32) :
      Becomes i now (.constant t values) (.constant t values)
  | actuator (a : Actuator) : Becomes i now (.actuator a) (.actuator a)
  | host (t : FieldType) (f : HostFunction) : Becomes i now (.host t f) (.host t f)
  | recurrence (t : FieldType) (values : Option (Array Float32)) :
      Becomes i now (.recurrence t values) (.recurrence t values)

theorem Action.Becomes.mono {i : Intake} {now later : Nat} {a b : Action}
    (h : a.Becomes i now b) (hnow : now ≤ later) : a.Becomes i later b := by
  cases h with
  | device operation intermediates => exact .device operation intermediates
  | sensor period near staged => exact .sensor period (near.mono hnow) staged
  | constant t values => exact .constant t values
  | actuator a => exact .actuator a
  | host t f => exact .host t f
  | recurrence t values => exact .recurrence t values

def Circuit.Stored (c : Circuit Action) (values : RegisterId → Array Float32)
    (registers : Array Register) : Prop :=
  ∀ (r : RegisterId) t, c.type? r = some t → ∃ reg, registers[r]? = some reg ∧
    reg.pair.Holds t (values r)

namespace Circuit.Stored

variable {c : Circuit Action} {values values' : RegisterId → Array Float32}
  {registers : Array Register}

theorem set (h : c.Stored values registers) {r : RegisterId} {reg : Register}
    (hreg : ∀ t, c.type? r = some t → reg.pair.Holds t (values' r))
    (hothers : ∀ q ≠ r, values' q = values q) :
    c.Stored values' (registers.setIfInBounds r reg) := by
  intro q t ht
  obtain ⟨old, hold, hholds⟩ := h q t ht
  by_cases hq : q = r
  · subst hq
    exact ⟨reg, Array.getElem?_setIfInBounds_self_of_lt (Array.getElem?_eq_some_iff.1 hold).1,
      hreg t ht⟩
  · refine ⟨old, ?_, hothers q hq ▸ hholds⟩
    rw [← hold]
    exact Array.getElem?_setIfInBounds_ne fun heq => hq heq.symm

theorem map (h : c.Stored values registers) {f : Register → Register}
    (hf : ∀ reg, (f reg).pair = reg.pair) : c.Stored values (registers.map f) := by
  intro r t ht
  obtain ⟨reg, hreg, hholds⟩ := h r t ht
  exact ⟨f reg, by rw [Array.getElem?_map, hreg, Option.map_some], (hf reg).symm ▸ hholds⟩

end Circuit.Stored

structure Latch.Attends (c : Circuit Action) (b : Circuit.Binding) (l : Latch) : Prop where
  register : l.register = b.register
  driver : l.driver = b.driver
  staging : ∃ t, c.type? b.register = some t ∧ l.staging.Fits t

/-- The scheduler has this order and phase, and represents a state of the machine of a circuit. -/
structure Scheduler.Represents (c : Circuit Action) (order : List KernelId) (phase : Phase)
    (x : Snapshot) (s : Scheduler) (around : Surroundings) : Prop where
  order : s.order = order
  phase : s.phase = phase
  size : s.circuit.kernels.size = c.kernels.size
  kernels : ∀ (i : KernelId) k, c.kernels[i]? = some k → ∃ a, s.circuit.kernels[i]? =
    some { k with action := a } ∧ k.action.Becomes (x.intakes i) around.now a
  wires : s.circuit.registers = c.registers
  recurrences : s.circuit.recurrences = c.recurrences
  registers : c.Stored x.values s.registers
  latches : List.Forall₂ (Latch.Attends c) c.recurrences s.latches
  logs : around.logs = x.logs

namespace Scheduler.Represents

variable {c : Circuit Action} {order : List KernelId} {phase : Phase} {x x' : Snapshot}
  {s : Scheduler} {around : Surroundings}

theorem getElem?_foldl_set {p : RegisterId → Register → Prop} {outputs : List RegisterId}
    {news : List Register} (h : List.Forall₂ p outputs news) (hnodup : outputs.Nodup)
    (registers : Array Register) (hlt : ∀ r ∈ outputs, r < registers.size) :
    (∀ r ∉ outputs, ((outputs.zip news).foldl (fun registers (q : RegisterId × Register) =>
      registers.setIfInBounds q.1 q.2) registers)[r]? = registers[r]?) ∧
    ∀ r ∈ outputs, ∃ reg, ((outputs.zip news).foldl (fun registers (q : RegisterId × Register) =>
      registers.setIfInBounds q.1 q.2) registers)[r]? = some reg ∧ p r reg := by
  induction h generalizing registers with
  | nil => exact ⟨fun r _ => rfl, fun r hr => by cases hr⟩
  | @cons o new outputs news ho _ ih =>
      obtain ⟨hnew, hnodup⟩ := List.nodup_cons.1 hnodup
      have hrest := ih hnodup (registers.setIfInBounds o new) (fun r hr => by
        rw [Array.size_setIfInBounds]
        exact hlt r (List.mem_cons_of_mem _ hr))
      rw [List.zip_cons_cons, List.foldl_cons]
      refine ⟨fun r hr => ?_, fun r hr => ?_⟩
      · obtain ⟨hne, hr⟩ := not_or.1 (mt List.mem_cons.2 hr)
        rw [hrest.1 r hr, Array.getElem?_setIfInBounds_ne fun heq => hne heq.symm]
      · by_cases hmem : r ∈ outputs
        · exact hrest.2 r hmem
        · obtain rfl := (List.mem_cons.1 hr).resolve_right hmem
          refine ⟨new, ?_, ho⟩
          rw [hrest.1 r hmem, Array.getElem?_setIfInBounds_self_of_lt (hlt r hr)]

theorem enter (h : s.Represents c order phase x around) (hc : c.WellFormed) {i : KernelId}
    {k : Circuit.Kernel Action} (hk : c.kernels[i]? = some k) :
    ∃ a inputs outputs, s.enter around i = .ok (inputs, ⟨a, outputs, around⟩) ∧
      k.action.Becomes (x.intakes i) around.now a ∧
      List.Forall₂ (fun r reg => s.registers[r]? = some reg) k.inputs inputs ∧
      List.Forall₂ (fun r reg => s.registers[r]? = some reg) k.outputs outputs := by
  obtain ⟨a, ha, hbecomes⟩ := h.kernels i k hk
  have hfetch : ∀ {registers : List RegisterId} {types : List FieldType},
      registers.map c.type? = types.map some → ∃ regs,
        registers.mapM (fetch s.registers) = .ok regs ∧
          List.Forall₂ (fun r reg => s.registers[r]? = some reg) registers regs := by
    intro registers types htypes
    apply mapM_exists_ok
    intro r hr
    obtain ⟨t, -, ht⟩ := Circuit.exists_type?_of_mem htypes hr
    obtain ⟨reg, hreg, -⟩ := h.registers r t ht
    exact ⟨reg, fetch_eq_ok_iff.2 hreg, hreg⟩
  obtain ⟨types, htypes, -⟩ := (hc.fits i k hk).inputs
  obtain ⟨inputs, hinputs, hin⟩ := hfetch htypes
  obtain ⟨outputs, houtputs, hout⟩ := hfetch (hc.fits i k hk).outputs
  refine ⟨a, inputs, outputs, ?_, hbecomes, hin, hout⟩
  simp only [Scheduler.enter, fetch_eq_ok_iff.2 ha, ok_bind, hinputs, houtputs]
  rfl

/-- The scheduler after a call represents what the call has left. -/
theorem leave (h : s.Represents c order phase x around) (call : Call) (hc : c.WellFormed)
    {i : KernelId} {k : Circuit.Kernel Action} (hk : c.kernels[i]? = some k)
    (haction : k.action.Becomes (x'.intakes i) call.surroundings.now call.action)
    (houtputs : List.Forall₂ (fun r reg => ∀ t, c.type? r = some t →
      reg.pair.Holds t (x'.values r)) k.outputs call.outputs)
    (hvalues : ∀ r ∉ k.outputs, x'.values r = x.values r)
    (hintakes : ∀ j ≠ i, x'.intakes j = x.intakes j)
    (hnow : around.now ≤ call.surroundings.now) (hlogs : call.surroundings.logs = x'.logs) :
    (s.leave i call).Represents c order phase x' call.surroundings := by
  obtain ⟨a, ha, -⟩ := h.kernels i k hk
  have hget : (s.leave i call).circuit.kernels = s.circuit.kernels.setIfInBounds i
      { k with action := call.action } :=
    modify_eq_setIfInBounds ha fun k' => { k' with action := call.action }
  have hlt : ∀ r ∈ k.outputs, r < s.registers.size := by
    intro r hr
    obtain ⟨t, -, ht⟩ := Circuit.exists_type?_of_mem (hc.fits i k hk).outputs hr
    obtain ⟨reg, hreg, -⟩ := h.registers r t ht
    exact (Array.getElem?_eq_some_iff.1 hreg).1
  obtain ⟨hothers, hown⟩ := getElem?_foldl_set houtputs (hc.once i k hk) s.registers hlt
  have hregisters : (s.leave i call).registers = (k.outputs.zip call.outputs).foldl
      (fun registers (q : RegisterId × Register) => registers.setIfInBounds q.1 q.2)
        s.registers := by
    simp only [Scheduler.leave, ha]
    rfl
  refine ⟨h.order, h.phase, ?_, ?_, h.wires, h.recurrences, ?_, h.latches, hlogs⟩
  · rw [hget, Array.size_setIfInBounds, h.size]
  · intro j kj hj
    rw [hget]
    by_cases hij : j = i
    · subst hij
      obtain rfl : kj = k := Option.some.inj (hj.symm.trans hk)
      refine ⟨call.action, ?_, haction⟩
      rw [Array.getElem?_setIfInBounds_self_of_lt (Array.getElem?_eq_some_iff.1 ha).1]
    · obtain ⟨b, hb, hbecomes⟩ := h.kernels j kj hj
      refine ⟨b, ?_, ?_⟩
      · rw [Array.getElem?_setIfInBounds_ne fun heq => hij heq.symm, hb]
      · rw [hintakes j hij]
        exact hbecomes.mono hnow
  · intro r t ht
    rw [hregisters]
    by_cases hr : r ∈ k.outputs
    · obtain ⟨reg, hreg, hholds⟩ := hown r hr
      exact ⟨reg, hreg, hholds t ht⟩
    · rw [hothers r hr, hvalues r hr]
      exact h.registers r t ht

theorem setRegister (h : s.Represents c order phase x around) {r : RegisterId} {reg : Register}
    (hreg : ∀ t, c.type? r = some t → reg.pair.Holds t (x.values r)) :
    Scheduler.Represents c order phase x
      { s with registers := s.registers.setIfInBounds r reg } around := by
  exact ⟨h.order, h.phase, h.size, h.kernels, h.wires, h.recurrences,
    h.registers.set hreg fun _ _ => rfl, h.latches, h.logs⟩

/-- The phase has nothing to do with the machine. -/
theorem withPhase (h : s.Represents c order phase x around) (phase' : Phase) :
    (s.withPhase phase').Represents c order phase' x around :=
  ⟨h.order, rfl, h.size, h.kernels, h.wires, h.recurrences, h.registers, h.latches, h.logs⟩

theorem sleep (h : s.Represents c order phase x around) (duration : Nat) :
    s.Represents c order phase x (around.sleep duration) := by
  refine ⟨h.order, h.phase, h.size, fun i k hk => ?_, h.wires, h.recurrences, h.registers, h.latches, h.logs⟩
  obtain ⟨a, ha, hbecomes⟩ := h.kernels i k hk
  exact ⟨a, ha, hbecomes.mono (Nat.le_add_right ..)⟩

end Scheduler.Represents

end FieldCircuit
