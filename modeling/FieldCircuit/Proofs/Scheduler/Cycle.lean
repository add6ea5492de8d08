import FieldCircuit.Proofs.Leading
import FieldCircuit.Proofs.Scheduler.Kernels

/-!
# Cycles

A step of a scheduler is a cycle of the machine: all kernels fire in order, the values of the drivers go
to the staging buffers while every register keeps its own, and then from there to the recurrences. At its
end the scheduler is idle, unless the step has faulted. How long a step may sleep is known from the
periods of the sensors.
-/

namespace FieldCircuit

/-- The longest time for which some kernels together sleep in a cycle. -/
def Circuit.periods (c : Circuit Action) (order : List KernelId) : Nat :=
  (order.map fun i => (c.kernels[i]?.map Circuit.Kernel.period).getD 0).sum

theorem Circuit.periods_cons {c : Circuit Action} {i : KernelId} {k : Circuit.Kernel Action}
    (hk : c.kernels[i]? = some k) (order : List KernelId) :
    c.periods (i :: order) = k.period + c.periods order := by
  simp [periods, hk]

namespace Latch

variable {c : Circuit Action} {values : RegisterId → Array Float32}

structure Carries (c : Circuit Action) (values : RegisterId → Array Float32)
    (b : Circuit.Binding) (l : Latch) : Prop extends Attends c b l where
  value : ∀ t d, c.type? b.register = some t → b.driver = some d → l.staging.Holds t (values d)

theorem each_cons {f : Latch → Array Register → Except CircuitError Unit × Latch × Array Register}
    {l l' : Latch} {rest rest' : List Latch} {registers registers' registers'' : Array Register}
    (hl : f l registers = (.ok (), l', registers'))
    (hrest : each f rest registers' = (.ok (), rest', registers'')) :
    each f (l :: rest) registers = (.ok (), l' :: rest', registers'') := by
  simp only [each, hl, hrest]

/-- A latch takes the value of its driver, and all registers keep theirs. -/
theorem take_eq_ok (hc : c.WellFormed) (hbound : c.Bound) {b : Circuit.Binding}
    (hb : b ∈ c.recurrences) {l : Latch} (hl : l.Attends c b) {registers : Array Register}
    (h : c.Stored values registers) : ∃ l' registers',
      l.take registers = (.ok (), l', registers') ∧ l'.Carries c values b ∧
        c.Stored values registers' := by
  obtain ⟨d, hd⟩ := Option.isSome_iff_exists.1 (hbound b hb)
  obtain ⟨t, hregister, hdriver⟩ := hc.drivers b hb d hd
  have hfits : l.staging.Fits t := by
    obtain ⟨t', ht', hfits⟩ := hl.staging
    rwa [Option.some.inj (hregister.symm.trans ht')]
  obtain ⟨reg, hreg, hholds⟩ := h d t hdriver
  obtain ⟨p, source, -, hlatch, hp, hsource⟩ := Pair.Holds.latchFrom hfits hholds
  refine ⟨{ l with staging := p }, registers.setIfInBounds d { reg with pair := source }, ?_, ?_, ?_⟩
  · simp only [take, hl.driver, hd, hreg, hlatch]
    rfl
  · refine ⟨⟨hl.register, hl.driver, t, hregister, hp.fits⟩, fun t' d' ht' hd' => ?_⟩
    obtain rfl := Option.some.inj (hregister.symm.trans ht')
    obtain rfl := Option.some.inj (hd.symm.trans hd')
    exact hp
  · refine h.set (fun t' ht' => ?_) fun _ _ => rfl
    rwa [← Option.some.inj (hdriver.symm.trans ht')]

/-- A latch hands its value over to its recurrence. -/
theorem handOver_eq_ok {b : Circuit.Binding} {d : RegisterId} (hd : b.driver = some d) {l : Latch}
    (hl : l.Carries c values b) {current : RegisterId → Array Float32} {registers : Array Register}
    (h : c.Stored current registers) : ∃ l' registers',
      l.handOver registers = (.ok (), l', registers') ∧ l'.Attends c b ∧
        c.Stored (Function.update current b.register (values d)) registers' := by
  obtain ⟨t, hregister, -⟩ := hl.staging
  obtain ⟨reg, hreg, hholds⟩ := h b.register t hregister
  obtain ⟨p, staging, -, hlatch, hp, hstaging⟩ :=
    Pair.Holds.latchFrom hholds.fits (hl.value t d hregister hd)
  refine ⟨{ l with staging }, registers.setIfInBounds b.register { reg with pair := p }, ?_, ?_, ?_⟩
  · simp only [handOver, hl.register, hreg, hlatch]
    rfl
  · exact ⟨hl.register, hl.driver, t, hregister, hstaging.fits⟩
  · refine h.set (fun t' ht' => ?_) fun q hq => Function.update_of_ne hq ..
    rw [Function.update_self]
    rwa [← Option.some.inj (hregister.symm.trans ht')]

theorem each_take (hc : c.WellFormed) (hbound : c.Bound) {bindings : List Circuit.Binding}
    (hbindings : ∀ b ∈ bindings, b ∈ c.recurrences) {latches : List Latch}
    (hlatches : List.Forall₂ (Attends c) bindings latches) {registers : Array Register}
    (h : c.Stored values registers) : ∃ latches' registers',
      each take latches registers = (.ok (), latches', registers') ∧
        List.Forall₂ (Carries c values) bindings latches' ∧ c.Stored values registers' := by
  induction hlatches generalizing registers with
  | nil => exact ⟨[], registers, rfl, .nil, h⟩
  | @cons b l bindings latches hl _ ih =>
      obtain ⟨l', registers', htake, hl', h'⟩ :=
        take_eq_ok hc hbound (hbindings b (List.mem_cons_self ..)) hl h
      obtain ⟨latches', registers'', hrest, hlatches', h''⟩ :=
        ih (fun b hb => hbindings b (List.mem_cons_of_mem _ hb)) h'
      exact ⟨l' :: latches', registers'', each_cons htake hrest, .cons hl' hlatches', h''⟩

/-- The recurrences that have been served have the values of their drivers, and the others still have
theirs. -/
theorem each_handOver {bindings : List Circuit.Binding}
    (hbound : ∀ b ∈ bindings, b.driver.isSome = true)
    (hdistinct : (bindings.map Circuit.Binding.register).Nodup) {latches : List Latch}
    (hlatches : List.Forall₂ (Carries c values) bindings latches)
    {current : RegisterId → Array Float32} {registers : Array Register}
    (h : c.Stored current registers) : ∃ latches' registers',
      each handOver latches registers = (.ok (), latches', registers') ∧
        List.Forall₂ (Attends c) bindings latches' ∧
        c.Stored (fun r => ((bindings.find? (·.register == r)).bind Circuit.Binding.driver).elim
          (current r) values) registers' := by
  induction hlatches generalizing current registers with
  | nil => exact ⟨[], registers, rfl, .nil, h⟩
  | @cons b l bindings latches hl _ ih =>
      obtain ⟨d, hd⟩ := Option.isSome_iff_exists.1 (hbound b (List.mem_cons_self ..))
      obtain ⟨hfresh, hdistinct⟩ := List.nodup_cons.1 hdistinct
      obtain ⟨l', registers', hhand, hl', h'⟩ := handOver_eq_ok hd hl h
      obtain ⟨latches', registers'', hrest, hlatches', h''⟩ :=
        ih (fun b hb => hbound b (List.mem_cons_of_mem _ hb)) hdistinct h'
      refine ⟨l' :: latches', registers'', each_cons hhand hrest, .cons hl' hlatches', ?_⟩
      convert h'' using 2 with r
      by_cases hr : b.register = r
      · subst hr
        have hnone : bindings.find? (·.register == b.register) = none := by
          rw [List.find?_eq_none]
          intro b' hb' heq
          exact hfresh (beq_iff_eq.1 heq ▸ List.mem_map_of_mem hb')
        simp [hnone, hd]
      · have hne : (b.register == r) = false := beq_eq_false_iff_ne.2 hr
        rw [List.find?_cons, hne, Function.update_of_ne fun heq => hr heq.symm]

end Latch

namespace Scheduler

def syncKernel (k : Circuit.Kernel Action) : SchedulerM Unit :=
  match k.kind.inputSide with
  | none => pure ()
  | some side => k.inputs.forM (syncRegister side)

theorem runKernel_run {s : Scheduler} {around : Surroundings} {i : KernelId}
    {k : Circuit.Kernel Action} (hk : s.circuit.kernels[i]? = some k) :
    (runKernel i).run.run (s, around) =
      (syncKernel k >>= fun _ => call i fun inputs c => c.compute inputs).run.run (s, around) := by
  have hfetch : (liftM (liftM (fetch s.circuit.kernels i) : Except CircuitError _) :
      SchedulerM (Circuit.Kernel Action)).run.run (s, around) = (.ok k, s, around) := by
    rw [fetch_eq_ok_iff.2 hk]
    rfl
  unfold runKernel
  rw [run_bind]
  change (liftM (liftM (fetch s.circuit.kernels i) : Except CircuitError _) >>=
    fun k : Circuit.Kernel Action => match k.kind.inputSide with
      | none => call i fun inputs c => c.compute inputs
      | some side => k.inputs.forM (syncRegister side) >>= fun _ =>
        call i fun inputs c => c.compute inputs).run.run (s, around) = _
  rw [run_bind, hfetch]
  unfold syncKernel
  dsimp only
  cases k.kind.inputSide <;> rfl

def sweep (order : List KernelId) : SchedulerM Unit := do
  order.forM runKernel
  latch

/-- How a step leaves the scheduler that is stepping: idle again unless it has faulted, and clocked if it
has succeeded. -/
def ended (s : Scheduler) : Except CircuitError Unit → Scheduler
  | .ok () => (s.withPhase .idle).clocked
  | .error e => if e.isFault then s else s.withPhase .idle

theorem step_run_unreset {s : Scheduler} (h : s.phase = .unreset) (around : Surroundings) :
    step.run.run (s, around) = (.error .notReset, s, around) := by
  unfold step
  rw [run_bind, run_get]
  dsimp only
  rw [if_pos h]
  rfl

theorem step_run {s : Scheduler} (h : s.phase ≠ .unreset) (around : Surroundings)
    {result : Except CircuitError Unit} {p : Scheduler × Surroundings}
    (hrun : (sweep s.order).run.run (s.withPhase .stepping, around) = (result, p)) :
    step.run.run (s, around) = (result, p.1.ended result, p.2) := by
  unfold step
  rw [run_bind, run_get]
  dsimp only
  rw [if_neg h]
  change (outcome (sweep s.order) >>= fun result => enterPhase .idle >>= fun _ =>
    liftM result >>= fun _ => modify fun p => (p.1.clocked, p.2) :
    SchedulerM Unit).run.run (s.withPhase .stepping, around) = _
  rw [run_bind, outcome, run_tryCatch, run_bind, hrun]
  cases result with
  | ok _ => rfl
  | error e =>
      by_cases hfault : e.isFault
      · simp only [ended, if_pos hfault]
        rfl
      · simp only [ended, if_neg hfault]
        rfl

theorem exists_sweep {s : Scheduler} (h : s.phase ≠ .unreset) {around : Surroundings}
    {result : Except CircuitError Unit} {q : Scheduler × Surroundings}
    (hrun : step.run.run (s, around) = (result, q)) : ∃ p,
      (sweep s.order).run.run (s.withPhase .stepping, around) = (result, p) ∧
        q = (p.1.ended result, p.2) := by
  rcases hsweep : (sweep s.order).run.run (s.withPhase .stepping, around) with ⟨result', p⟩
  cases (step_run h around hsweep).symm.trans hrun
  exact ⟨p, rfl, rfl⟩

/-- Where a step leads is known from where it leads while it is stepping. -/
theorem leads_step_of {s : Scheduler} (h : s.phase ≠ .unreset) {around : Surroundings}
    {post : Scheduler × Surroundings → Prop} {fail : CircuitError → Scheduler × Surroundings → Prop}
    (hsweep : Leads (sweep s.order) (s.withPhase .stepping, around)
      (fun _ p => post (p.1.ended (.ok ()), p.2)) fun e p => fail e (p.1.ended (.error e), p.2)) :
    Leads step (s, around) (fun _ => post) fail := by
  refine ⟨fun _ q hrun => ?_, fun e q hrun => ?_⟩
  · obtain ⟨p, hp, rfl⟩ := exists_sweep h hrun
    exact hsweep.1 () p hp
  · obtain ⟨p, hp, rfl⟩ := exists_sweep h hrun
    exact hsweep.2 e p hp

theorem onLatches_run {s : Scheduler} {around : Surroundings}
    {f : Latch → Array Register → Except CircuitError Unit × Latch × Array Register}
    {result : Except CircuitError Unit} {latches : List Latch} {registers : Array Register}
    (h : Latch.each f s.latches s.registers = (result, latches, registers)) :
    (onLatches f).run.run (s, around) = (result, { s with latches, registers }, around) := by
  change ((Latch.each f s.latches s.registers).1,
    { s with
      latches := (Latch.each f s.latches s.registers).2.1
      registers := (Latch.each f s.latches s.registers).2.2 }, around) = _
  rw [h]

namespace Represents

variable {c : Circuit Action} {order : List KernelId} {phase : Phase} {x : Snapshot}
  {s : Scheduler} {around : Surroundings} {i : KernelId} {k : Circuit.Kernel Action}

theorem syncKernel (h : s.Represents c order phase x around) (hc : c.WellFormed)
    (hk : c.kernels[i]? = some k) : ∃ s',
      (Scheduler.syncKernel k).run.run (s, around) = (.ok (), s', around) ∧
        s'.Represents c order phase x around ∧
        ∀ side, k.kind.inputSide = some side → ∀ r ∈ k.inputs, Current s' side r := by
  unfold Scheduler.syncKernel
  cases hside : k.kind.inputSide with
  | none => exact ⟨s, rfl, h, fun side hsome => by cases hsome⟩
  | some side =>
      obtain ⟨types, htypes, -⟩ := (hc.fits i k hk).inputs
      obtain ⟨s', hrun, h', hcurrent, -⟩ := h.syncInputs htypes side
      refine ⟨s', hrun, h', ?_⟩
      rintro _ ⟨⟩
      exact hcurrent

theorem exists_synced (h : s.Represents c order phase x around) (hc : c.WellFormed)
    (hk : c.kernels[i]? = some k) : ∃ s', s'.Represents c order phase x around ∧
      (Scheduler.syncKernel k).run.run (s, around) = (.ok (), s', around) ∧
      (∀ side, k.action.kind.inputSide = some side → ∀ r ∈ k.inputs, Current s' side r) ∧
      (Scheduler.runKernel i).run.run (s, around) =
        (Scheduler.call i fun inputs c => c.compute inputs).run.run (s', around) := by
  obtain ⟨a, ha, -⟩ := h.kernels i k hk
  obtain ⟨s', hsync, h', hcurrent⟩ := h.syncKernel hc hk
  rw [(hc.fits i k hk).kind] at hcurrent
  refine ⟨s', h', hsync, hcurrent, ?_⟩
  have hsame : Scheduler.syncKernel { k with action := a } = Scheduler.syncKernel k := rfl
  rw [runKernel_run ha, run_bind, hsame, hsync]

theorem runKernel_steady (h : s.Represents c order phase x around) (hc : c.Operable order)
    (hk : c.kernels[i]? = some k) (hfills : k.Fills x) (hsteady : k.action.kind ≠ .sensor) :
    ∃ s' around', (Scheduler.runKernel i).run.run (s, around) = (.ok (), s', around') ∧
      s'.Represents c order phase (k.fire x) around' ∧ around'.now = around.now := by
  obtain ⟨s', h', -, hcurrent, hrun⟩ := h.exists_synced hc.wellFormed hk
  rw [hrun]
  cases haction : k.action with
  | device d =>
      rw [haction] at hcurrent
      obtain ⟨s'', hcall, hfired⟩ := h'.compute_device hc hk haction (hcurrent _ rfl)
      exact ⟨s'', around, hcall, hfired, rfl⟩
  | host t f =>
      rw [haction] at hcurrent
      obtain ⟨s'', hcall, hfired⟩ := h'.compute_host hc hk haction hfills (hcurrent _ rfl)
      exact ⟨s'', around, hcall, hfired, rfl⟩
  | actuator a =>
      rw [haction] at hcurrent
      exact h'.compute_actuator hc hk haction (hcurrent _ rfl)
  | sensor sensor =>
      rw [haction] at hsteady
      exact absurd rfl hsteady
  | constant t values =>
      have hfire : k.fire x = x := by rw [Circuit.Kernel.fire, haction]
      obtain ⟨s'', hcall, hfired⟩ := h'.call_idle hc.wellFormed hk
        (f := fun inputs c => c.compute inputs) (fun inputs a outputs hbecomes => by
          rw [haction] at hbecomes
          cases hbecomes
          rfl)
      exact ⟨s'', around, hcall, hfire.symm ▸ hfired, rfl⟩
  | recurrence t values =>
      have hfire : k.fire x = x := by rw [Circuit.Kernel.fire, haction]
      obtain ⟨s'', hcall, hfired⟩ := h'.call_idle hc.wellFormed hk
        (f := fun inputs c => c.compute inputs) (fun inputs a outputs hbecomes => by
          rw [haction] at hbecomes
          cases hbecomes
          rfl)
      exact ⟨s'', around, hcall, hfire.symm ▸ hfired, rfl⟩

theorem runKernel_unfilled (h : s.Represents c order phase x around) (hc : c.WellFormed)
    (hk : c.kernels[i]? = some k) (hfills : ¬ k.Fills x) : ∃ e s',
      (Scheduler.runKernel i).run.run (s, around) = (.error e, s', around) ∧
        Stopped c order phase x e s' around := by
  obtain ⟨s', h', -, hcurrent, hrun⟩ := h.exists_synced hc hk
  rw [hrun]
  cases haction : k.action with
  | sensor sensor => exact h'.compute_sensor_unfilled hc hk haction hfills
  | host t f =>
      rw [haction] at hcurrent
      obtain ⟨_, s'', hcall, h''⟩ :=
        h'.compute_host_unfilled hc hk haction hfills (hcurrent _ rfl)
      rw [Circuit.Kernel.Fills, haction] at hfills
      exact ⟨_, s'', hcall, ⟨x, h'', rfl⟩, .inr hfills⟩
  | device | constant | actuator | recurrence =>
      rw [Circuit.Kernel.Fills, haction] at hfills
      exact absurd trivial hfills

theorem runKernel (h : s.Represents c order phase x around) (hc : c.Operable order)
    (hk : c.kernels[i]? = some k) (hfills : k.Fills x) :
    Attempts (Scheduler.runKernel i) s around (Fired c order phase k x around.now)
      (Halted c order phase (around.now + 2 * k.period)) := by
  by_cases hsensor : k.action.kind = .sensor
  · obtain ⟨sensor, haction⟩ := Action.exists_sensor hsensor
    obtain ⟨s', h', -, -, hrun⟩ := h.exists_synced hc.wellFormed hk
    obtain ⟨s'', around'', hcall⟩ := h'.compute_sensor hc hk haction hfills
    exact ⟨s'', around'', hrun ▸ hcall⟩
  · obtain ⟨s', around', hrun, hfired, hnow⟩ := h.runKernel_steady hc hk hfills hsensor
    exact .of_run hrun ⟨hfired, Nat.le_of_eq hnow.symm, hnow ▸ Nat.le_add_right ..⟩

def Intact (c : Circuit Action) (order : List KernelId) (phase : Phase)
    (p : Scheduler × Surroundings) : Prop :=
  ∃ x, p.1.Represents c order phase x p.2

/-- How a kernel may fail: at the end of time, or because what it yields does not fill its field, and
then no value has changed. -/
structure Fails (c : Circuit Action) (order : List KernelId) (phase : Phase) (k : Circuit.Kernel Action)
    (x : Snapshot) (e : CircuitError) (p : Scheduler × Surroundings) : Prop where
  intact : Intact c order phase p
  error : e = .fault .timeOverflow ∨ e.IsMiscount ∧ ¬ k.Fills x ∧
    ∃ x', p.1.Represents c order phase x' p.2 ∧ x'.values = x.values

/-- Whatever a kernel yields, the scheduler represents some state of the machine when it has run. -/
theorem leads_runKernel (h : s.Represents c order phase x around) (hc : c.Operable order)
    (hk : c.kernels[i]? = some k) : Leads (Scheduler.runKernel i) (s, around)
      (fun _ p => k.Fills x ∧ p.1.Represents c order phase (k.fire x) p.2)
      (Fails c order phase k x) := by
  by_cases hfills : k.Fills x
  · obtain ⟨s', around', ⟨hrun, hgood⟩ | ⟨hrun, hbad⟩⟩ := h.runKernel hc hk hfills
    · exact .of_ok hrun ⟨hfills, hgood.1⟩
    · exact .of_error hrun ⟨hbad.1, .inl rfl⟩
  · obtain ⟨e, s', hrun, hstopped⟩ := h.runKernel_unfilled hc.wellFormed hk hfills
    exact .of_error hrun ⟨hstopped.represents.imp fun _ h => h.1,
      hstopped.error.imp_right fun he => ⟨he, hfills, hstopped.represents⟩⟩

theorem runKernels (h : s.Represents c order phase x around) (hc : c.Runnable order)
    {later : List KernelId} (hlater : ∀ i ∈ later, i ∈ order) :
    Attempts (later.forM Scheduler.runKernel) s around
      (fun s' around' => s'.Represents c order phase (c.swept Circuit.Kernel.fire later x) around' ∧
        around'.now ≤ around.now + c.periods later)
      (Halted c order phase (around.now + 2 * c.periods later)) := by
  induction later generalizing s x around with
  | nil => exact .of_run rfl ⟨h, Nat.le_refl _⟩
  | cons i later ih =>
      obtain ⟨k, hk⟩ : ∃ k, c.kernels[i]? = some k := ⟨_, Array.getElem?_eq_getElem
        ((hc.topological.complete i).1 (hlater i (List.mem_cons_self ..)))⟩
      rw [Circuit.swept_cons hk, Circuit.periods_cons hk]
      have hfired := h.runKernel hc.toOperable hk (h.fills hc hk)
      have hfirst := hfired.mono (fun _ _ hgood => hgood) fun _ _ hbad =>
        (⟨hbad.1, by have := hbad.2; omega⟩ : Halted c order phase
          (around.now + 2 * (k.period + c.periods later)) _ _)
      refine hfirst.bind fun s' around' hfired => ?_
      obtain ⟨hfired, -, hnow⟩ := hfired
      refine (ih hfired fun j hj => hlater j (List.mem_cons_of_mem _ hj)).mono ?_ ?_
      · exact fun _ _ hgood => ⟨hgood.1, by have := hgood.2; omega⟩
      · exact fun _ _ hbad => ⟨hbad.1, by have := hbad.2; omega⟩

/-- Latching hands the values of all drivers over at once. -/
theorem latch (h : s.Represents c order phase x around) (hc : c.Operable order) : ∃ s',
    Scheduler.latch.run.run (s, around) = (.ok (), s', around) ∧
      s'.Represents c order phase (c.latched x) around := by
  obtain ⟨staged, registers, htake, hstaged, hregisters⟩ :=
    Latch.each_take hc.wellFormed hc.bound (fun _ hb => hb) h.latches h.registers
  obtain ⟨latches, registers', hhand, hlatches, hregisters'⟩ :=
    Latch.each_handOver hc.bound hc.wellFormed.distinct hstaged hregisters
  refine ⟨{ s with latches, registers := registers' }, ?_, ?_⟩
  · rw [Scheduler.latch, run_bind, onLatches_run htake]
    exact onLatches_run hhand
  · exact ⟨h.order, h.phase, h.size, h.kernels, h.wires, h.recurrences, hregisters', hlatches,
      h.logs⟩

theorem clocked (h : s.Represents c order phase x around) :
    s.clocked.Represents c order phase x around := by
  refine ⟨h.order, h.phase, h.size, h.kernels, h.wires, h.recurrences, ?_, h.latches, h.logs⟩
  refine h.registers.map fun reg => ?_
  unfold Register.clock
  split <;> rfl

/-- A step is a cycle of the machine. -/
theorem step (h : s.Represents c order phase x around) (hphase : phase ≠ .unreset)
    (hc : c.Runnable order) : Attempts Scheduler.step s around
      (fun s' around' => s'.Represents c order .idle
        (c.latched (c.swept Circuit.Kernel.fire order x)) around' ∧
          around'.now ≤ around.now + c.periods order)
      (Halted c order .stepping (around.now + 2 * c.periods order)) := by
  have hsweep : Attempts (sweep order) (s.withPhase .stepping) around
      (fun s' around' => s'.Represents c order .stepping
        (c.latched (c.swept Circuit.Kernel.fire order x)) around' ∧
          around'.now ≤ around.now + c.periods order)
      (Halted c order .stepping (around.now + 2 * c.periods order)) := by
    refine ((h.withPhase .stepping).runKernels hc fun _ hi => hi).bind fun s₁ around₁ h₁ => ?_
    obtain ⟨s₂, hlatch, h₂⟩ := h₁.1.latch hc.toOperable
    exact .of_run hlatch ⟨h₂, h₁.2⟩
  rw [← h.phase] at hphase
  rw [← h.order] at hsweep ⊢
  obtain ⟨s', around', ⟨hrun, hgood⟩ | ⟨hrun, hbad⟩⟩ := hsweep
  · exact .of_run (step_run hphase around hrun) ⟨(hgood.1.withPhase .idle).clocked, hgood.2⟩
  · exact ⟨s', around', .inr ⟨step_run hphase around hrun, hbad⟩⟩

theorem leads_runKernels (h : s.Represents c order phase x around) (hc : c.Operable order)
    {later : List KernelId} (hlater : ∀ i ∈ later, i ∈ order) :
    Leads (later.forM Scheduler.runKernel) (s, around)
      (fun _ p => p.1.Represents c order phase (c.swept Circuit.Kernel.fire later x) p.2)
      fun _ => Intact c order phase := by
  induction later generalizing s x around with
  | nil => exact .pure h
  | cons i later ih =>
      obtain ⟨k, hk⟩ : ∃ k, c.kernels[i]? = some k := ⟨_, Array.getElem?_eq_getElem
        ((hc.topological.complete i).1 (hlater i (List.mem_cons_self ..)))⟩
      rw [Circuit.swept_cons hk]
      have hfirst := (h.leads_runKernel hc hk).mono (fun _ _ hfired => hfired) fun _ _ hfails =>
        hfails.intact
      refine hfirst.bind fun _ p hfired => ?_
      exact ih hfired.2 fun j hj => hlater j (List.mem_cons_of_mem _ hj)

theorem leads_sweep (h : s.Represents c order phase x around) (hc : c.Operable order) :
    Leads (sweep order) (s, around) (fun _ p => p.1.Represents c order phase
      (c.latched (c.swept Circuit.Kernel.fire order x)) p.2) fun _ => Intact c order phase := by
  refine (h.leads_runKernels hc fun _ hi => hi).bind fun _ p h₁ => ?_
  obtain ⟨s', hlatch, h₂⟩ := h₁.latch hc
  exact .of_ok hlatch h₂

/-- A step that succeeds is a cycle of the machine, whatever kernels yield, and the scheduler is idle after
it. So it is after a step that fails, unless that is a fault. -/
theorem leads_step (h : s.Represents c order phase x around) (hphase : phase ≠ .unreset)
    (hc : c.Operable order) : Leads Scheduler.step (s, around)
      (fun _ p => p.1.Represents c order .idle
        (c.latched (c.swept Circuit.Kernel.fire order x)) p.2)
      fun e => Intact c order (if e.isFault then .stepping else .idle) := by
  have hsweep := (h.withPhase .stepping).leads_sweep hc
  rw [← h.phase] at hphase
  rw [← h.order] at hsweep ⊢
  refine leads_step_of hphase (hsweep.mono (fun _ p hp => (hp.withPhase .idle).clocked) ?_)
  rintro e p ⟨x', hp⟩
  refine ⟨x', ?_⟩
  rw [ended]
  split
  · exact hp
  · exact hp.withPhase .idle

theorem read (h : s.Represents c order phase x around) {r : RegisterId} {t : FieldType}
    (ht : c.type? r = some t) : ∃ s', s.read r = .ok (x.values r, s') ∧
      s'.Represents c order phase x around := by
  obtain ⟨reg, hreg, hholds⟩ := h.registers r t ht
  obtain ⟨p, -, hread, hp⟩ := hholds.read .host
  have hregister : s.register r = .ok reg := by rw [Scheduler.register, hreg]
  refine ⟨{ s with registers := s.registers.setIfInBounds r { reg with pair := p } }, ?_, ?_⟩
  · simp only [Scheduler.read, hregister, ok_bind, Register.read, hread]
    rfl
  · refine h.setRegister fun t' ht' => ?_
    rwa [← Option.some.inj (ht.symm.trans ht')]

end Represents

end Scheduler

end FieldCircuit
