import FieldCircuit.Proofs.Scheduler.Cycle

/-!
# Resets

A reset of a scheduler restarts all kernels of the machine. It cannot fail once every recurrence has a
driver, since nothing waits for a sensor.
-/

namespace FieldCircuit

/-- A sensor that is reset has come as far as after a restart, and has no window open. -/
theorem SensorKernel.reset_eq (s : SensorKernel) (i : Intake) (p : Pacing) :
    reset { s.atIntake i with pacing := p } =
      { s.atIntake (s.atIntake i).reset.intake with pacing := p.reset } := by
  cases hr : s.sensor.rewinds <;> simp [reset, atIntake, intake, Sensor.reset, hr]

theorem Pacing.near_reset (p : Pacing) (now : Nat) : p.reset.Near now :=
  fun q d _ hd => by cases hd

namespace Scheduler.Represents

variable {c : Circuit Action} {order : List KernelId} {phase : Phase} {x : Snapshot}
  {s : Scheduler} {around : Surroundings} {i : KernelId} {k : Circuit.Kernel Action}

theorem reset_written (h : s.Represents c order phase x around) (hc : c.WellFormed)
    (hk : c.kernels[i]? = some k) {t : FieldType} (ht : k.action.outputTypes = [t])
    {value : Array Float32} (hvalue : (k.restart x).values = (x.put k.outputs value).values)
    (hintakes : ∀ j ≠ i, (k.restart x).intakes j = x.intakes j)
    (hlogs : (k.restart x).logs = x.logs)
    (hreset : ∀ a reg, k.action.Becomes (x.intakes i) around.now a → reg.pair.Fits t → ∃ a' reg',
      Call.reset ⟨a, [reg], around⟩ = (.ok (), ⟨a', [reg'], around⟩) ∧
        k.action.Becomes ((k.restart x).intakes i) around.now a' ∧ reg'.pair.Holds t value) : ∃ s',
      (Scheduler.call i fun _ c => c.reset).run.run (s, around) = (.ok (), s', around) ∧
        s'.Represents c order phase (k.restart x) around := by
  obtain ⟨a, r, inputs, reg, henter, hbecomes, -, hr, htype, hholds⟩ := h.enter_single hc hk ht
  obtain ⟨a', reg', hcall, hbecomes', hholds'⟩ := hreset a reg hbecomes hholds.fits
  refine ⟨_, call_run (fun _ c => c.reset) henter hcall, ?_⟩
  refine h.leave_single hc hk hr htype hbecomes' ?_
    (Circuit.Kernel.local_restart.values k x) hintakes (Nat.le_refl _) (h.logs.trans hlogs.symm)
  rw [hvalue]
  simpa [Snapshot.put, hr] using hholds'

theorem reset_constant (h : s.Represents c order phase x around) (hc : c.WellFormed)
    (hk : c.kernels[i]? = some k) {t : FieldType} {values : Array Float32}
    (haction : k.action = .constant t values) : ∃ s',
      (Scheduler.call i fun _ c => c.reset).run.run (s, around) = (.ok (), s', around) ∧
        s'.Represents c order phase (k.restart x) around := by
  obtain ⟨types, -, hsuits⟩ := (hc.fits i k hk).inputs
  rw [haction] at hsuits
  have hrestart : k.restart x = x.put k.outputs (t.stored values) := by
    rw [Circuit.Kernel.restart, haction]
  refine h.reset_written hc hk (t := t) (by rw [haction]; rfl) (congrArg Snapshot.values hrestart)
    (fun j _ => by rw [hrestart]; rfl) (by rw [hrestart]; rfl) ?_
  intro a reg hbecomes hreg
  rw [haction] at hbecomes ⊢
  cases hbecomes
  obtain ⟨reg', hupdate, hholds⟩ :=
    Call.update_write_eq_ok around (.constant t values) hreg hsuits
  exact ⟨_, reg', hupdate, .constant t values, hholds⟩

theorem reset_recurrence (h : s.Represents c order phase x around) (hc : c.Operable order)
    (hk : c.kernels[i]? = some k) {t : FieldType} {initial : Option (Array Float32)}
    (haction : k.action = .recurrence t initial) : ∃ s',
      (Scheduler.call i fun _ c => c.reset).run.run (s, around) = (.ok (), s', around) ∧
        s'.Represents c order phase (k.restart x) around := by
  have hfits := hc.wellFormed.fits i k hk
  obtain ⟨types, -, hsuits⟩ := hfits.inputs
  obtain ⟨r, -, ht⟩ := hfits.output (t := t) (by rw [haction]; rfl)
  rw [haction] at hsuits
  have hrestart : k.restart x = x.put k.outputs (t.initial initial) := by
    rw [Circuit.Kernel.restart, haction]
  refine h.reset_written hc.wellFormed hk (t := t) (by rw [haction]; rfl)
    (congrArg Snapshot.values hrestart) (fun j _ => by rw [hrestart]; rfl)
    (by rw [hrestart]; rfl) ?_
  intro a reg hbecomes hreg
  rw [haction] at hbecomes ⊢
  cases hbecomes
  cases initial with
  | none =>
      obtain ⟨reg', hupdate, hholds⟩ :=
        Call.writeZeros_eq_ok around (.recurrence t none) hreg (hc.words r t ht)
      have hzeros : t.initial none = Array.replicate t.words 0.0 := Encoding.quantized_zeros ..
      exact ⟨_, reg', hupdate, .recurrence t none, hzeros ▸ hholds⟩
  | some values =>
      obtain ⟨reg', hupdate, hholds⟩ := Call.update_write_eq_ok around
        (.recurrence t (some values)) hreg (hsuits values rfl)
      exact ⟨_, reg', hupdate, .recurrence t (some values), hholds⟩

theorem reset_sensor (h : s.Represents c order phase x around) (hc : c.Operable order)
    (hk : c.kernels[i]? = some k) {sensor : SensorKernel} (haction : k.action = .sensor sensor) :
    ∃ s', (Scheduler.call i fun _ c => c.reset).run.run (s, around) = (.ok (), s', around) ∧
      s'.Represents c order phase (k.restart x) around := by
  have hfits := hc.wellFormed.fits i k hk
  obtain ⟨r, -, ht⟩ := hfits.output (t := sensor.fieldType) (by rw [haction]; rfl)
  have hid : k.id = i := hc.wellFormed.id i k hk
  have hrestart : k.restart x =
      (x.put k.outputs (Array.replicate sensor.fieldType.words 0.0)).moved i
        (sensor.atIntake (x.intakes i)).reset.intake := by
    rw [Circuit.Kernel.restart, haction, hid]
  have hmoved : (k.restart x).intakes i = (sensor.atIntake (x.intakes i)).reset.intake := by
    rw [hrestart]
    exact Function.update_self ..
  have hvalues : (k.restart x).values =
      (x.put k.outputs (Array.replicate sensor.fieldType.words 0.0)).values := by
    rw [hrestart]
    rfl
  refine h.reset_written hc.wellFormed hk (t := sensor.fieldType) (by rw [haction]; rfl) hvalues
    (fun j hj => Circuit.Kernel.local_restart.intakes k x j (hid ▸ hj)) (by rw [hrestart]; rfl) ?_
  intro a reg hbecomes hreg
  rw [haction] at hbecomes ⊢
  rw [hmoved]
  cases hbecomes with
  | @sensor _ p hperiod hnear hstaged =>
      obtain ⟨reg', hupdate, hholds⟩ := Call.writeZeros_eq_ok around
        (.sensor (SensorKernel.reset { sensor.atIntake (x.intakes i) with pacing := p })) hreg
        (hc.words r _ ht)
      refine ⟨_, reg', hupdate, ?_, hholds⟩
      rw [SensorKernel.reset_eq sensor (x.intakes i) p]
      refine .sensor (p := p.reset) hperiod (p.near_reset around.now) fun _ frame hframe => ?_
      cases hframe

theorem resetActuator_logs (around : Surroundings) (a : Actuator) :
    (around.resetActuator a).logs = a.cleared around.logs ∧
      (around.resetActuator a).now = around.now := by
  cases a <;> exact ⟨rfl, rfl⟩

theorem reset_actuator (h : s.Represents c order phase x around) (hc : c.WellFormed)
    (hk : c.kernels[i]? = some k) {a : Actuator} (haction : k.action = .actuator a) :
    ∃ s' around', (Scheduler.call i fun _ c => c.reset).run.run (s, around) =
        (.ok (), s', around') ∧
      s'.Represents c order phase (k.restart x) around' ∧ around'.now = around.now := by
  obtain ⟨b, inputs, outputs, henter, hbecomes, -, hout⟩ := h.enter hc hk
  have hnone : k.outputs = [] := by
    have houtputs := (hc.fits i k hk).outputs
    rw [haction] at houtputs
    exact List.map_eq_nil_iff.1 houtputs
  have hrestart : k.restart x = { x with logs := a.cleared x.logs } := by
    rw [Circuit.Kernel.restart, haction]
  obtain ⟨hlogs, hnow⟩ := resetActuator_logs around a
  rw [haction] at hbecomes
  cases hbecomes
  refine ⟨_, _, call_run (fun _ c => c.reset) henter rfl, ?_, hnow⟩
  refine h.leave _ hc hk ?_ ?_ ?_ ?_ (Nat.le_of_eq hnow.symm) ?_
  · rw [haction]
    exact .actuator a
  · rw [hnone] at hout ⊢
    cases hout
    exact .nil
  · exact Circuit.Kernel.local_restart.values k x
  · rw [hrestart]
    exact fun j _ => rfl
  · rw [hrestart]
    exact hlogs.trans (by rw [h.logs])

theorem resetKernel (h : s.Represents c order phase x around) (hc : c.Operable order)
    (hk : c.kernels[i]? = some k) : ∃ s' around',
      (Scheduler.call i fun _ c => c.reset).run.run (s, around) = (.ok (), s', around') ∧
        s'.Represents c order phase (k.restart x) around' ∧ around'.now = around.now := by
  -- operations and host functions have nothing to restore
  have hidle : (∀ a, k.action.Becomes (x.intakes i) around.now a → ∀ outputs,
      Call.reset ⟨a, outputs, around⟩ = (.ok (), ⟨a, outputs, around⟩)) → k.restart x = x →
      ∃ s', (Scheduler.call i fun _ c => c.reset).run.run (s, around) = (.ok (), s', around) ∧
        s'.Represents c order phase (k.restart x) around := by
    intro hreset hrestart
    rw [hrestart]
    exact h.call_idle hc.wellFormed hk fun _ a outputs ha => hreset a ha outputs
  have hquiet : (∃ s', (Scheduler.call i fun _ c => c.reset).run.run (s, around) =
      (.ok (), s', around) ∧ s'.Represents c order phase (k.restart x) around) →
      ∃ s' around', (Scheduler.call i fun _ c => c.reset).run.run (s, around) =
        (.ok (), s', around') ∧
        s'.Represents c order phase (k.restart x) around' ∧ around'.now = around.now :=
    fun ⟨s', hrun, h'⟩ => ⟨s', around, hrun, h', rfl⟩
  cases haction : k.action with
  | constant t values => exact hquiet (h.reset_constant hc.wellFormed hk haction)
  | recurrence t initial => exact hquiet (h.reset_recurrence hc hk haction)
  | sensor sensor => exact hquiet (h.reset_sensor hc hk haction)
  | actuator a => exact h.reset_actuator hc.wellFormed hk haction
  | device d =>
      refine hquiet (hidle (fun a ha outputs => ?_) (by rw [Circuit.Kernel.restart, haction]))
      rw [haction] at ha
      cases ha
      rfl
  | host t f =>
      refine hquiet (hidle (fun a ha outputs => ?_) (by rw [Circuit.Kernel.restart, haction]))
      rw [haction] at ha
      cases ha
      rfl

/-- Kernels that are reset one after the other are restarted one after the other. -/
theorem resetKernels (h : s.Represents c order phase x around) (hc : c.Operable order)
    {later : List KernelId} (hlater : ∀ i ∈ later, i ∈ order) : ∃ s' around',
      (later.forM fun i => Scheduler.call i fun _ c => c.reset).run.run (s, around) =
        (.ok (), s', around') ∧
      s'.Represents c order phase (c.swept Circuit.Kernel.restart later x) around' ∧
        around'.now = around.now := by
  induction later generalizing s x around with
  | nil => exact ⟨s, around, rfl, h, rfl⟩
  | cons i later ih =>
      obtain ⟨k, hk⟩ : ∃ k, c.kernels[i]? = some k := ⟨_, Array.getElem?_eq_getElem
        ((hc.topological.complete i).1 (hlater i (List.mem_cons_self ..)))⟩
      obtain ⟨s₁, around₁, hfirst, h₁, hnow₁⟩ := h.resetKernel hc hk
      obtain ⟨s', around', hrest, h', hnow⟩ :=
        ih h₁ fun j hj => hlater j (List.mem_cons_of_mem _ hj)
      refine ⟨s', around', ?_, Circuit.swept_cons hk later ▸ h', hnow.trans hnow₁⟩
      change ((Scheduler.call i fun _ c => c.reset) >>= fun _ =>
        later.forM fun i => Scheduler.call i fun _ c => c.reset).run.run (s, around) = _
      rw [run_bind, hfirst]
      exact hrest

theorem checkBindings (h : s.Represents c order phase x around) (hbound : c.Bound) :
    s.checkBindings = .ok () := by
  refine forM_eq_ok_iff.2 fun l hl => if_pos ?_
  obtain ⟨b, hb, hattends⟩ := forall₂_exists_left h.latches hl
  rw [hattends.driver]
  exact hbound b hb

/-- A reset restarts the machine. -/
theorem reset (h : s.Represents c order phase x around) (hc : c.Operable order) :
    ∃ s' around', Scheduler.reset.run.run (s, around) = (.ok (), s', around') ∧
      s'.Represents c order .idle (c.swept Circuit.Kernel.restart order x) around' ∧
        around'.now = around.now := by
  have hforgotten : Scheduler.Represents c order phase x
      { s with registers := s.registers.map Register.reset } around :=
    ⟨h.order, h.phase, h.size, h.kernels, h.wires, h.recurrences, h.registers.map fun _ => rfl,
      h.latches, h.logs⟩
  obtain ⟨s', around', hrun, h', hnow⟩ := hforgotten.resetKernels hc fun _ hi => hi
  refine ⟨{ s' with cycle := 0, phase := .idle }, around', ?_, ?_, hnow⟩
  · have hchecked : (liftM s.checkBindings : SchedulerM Unit).run.run (s, around) =
        (.ok (), s, around) := by
      rw [h.checkBindings hc.bound]
      rfl
    have hrest : (s.order.forM fun i => Scheduler.call i fun _ c => c.reset).run.run
        ({ s with registers := s.registers.map Register.reset }, around) =
          (.ok (), s', around') := by
      rw [← hrun, h.order]
    unfold Scheduler.reset
    rw [run_bind, run_get]
    dsimp only
    rw [run_bind, hchecked]
    dsimp only
    rw [run_bind, run_modify]
    dsimp only
    rw [run_bind, hrest]
    exact run_modify _ _
  · exact ⟨h'.order, rfl, h'.size, h'.kernels, h'.wires, h'.recurrences, h'.registers, h'.latches,
      h'.logs⟩

end Scheduler.Represents

end FieldCircuit
