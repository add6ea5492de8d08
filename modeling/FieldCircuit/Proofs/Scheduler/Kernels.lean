import FieldCircuit.Proofs.Keeping
import FieldCircuit.Proofs.Scheduler.Calls

/-!
# Running kernels

Running a kernel of a scheduler is firing it in the machine: its inputs are first made current where it
reads them, and it then replaces the value of its register. Either this succeeds or the end of time was
near, and in both cases the scheduler represents some state of the machine.
-/

namespace FieldCircuit

/-- The computation succeeds in one way or fails at the end of time in another. -/
def Scheduler.Attempts (m : SchedulerM Unit) (s : Scheduler) (around : Surroundings)
    (good bad : Scheduler → Surroundings → Prop) : Prop :=
  ∃ s' around', m.run.run (s, around) = (.ok (), s', around') ∧ good s' around' ∨
    m.run.run (s, around) = (.error (.fault .timeOverflow), s', around') ∧ bad s' around'

namespace Scheduler.Attempts

variable {m m' : SchedulerM Unit} {s : Scheduler} {around : Surroundings}
  {good good' bad bad' : Scheduler → Surroundings → Prop}

theorem mono (h : Attempts m s around good bad) (hgood : ∀ s a, good s a → good' s a)
    (hbad : ∀ s a, bad s a → bad' s a) : Attempts m s around good' bad' := by
  obtain ⟨s', around', ⟨hrun, h⟩ | ⟨hrun, h⟩⟩ := h
  · exact ⟨s', around', .inl ⟨hrun, hgood s' around' h⟩⟩
  · exact ⟨s', around', .inr ⟨hrun, hbad s' around' h⟩⟩

theorem bind (h : Attempts m s around good bad)
    (h' : ∀ s' around', good s' around' → Attempts m' s' around' good' bad) :
    Attempts (m >>= fun _ => m') s around good' bad := by
  obtain ⟨s', around', ⟨hrun, hgood⟩ | ⟨hrun, hbad⟩⟩ := h
  · obtain ⟨s'', around'', hnext⟩ := h' s' around' hgood
    refine ⟨s'', around'', ?_⟩
    rw [run_bind, hrun]
    exact hnext
  · exact ⟨s', around', .inr ⟨by rw [run_bind, hrun], hbad⟩⟩

theorem of_run {s' : Scheduler} {around' : Surroundings}
    (hrun : m.run.run (s, around) = (.ok (), s', around')) (h : good s' around') :
    Attempts m s around good bad :=
  ⟨s', around', .inl ⟨hrun, h⟩⟩

end Scheduler.Attempts

/-- What a circuit needs to be run in an order, when its sensors and host functions may yield anything. -/
structure Circuit.Operable (c : Circuit Action) (order : List KernelId) : Prop where
  wellFormed : c.WellFormed
  topological : c.Topological order
  bound : c.Bound
  words : ∀ r t, c.type? r = some t → t.words? = .ok t.words
  bytes : ∀ r t, c.type? r = some t → t.words * 4 < sizeBound

/-- What a circuit needs so that only the end of time can stop it. -/
structure Circuit.Runnable (c : Circuit Action) (order : List KernelId) : Prop
    extends Circuit.Operable c order where
  regular : c.Regular

/-- What the sensor or the host function of a kernel yields now fills its field. -/
def Circuit.Kernel.Fills (k : Circuit.Kernel Action) (x : Snapshot) : Prop :=
  match k.action with
  | .sensor s => ∀ frame ∈ s.due (x.intakes k.id), frame.size = s.fieldType.words
  | .host t f => (f (k.inputs.map x.values)).size = t.words
  | .device _ | .constant .. | .actuator _ | .recurrence .. => True

/-- Only sensors and host functions may yield too many or too few words. -/
theorem Circuit.Kernel.kind_of_not_fills {k : Circuit.Kernel Action} {x : Snapshot}
    (h : ¬ k.Fills x) : k.action.kind = .sensor ∨ k.action.kind = .host := by
  unfold Circuit.Kernel.Fills at h
  cases haction : k.action with
  | sensor => exact .inl rfl
  | host => exact .inr rfl
  | device | constant | actuator | recurrence =>
      rw [haction] at h
      exact absurd trivial h

/-- Operations that are run are sound, since their operands fit machine sizes. -/
theorem Circuit.Operable.sound_operation {c : Circuit Action} {order : List KernelId}
    (h : c.Operable order) {inputs : List RegisterId} {types : List FieldType} {op : Operation}
    (htypes : inputs.map c.type? = types.map some) (hop : op.Serves types) : op.Sound types := by
  refine hop.sound fun t ht e he => ?_
  have hmem : some t ∈ inputs.map c.type? := htypes ▸ List.mem_map_of_mem ht
  obtain ⟨r, -, hr⟩ := List.mem_map.1 hmem
  have hbytes := h.bytes r t hr
  have hle := FieldType.extent_le_words he
  have hbound : signedBound * 2 = sizeBound := by decide
  omega

def Circuit.Kernel.period (k : Circuit.Kernel Action) : Nat :=
  match k.action with
  | .sensor s => s.pacing.period.getD 0
  | _ => 0

theorem Circuit.Fits.output {c : Circuit Action} {k : Circuit.Kernel Action} (h : c.Fits k)
    {t : FieldType} (ht : k.action.outputTypes = [t]) :
    ∃ r, k.outputs = [r] ∧ c.type? r = some t := by
  have houtputs := h.outputs
  rw [ht] at houtputs
  obtain ⟨r, hr, htype⟩ := List.map_eq_singleton_iff.1 houtputs
  exact ⟨r, hr, htype⟩

namespace Scheduler.Represents

variable {c : Circuit Action} {order : List KernelId} {phase : Phase} {x : Snapshot}
  {s : Scheduler} {around : Surroundings} {i : KernelId} {k : Circuit.Kernel Action}

def Current (s : Scheduler) (side : Side) (r : RegisterId) : Prop :=
  ∀ reg, s.registers[r]? = some reg → reg.pair.validity.holds side = true

theorem syncRegister (h : s.Represents c order phase x around) {r : RegisterId} {t : FieldType}
    (ht : c.type? r = some t) (side : Side) : ∃ s',
      (Scheduler.syncRegister side r).run.run (s, around) = (.ok (), s', around) ∧
        s'.Represents c order phase x around ∧ Current s' side r ∧
        ∀ q, Current s side q → Current s' side q := by
  obtain ⟨reg, hreg, hholds⟩ := h.registers r t ht
  obtain ⟨p, hsync, hp, hcurrent⟩ := hholds.sync side
  have hregsync : reg.sync side = .ok { reg with pair := p } := by
    rw [Register.sync, hsync]
    rfl
  have hset : ({ s with registers := s.registers.setIfInBounds r { reg with pair := p } } :
      Scheduler).registers[r]? = some { reg with pair := p } :=
    Array.getElem?_setIfInBounds_self_of_lt (Array.getElem?_eq_some_iff.1 hreg).1
  refine ⟨{ s with registers := s.registers.setIfInBounds r { reg with pair := p } }, ?_, ?_, ?_, ?_⟩
  · simp only [Scheduler.syncRegister, ExceptT.run_mk, StateT.run, hreg, hregsync]
  · refine h.setRegister fun t' ht' => ?_
    rwa [Option.some.inj (ht'.symm.trans ht)]
  · intro reg' hreg'
    rw [← Option.some.inj (hset.symm.trans hreg')]
    exact hcurrent
  · intro q hq reg' hreg'
    by_cases heq : q = r
    · subst heq
      rw [← Option.some.inj (hset.symm.trans hreg')]
      exact hcurrent
    · refine hq reg' ?_
      rw [← hreg']
      exact (Array.getElem?_setIfInBounds_ne fun h => heq h.symm).symm

theorem syncInputs (h : s.Represents c order phase x around) {inputs : List RegisterId}
    {types : List FieldType} (htypes : inputs.map c.type? = types.map some) (side : Side) : ∃ s',
      (inputs.forM (Scheduler.syncRegister side)).run.run (s, around) = (.ok (), s', around) ∧
        s'.Represents c order phase x around ∧ (∀ r ∈ inputs, Current s' side r) ∧
        ∀ q, Current s side q → Current s' side q := by
  induction inputs generalizing s types with
  | nil => exact ⟨s, rfl, h, fun r hr => (by cases hr), fun q hq => hq⟩
  | cons r inputs ih =>
      obtain ⟨t, -, ht⟩ := Circuit.exists_type?_of_mem htypes (List.mem_cons_self ..)
      obtain ⟨t', types', rfl⟩ : ∃ t' types', types = t' :: types' := by
        cases types with
        | nil => cases htypes
        | cons t' types' => exact ⟨t', types', rfl⟩
      obtain ⟨s₁, hrun₁, h₁, hcurrent₁, hkeep₁⟩ := h.syncRegister ht side
      obtain ⟨s', hrun, h', hcurrent, hkeep⟩ := ih h₁ (List.cons.inj htypes).2
      refine ⟨s', ?_, h', fun q hq => ?_, fun q hq => hkeep q (hkeep₁ q hq)⟩
      · change (Scheduler.syncRegister side r >>= fun _ =>
          inputs.forM (Scheduler.syncRegister side)).run.run (s, around) = _
        rw [run_bind, hrun₁]
        exact hrun
      · rcases List.mem_cons.1 hq with rfl | hq
        · exact hkeep q hcurrent₁
        · exact hcurrent q hq

theorem operands (h : s.Represents c order phase x around) {inputs : List RegisterId}
    {types : List FieldType} (htypes : inputs.map c.type? = types.map some) {regs : List Register}
    (hregs : List.Forall₂ (fun r reg => s.registers[r]? = some reg) inputs regs)
    {q : Register → Array Float32 → Prop} (hq : ∀ r ∈ inputs, ∀ reg t,
      s.registers[r]? = some reg → reg.pair.Holds t (x.values r) → q reg (x.values r)) :
    List.Forall₂ q regs (inputs.map x.values) := by
  rw [List.forall₂_map_right_iff]
  apply List.Forall₂.flip
  refine List.forall₂_iff_get.2 ⟨hregs.length_eq, fun n hn hn' => ?_⟩
  have hreg := (List.forall₂_iff_get.1 hregs).2 n hn hn'
  have hmem := List.get_mem inputs ⟨n, hn⟩
  obtain ⟨t, -, ht⟩ := Circuit.exists_type?_of_mem htypes hmem
  obtain ⟨reg, hreg', hholds⟩ := h.registers _ t ht
  obtain rfl := Option.some.inj (hreg.symm.trans hreg')
  exact hq _ hmem _ t hreg hholds

theorem size_inputs (h : s.Represents c order phase x around) {inputs : List RegisterId}
    {types : List FieldType} (htypes : inputs.map c.type? = types.map some) :
    (inputs.map x.values).map Array.size = types.map FieldType.words := by
  induction inputs generalizing types with
  | nil => cases types with
    | nil => rfl
    | cons t types => cases htypes
  | cons r inputs ih => cases types with
    | nil => cases htypes
    | cons t types =>
        obtain ⟨ht, hrest⟩ := List.cons.inj htypes
        obtain ⟨reg, -, hholds⟩ := h.registers r t ht
        rw [List.map_cons, List.map_cons, List.map_cons, ih hrest, hholds.size]

theorem call_run (f : List Register → Call → Except CircuitError Unit × Call)
    {inputs : List Register} {before after : Call} {result : Except CircuitError Unit}
    (henter : s.enter around i = .ok (inputs, before)) (hf : f inputs before = (result, after)) :
    (Scheduler.call i f).run.run (s, around) = (result, s.leave i after, after.surroundings) := by
  simp only [Scheduler.call, ExceptT.run_mk, StateT.run, henter, hf]

theorem enter_single (h : s.Represents c order phase x around) (hc : c.WellFormed)
    (hk : c.kernels[i]? = some k) {t : FieldType} (ht : k.action.outputTypes = [t]) :
    ∃ a r inputs reg, s.enter around i = .ok (inputs, ⟨a, [reg], around⟩) ∧
      k.action.Becomes (x.intakes i) around.now a ∧
      List.Forall₂ (fun r reg => s.registers[r]? = some reg) k.inputs inputs ∧
      k.outputs = [r] ∧ c.type? r = some t ∧ reg.pair.Holds t (x.values r) := by
  obtain ⟨a, inputs, outputs, henter, hbecomes, hin, hout⟩ := h.enter hc hk
  obtain ⟨r, hr, htype⟩ := (hc.fits i k hk).output ht
  rw [hr] at hout
  cases hout with
  | @cons _ reg _ _ hreg hnil => cases hnil with
    | nil =>
        obtain ⟨reg', hreg', hholds⟩ := h.registers r t htype
        obtain rfl := Option.some.inj (hreg.symm.trans hreg')
        exact ⟨a, r, inputs, reg, henter, hbecomes, hin, hr, htype, hholds⟩

theorem leave_single (h : s.Represents c order phase x around) (hc : c.WellFormed)
    (hk : c.kernels[i]? = some k) {r : RegisterId} {t : FieldType} (hr : k.outputs = [r])
    (ht : c.type? r = some t) {x' : Snapshot} {a : Action} {reg : Register}
    {around' : Surroundings} (haction : k.action.Becomes (x'.intakes i) around'.now a)
    (hholds : reg.pair.Holds t (x'.values r)) (hvalues : ∀ q ∉ k.outputs, x'.values q = x.values q)
    (hintakes : ∀ j ≠ i, x'.intakes j = x.intakes j) (hnow : around.now ≤ around'.now)
    (hlogs : around'.logs = x'.logs) :
    (s.leave i ⟨a, [reg], around'⟩).Represents c order phase x' around' := by
  refine h.leave ⟨a, [reg], around'⟩ hc hk haction ?_ hvalues hintakes hnow hlogs
  rw [hr]
  refine .cons (fun t' ht' => ?_) .nil
  rwa [Option.some.inj (ht'.symm.trans ht)]

theorem leave_put (h : s.Represents c order phase x around) (hc : c.WellFormed)
    (hk : c.kernels[i]? = some k) {r : RegisterId} {t : FieldType} (hr : k.outputs = [r])
    (ht : c.type? r = some t) {value : Array Float32} (hfire : k.fire x = x.put k.outputs value)
    {a : Action} {reg : Register} (haction : k.action.Becomes (x.intakes i) around.now a)
    (hholds : reg.pair.Holds t value) :
    (s.leave i ⟨a, [reg], around⟩).Represents c order phase (k.fire x) around := by
  rw [hfire]
  refine h.leave_single hc hk hr ht haction ?_ (fun q hq => if_neg hq) (fun _ _ => rfl)
    (Nat.le_refl _) h.logs
  simpa [Snapshot.put, hr] using hholds

theorem compute_device (h : s.Represents c order phase x around) (hc : c.Operable order)
    (hk : c.kernels[i]? = some k) {d : DeviceKernel} (haction : k.action = .device d)
    (hcurrent : ∀ r ∈ k.inputs, Current s .accelerator r) : ∃ s',
      (Scheduler.call i fun inputs c => c.compute inputs).run.run (s, around) =
        (.ok (), s', around) ∧ s'.Represents c order phase (k.fire x) around := by
  obtain ⟨a, r, inputs, reg, henter, hbecomes, hin, hr, ht, hholds⟩ :=
    h.enter_single hc.wellFormed hk (t := d.operation.output) (by rw [haction]; rfl)
  obtain ⟨types, htypes, hsuits⟩ := (hc.wellFormed.fits i k hk).inputs
  rw [haction] at hbecomes hsuits
  cases hbecomes with
  | @device _ d' hoperation hmeasure =>
      have hsound : d'.operation.Sound types := hoperation ▸ hc.sound_operation htypes hsuits.1
      obtain ⟨mids, reg', hcompute, hmids, hvalue⟩ := Call.computeDevice_eq_ok
        around hsound (hoperation ▸ hsuits.1.output) (hoperation ▸ hmeasure)
        (h.operands htypes hin fun r hr reg t hreg hholds =>
          hholds.master (hcurrent r hr reg hreg))
        (h.size_inputs htypes) (hoperation ▸ hholds.fits)
      rw [hoperation] at hmids hvalue
      have hfire : k.fire x = x.put k.outputs (d.operation.evaluate (k.inputs.map x.values)) := by
        rw [Circuit.Kernel.fire, haction]
      refine ⟨_, call_run (fun inputs c => c.compute inputs) henter hcompute, ?_⟩
      refine h.leave_put hc.wellFormed hk hr ht hfire ?_ hvalue
      rw [haction]
      exact .device hoperation hmids

theorem compute_host (h : s.Represents c order phase x around) (hc : c.Operable order)
    (hk : c.kernels[i]? = some k) {t : FieldType} {f : HostFunction}
    (haction : k.action = .host t f) (hfills : k.Fills x)
    (hcurrent : ∀ r ∈ k.inputs, Current s .host r) : ∃ s',
      (Scheduler.call i fun inputs c => c.compute inputs).run.run (s, around) =
        (.ok (), s', around) ∧ s'.Represents c order phase (k.fire x) around := by
  obtain ⟨a, r, inputs, reg, henter, hbecomes, hin, hr, ht, hholds⟩ :=
    h.enter_single hc.wellFormed hk (t := t) (by rw [haction]; rfl)
  obtain ⟨types, htypes, -⟩ := (hc.wellFormed.fits i k hk).inputs
  rw [Circuit.Kernel.Fills, haction] at hfills
  rw [haction] at hbecomes
  cases hbecomes with
  | host =>
      obtain ⟨reg', hcompute, hvalue⟩ := Call.computeHost_eq_ok around (.host t f)
        (h.operands htypes hin fun r hr reg t hreg hholds =>
          Register.hostValues_eq_ok hholds (hcurrent r hr reg hreg))
        hholds.fits hfills
      have hfire : k.fire x = x.put k.outputs (t.stored (f (k.inputs.map x.values))) := by
        rw [Circuit.Kernel.fire, haction]
      refine ⟨_, call_run (fun inputs c => c.compute inputs) henter hcompute, ?_⟩
      refine h.leave_put hc.wellFormed hk hr ht hfire ?_ hvalue
      rw [haction]
      exact .host t f

theorem consume_logs (around : Surroundings) (frame : Array Float32) (a : Actuator) :
    (around.consume frame a).logs = a.taken frame around.logs ∧
      (around.consume frame a).now = around.now := by
  cases a <;> exact ⟨rfl, rfl⟩

theorem enter_actuator (h : s.Represents c order phase x around) (hc : c.WellFormed)
    (hk : c.kernels[i]? = some k) {a : Actuator} (haction : k.action = .actuator a)
    (hcurrent : ∀ r ∈ k.inputs, Current s .host r) : ∃ r reg, k.inputs = [r] ∧ k.outputs = [] ∧
      s.enter around i = .ok ([reg], ⟨.actuator a, [], around⟩) ∧
      reg.hostValues = .ok (x.values r) := by
  obtain ⟨b, inputs, outputs, henter, hbecomes, hin, hout⟩ := h.enter hc hk
  have hfits := hc.fits i k hk
  obtain ⟨types, htypes, hsuits⟩ := hfits.inputs
  have houtputs := hfits.outputs
  rw [haction] at hbecomes hsuits houtputs
  have hnone : k.outputs = [] := List.map_eq_nil_iff.1 houtputs
  have hlength : k.inputs.length = types.length := by
    simpa using congrArg List.length htypes
  obtain ⟨r, hr⟩ := List.length_eq_one_iff.1 (hlength.trans hsuits)
  have hoperands : List.Forall₂ (fun reg v => reg.hostValues = .ok v) inputs
      (k.inputs.map x.values) := h.operands htypes hin fun r hr reg t hreg hholds =>
    Register.hostValues_eq_ok hholds (hcurrent r hr reg hreg)
  rw [hr] at hoperands
  rw [hnone] at hout
  cases hout with
  | nil => cases hoperands with
    | @cons reg _ _ _ hvalue hnil => cases hnil with
      | nil => cases hbecomes with
        | actuator => exact ⟨r, reg, hr, hnone, henter, hvalue⟩

theorem compute_actuator (h : s.Represents c order phase x around) (hc : c.Operable order)
    (hk : c.kernels[i]? = some k) {a : Actuator} (haction : k.action = .actuator a)
    (hcurrent : ∀ r ∈ k.inputs, Current s .host r) : ∃ s' around',
      (Scheduler.call i fun inputs c => c.compute inputs).run.run (s, around) =
        (.ok (), s', around') ∧ s'.Represents c order phase (k.fire x) around' ∧
        around'.now = around.now := by
  obtain ⟨r, reg, hr, hnone, henter, hvalue⟩ :=
    h.enter_actuator hc.wellFormed hk haction hcurrent
  have hcompute := Call.computeActuator_eq_ok ⟨.actuator a, [], around⟩ a hvalue
  have hrun := call_run (fun inputs c => c.compute inputs) henter hcompute
  have hfire : k.fire x = { x with logs := a.taken (x.values r) x.logs } := by
    rw [Circuit.Kernel.fire, haction, hr]
    rfl
  obtain ⟨hlogs, hnow⟩ := consume_logs around (x.values r) a
  refine ⟨_, _, hrun, ?_, hnow⟩
  refine h.leave _ hc.wellFormed hk ?_ ?_ ?_ ?_ (Nat.le_of_eq hnow.symm) ?_
  · rw [haction]
    exact .actuator a
  · rw [hnone]
    exact .nil
  · exact Circuit.Kernel.local_fire.values k x
  · rw [hfire]
    exact fun j _ => rfl
  · rw [hfire]
    exact hlogs.trans (by rw [h.logs])

/-- What a kernel has to have done: the scheduler represents the machine after firing it, and no more
than a period has passed. -/
def Fired (c : Circuit Action) (order : List KernelId) (phase : Phase) (k : Circuit.Kernel Action)
    (x : Snapshot) (now : Nat) (s : Scheduler) (around : Surroundings) : Prop :=
  s.Represents c order phase (k.fire x) around ∧ now ≤ around.now ∧ around.now ≤ now + k.period

/-- A kernel fails only near the end of time, and leaves the scheduler in order. -/
def Halted (c : Circuit Action) (order : List KernelId) (phase : Phase) (limit : Nat)
    (s : Scheduler) (around : Surroundings) : Prop :=
  (∃ x, s.Represents c order phase x around) ∧ endOfTime ≤ limit

theorem leave_sensor (h : s.Represents c order phase x around) (hc : c.WellFormed)
    (hk : c.kernels[k.id]? = some k) {sensor : SensorKernel} (haction : k.action = .sensor sensor)
    {r : RegisterId} (hr : k.outputs = [r]) (ht : c.type? r = some sensor.fieldType)
    {p : Pacing} (hperiod : p.period = sensor.pacing.period) {around' : Surroundings}
    (hnear : p.Near around'.now)
    (hstaged : sensor.Regular →
      ∀ frame ∈ (x.intakes k.id).staged, frame.size = sensor.fieldType.words)
    {reg : Register} (hholds : reg.pair.Holds sensor.fieldType
      ((sensor.due (x.intakes k.id)).elim (x.values r) sensor.fieldType.stored))
    (hnow : around.now ≤ around'.now) (hlogs : around'.logs = around.logs) :
    (s.leave k.id ⟨.sensor { sensor.atIntake (sensor.next (x.intakes k.id)) with pacing := p },
      [reg], around'⟩).Represents c order phase (k.fire x) around' := by
  have hbecomes : k.action.Becomes ((k.fire x).intakes k.id) around'.now
      (.sensor { sensor.atIntake (sensor.next (x.intakes k.id)) with pacing := p }) := by
    rw [Circuit.Kernel.intakes_fire_sensor haction, haction]
    exact .sensor hperiod hnear fun hregular => hregular.size_next (hstaged hregular)
  rw [← Circuit.Kernel.values_fire_sensor haction (hr ▸ List.mem_singleton_self r)] at hholds
  exact h.leave_single hc hk hr ht hbecomes hholds (Circuit.Kernel.local_fire.values k x)
    (Circuit.Kernel.local_fire.intakes k x) hnow
    (hlogs.trans (h.logs.trans (Circuit.Kernel.logs_fire_sensor haction).symm))

theorem compute_sensor (h : s.Represents c order phase x around) (hc : c.Operable order)
    (hk : c.kernels[i]? = some k) {sensor : SensorKernel} (haction : k.action = .sensor sensor)
    (hfills : k.Fills x) :
    Attempts (Scheduler.call i fun inputs c => c.compute inputs) s around
      (Fired c order phase k x around.now)
      (Halted c order phase (around.now + 2 * k.period)) := by
  obtain rfl := hc.wellFormed.id i k hk
  obtain ⟨a, r, inputs, reg, henter, hbecomes, -, hr, ht, hholds⟩ :=
    h.enter_single hc.wellFormed hk (t := sensor.fieldType) (by rw [haction]; rfl)
  have hk_period : k.period = sensor.pacing.period.getD 0 := by
    rw [Circuit.Kernel.period, haction]
  rw [Circuit.Kernel.Fills, haction] at hfills
  rw [haction] at hbecomes
  cases hbecomes with
  | @sensor _ p hperiod hnear hstaged =>
      rw [hk_period, ← hperiod]
      rcases Call.computeSensor_spec around hfills hnear hholds with
        ⟨hcompute, hend⟩ | ⟨p', reg', hp', hreg', ⟨hcompute, hnear', hend⟩ |
          ⟨slept, hcompute, hnear', hslept⟩⟩
      · have hrun := call_run (fun inputs c => c.compute inputs) henter hcompute
        refine ⟨_, _, .inr ⟨hrun, ⟨x, ?_⟩, by omega⟩⟩
        refine h.leave_single hc.wellFormed hk hr ht ?_ hholds (fun _ _ => rfl) (fun _ _ => rfl)
          (Nat.le_refl _) h.logs
        rw [haction]
        exact .sensor hperiod hnear hstaged
      · have hrun := call_run (fun inputs c => c.compute inputs) henter hcompute
        exact ⟨_, _, .inr ⟨hrun, ⟨k.fire x, h.leave_sensor hc.wellFormed hk haction hr ht
          (hp'.trans hperiod) hnear' hstaged hreg' (Nat.le_refl _) rfl⟩, hend⟩⟩
      · have hrun := call_run (fun inputs c => c.compute inputs) henter hcompute
        refine ⟨_, _, .inl ⟨hrun, h.leave_sensor hc.wellFormed hk haction hr ht
          (hp'.trans hperiod) hnear' hstaged hreg' (Nat.le_add_right ..) rfl,
          Nat.le_add_right .., ?_⟩⟩
        rw [hk_period, ← hperiod]
        exact Nat.add_le_add_left hslept _

/-- A kernel has been stopped by what it yields, or at the end of time, and no value has changed. -/
structure Stopped (c : Circuit Action) (order : List KernelId) (phase : Phase) (x : Snapshot)
    (e : CircuitError) (s : Scheduler) (around : Surroundings) : Prop where
  represents : ∃ x', s.Represents c order phase x' around ∧ x'.values = x.values
  error : e = .fault .timeOverflow ∨ e.IsMiscount

/-- A frame that does not fill the field stops the sensor, which has perhaps moved on. -/
theorem compute_sensor_unfilled (h : s.Represents c order phase x around) (hc : c.WellFormed)
    (hk : c.kernels[i]? = some k) {sensor : SensorKernel} (haction : k.action = .sensor sensor)
    (hfills : ¬ k.Fills x) : ∃ e s', (Scheduler.call i fun inputs c => c.compute inputs).run.run
      (s, around) = (.error e, s', around) ∧ Stopped c order phase x e s' around := by
  obtain ⟨a, r, inputs, reg, henter, hbecomes, -, hr, ht, hholds⟩ :=
    h.enter_single hc hk (t := sensor.fieldType) (by rw [haction]; rfl)
  rw [Circuit.Kernel.Fills, haction, hc.id i k hk] at hfills
  rw [haction] at hbecomes
  cases hbecomes with
  | @sensor _ p hperiod hnear hstaged =>
      obtain ⟨e, i', p', hcompute, he, hp', hnear', hi'⟩ :=
        Call.computeSensor_unfilled around hfills hnear hholds.fits
      refine ⟨e, _, call_run (fun inputs c => c.compute inputs) henter hcompute,
        ⟨x.moved i i', ?_, rfl⟩, he⟩
      refine h.leave_single hc hk hr ht ?_ hholds (fun _ _ => rfl)
        (fun j hj => Function.update_of_ne hj ..) (Nat.le_refl _) h.logs
      have hmoved : (x.moved i i').intakes i = i' := Function.update_self ..
      rw [haction, hmoved]
      refine .sensor (hp'.trans hperiod) hnear' fun hregular => ?_
      rcases hi' with rfl | rfl
      · exact hstaged hregular
      · exact hregular.size_next (hstaged hregular)

/-- A result that does not fill the field stops a host function, and nothing changes. -/
theorem compute_host_unfilled (h : s.Represents c order phase x around) (hc : c.WellFormed)
    (hk : c.kernels[i]? = some k) {t : FieldType} {f : HostFunction}
    (haction : k.action = .host t f) (hfills : ¬ k.Fills x)
    (hcurrent : ∀ r ∈ k.inputs, Current s .host r) : ∃ name s',
      (Scheduler.call i fun inputs c => c.compute inputs).run.run (s, around) =
        (.error (.valueCount name t.words (f (k.inputs.map x.values)).size), s', around) ∧
          s'.Represents c order phase x around := by
  obtain ⟨a, r, inputs, reg, henter, hbecomes, hin, hr, ht, hholds⟩ :=
    h.enter_single hc hk (t := t) (by rw [haction]; rfl)
  obtain ⟨types, htypes, -⟩ := (hc.fits i k hk).inputs
  rw [Circuit.Kernel.Fills, haction] at hfills
  rw [haction] at hbecomes
  cases hbecomes with
  | host =>
      have hcompute := Call.computeHost_eq_error around (.host t f)
        (h.operands htypes hin fun r hr reg t hreg hholds =>
          Register.hostValues_eq_ok hholds (hcurrent r hr reg hreg))
        hholds.fits hfills
      refine ⟨_, _, call_run (fun inputs c => c.compute inputs) henter hcompute, ?_⟩
      refine h.leave_single hc hk hr ht ?_ hholds (fun _ _ => rfl) (fun _ _ => rfl)
        (Nat.le_refl _) h.logs
      rw [haction]
      exact .host t f

/-- Regular sensors and host functions always fill their fields. -/
theorem fills (h : s.Represents c order phase x around) (hc : c.Runnable order)
    (hk : c.kernels[i]? = some k) : k.Fills x := by
  obtain ⟨types, htypes, -⟩ := (hc.wellFormed.fits i k hk).inputs
  have hregular := hc.regular k (Array.mem_of_getElem? hk) types htypes
  obtain ⟨a, -, hbecomes⟩ := h.kernels i k hk
  rw [Circuit.Kernel.Fills, hc.wellFormed.id i k hk]
  cases haction : k.action with
  | sensor sensor =>
      rw [haction] at hregular hbecomes
      cases hbecomes with
      | sensor period near staged => exact hregular.size_due (staged hregular)
  | host t f =>
      rw [haction] at hregular
      exact hregular _ (h.size_inputs htypes)
  | device | constant | actuator | recurrence => trivial

/-- A call that does nothing leaves everything as it is. -/
theorem call_idle (h : s.Represents c order phase x around) (hc : c.WellFormed)
    (hk : c.kernels[i]? = some k) {f : List Register → Call → Except CircuitError Unit × Call}
    (hidle : ∀ inputs a outputs, k.action.Becomes (x.intakes i) around.now a →
      f inputs ⟨a, outputs, around⟩ = (.ok (), ⟨a, outputs, around⟩)) : ∃ s',
      (Scheduler.call i f).run.run (s, around) = (.ok (), s', around) ∧
        s'.Represents c order phase x around := by
  obtain ⟨a, inputs, outputs, henter, hbecomes, -, hout⟩ := h.enter hc hk
  refine ⟨_, call_run f henter (hidle inputs a outputs hbecomes), ?_⟩
  refine h.leave ⟨a, outputs, around⟩ hc hk hbecomes ?_ (fun _ _ => rfl) (fun _ _ => rfl)
    (Nat.le_refl _) h.logs
  refine hout.imp fun r reg hreg t ht => ?_
  obtain ⟨reg', hreg', hholds⟩ := h.registers r t ht
  rwa [Option.some.inj (hreg.symm.trans hreg')]

end Scheduler.Represents

end FieldCircuit
