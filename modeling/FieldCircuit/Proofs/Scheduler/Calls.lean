import FieldCircuit.Proofs.Scheduler.State

/-!
# Calls of kernels

What a call of each kind of action does to the value of the register that the kernel drives. The inputs
hold their values on the side where the action reads them, and the register only has to have the buffers
of its field: whatever it held before is replaced. The one thing that can fail is the schedule of a
sensor, when a deadline lies beyond the end of time.
-/

namespace FieldCircuit

def CircuitError.IsMiscount : CircuitError → Prop
  | valueCount _ expected actual => actual ≠ expected
  | _ => False

namespace Register

variable {reg : Register} {t : FieldType} {values : Array Float32}

theorem write_eq_ok (h : reg.pair.Fits t) (hvalues : values.size = t.words) :
    ∃ reg', reg.write values = .ok reg' ∧ reg'.pair.Holds t (t.stored values) := by
  obtain ⟨p, hp, hholds⟩ := Pair.Holds.writeHost h hvalues
  have hlength : values.size = reg.pair.length := hvalues.trans h.masterLength.symm
  refine ⟨{ reg with pair := p }, ?_, hholds⟩
  simp only [write, hlength, ne_eq, not_true_eq_false, if_false, hp]
  rfl

theorem write_eq_error (h : reg.pair.Fits t) (hvalues : values.size ≠ t.words) :
    reg.write values = .error (.valueCount reg.name t.words values.size) := by
  have hlength : reg.pair.length = t.words := h.masterLength
  simp only [write, hlength, ne_eq, hvalues, not_false_eq_true, if_true]
  rfl

theorem hostValues_eq_ok (h : reg.pair.Holds t values)
    (hcurrent : reg.pair.validity.holds .host = true) : reg.hostValues = .ok values := by
  rw [hostValues, h.raw hcurrent]
  rfl

end Register

namespace Call

variable (around : Surroundings) {reg : Register} {t : FieldType}

theorem update_write_eq_ok (a : Action) (h : reg.pair.Fits t) {values : Array Float32}
    (hvalues : values.size = t.words) : ∃ reg',
      update ⟨a, [reg], around⟩ (·.write values) = (.ok (), ⟨a, [reg'], around⟩) ∧
        reg'.pair.Holds t (t.stored values) := by
  obtain ⟨reg', hwrite, hholds⟩ := Register.write_eq_ok h hvalues
  exact ⟨reg', by simp only [update, hwrite], hholds⟩

theorem writeZeros_eq_ok (a : Action) (h : reg.pair.Fits t) (hwords : t.words? = .ok t.words) :
    ∃ reg', writeZeros ⟨a, [reg], around⟩ t = (.ok (), ⟨a, [reg'], around⟩) ∧
      reg'.pair.Holds t (Array.replicate t.words 0.0) := by
  obtain ⟨reg', hupdate, hholds⟩ := update_write_eq_ok around a h
    (Array.size_replicate (n := t.words) (v := (0.0 : Float32)))
  refine ⟨reg', by simp only [writeZeros, hwords, hupdate], ?_⟩
  rwa [FieldType.stored, Encoding.quantized_zeros] at hholds

theorem computeDevice_eq_ok {d : DeviceKernel} {types : List FieldType}
    (hsound : d.operation.Sound types) (hreal : d.operation.output.element ≠ .pixel)
    (hmeasure : Buffer.Measure d.intermediates d.operation.intermediates)
    {inputs : List Register} {values : List (Array Float32)}
    (hinputs : List.Forall₂ (fun r v => r.pair.master.Carries v) inputs values)
    (hsizes : values.map Array.size = types.map FieldType.words)
    (h : reg.pair.Fits d.operation.output) : ∃ mids reg',
      computeDevice ⟨.device d, [reg], around⟩ d inputs =
        (.ok (), ⟨.device { d with intermediates := mids }, [reg'], around⟩) ∧
      Buffer.Measure mids d.operation.intermediates ∧
      reg'.pair.Holds d.operation.output (d.operation.evaluate values) := by
  obtain ⟨words, hmids, hlengths⟩ := hmeasure.exists_words
  obtain ⟨old, hold⟩ := h.master
  have haccepts : d.operation.Accepts types values old words :=
    ⟨hsizes, hold.size.trans h.masterLength, hlengths⟩
  have hins : List.Forall₂ Buffer.Carries (inputs.map (·.pair.master)) values :=
    List.forall₂_map_left_iff.2 hinputs
  obtain ⟨buffers, out, mids, hexecute, hdrop, hout, hcarries, hrefilled⟩ :=
    hsound.executeOn_eq haccepts hins hold hmids
  rw [List.length_map] at hexecute hdrop
  refine ⟨mids, { reg with pair := { reg.pair.claimed .accelerator with master := out } }, ?_,
    hmeasure.refilled hrefilled, ?_⟩
  · simp only [computeDevice, List.map_cons, List.map_nil, List.length_singleton]
    rw [show (reg.pair.claimed .accelerator).master = reg.pair.master from rfl, hexecute]
    simp only [hdrop]
    rfl
  · exact Pair.Holds.claimed h hout.1 hcarries (FieldType.stored_of_ne_pixel hreal _)

/-- A result that does not fill the field is refused, and nothing changes. -/
theorem computeHost_eq_error (a : Action) {f : HostFunction} {inputs : List Register}
    {values : List (Array Float32)}
    (hinputs : List.Forall₂ (fun r v => r.hostValues = .ok v) inputs values)
    (h : reg.pair.Fits t) (hsize : (f values).size ≠ t.words) :
    computeHost ⟨a, [reg], around⟩ f inputs =
      (.error (.valueCount reg.name t.words (f values).size), ⟨a, [reg], around⟩) := by
  simp only [computeHost, mapM_eq_ok_iff.2 hinputs, update, Register.write_eq_error h hsize]

theorem computeHost_eq_ok (a : Action) {f : HostFunction} {inputs : List Register}
    {values : List (Array Float32)}
    (hinputs : List.Forall₂ (fun r v => r.hostValues = .ok v) inputs values)
    (h : reg.pair.Fits t) (hsize : (f values).size = t.words) : ∃ reg',
      computeHost ⟨a, [reg], around⟩ f inputs = (.ok (), ⟨a, [reg'], around⟩) ∧
        reg'.pair.Holds t (t.stored (f values)) := by
  obtain ⟨reg', hupdate, hholds⟩ := update_write_eq_ok around a h hsize
  exact ⟨reg', by simp only [computeHost, mapM_eq_ok_iff.2 hinputs, hupdate], hholds⟩

theorem computeActuator_eq_ok (c : Call) (a : Actuator) {value : Array Float32}
    (h : reg.hostValues = .ok value) : computeActuator c a [reg] =
      (.ok (), { c with surroundings := c.surroundings.consume value a }) := by
  simp only [computeActuator, h]

end Call

namespace SensorKernel

variable {s : SensorKernel} {i : Intake}

theorem fetch_eq (s : SensorKernel) (i : Intake) (p : Pacing) :
    fetch { s.atIntake i with pacing := p } =
      (s.due i, { s.atIntake (s.next i) with pacing := p }) := by
  cases hp : s.sensor.pipelined <;> simp [due, next, fetch, atIntake, intake, Sensor.next, hp]

theorem Regular.size_due (h : s.Regular)
    (hstaged : ∀ frame ∈ i.staged, frame.size = s.fieldType.words) :
    ∀ frame ∈ s.due i, frame.size = s.fieldType.words := by
  intro frame hframe
  cases hp : s.sensor.pipelined with
  | true => exact hstaged frame (by simpa [due, fetch, atIntake, Sensor.next, hp] using hframe)
  | false => exact h i.position frame (by simpa [due, fetch, atIntake, Sensor.next, hp] using hframe)

theorem Regular.size_next (h : s.Regular)
    (hstaged : ∀ frame ∈ i.staged, frame.size = s.fieldType.words) :
    ∀ frame ∈ (s.next i).staged, frame.size = s.fieldType.words := by
  intro frame hframe
  cases hp : s.sensor.pipelined with
  | true =>
      exact h i.position frame (by simpa [next, fetch, atIntake, intake, Sensor.next, hp] using hframe)
  | false => exact hstaged frame (by simpa [next, fetch, atIntake, intake, Sensor.next, hp] using hframe)

end SensorKernel

namespace Call

variable (around : Surroundings) {reg : Register} {t : FieldType}

theorem publish_eq_ok {value : Array Float32} (h : reg.pair.Holds t value)
    {frame : Option (Array Float32)} (hframe : ∀ values ∈ frame, values.size = t.words) :
    ∃ reg', publish frame reg = .ok reg' ∧ reg'.pair.Holds t (frame.elim value t.stored) := by
  cases frame with
  | none => exact ⟨{ reg with skipped := true }, rfl, h⟩
  | some values =>
      obtain ⟨reg', hwrite, hholds⟩ := Register.write_eq_ok h.fits (hframe values rfl)
      refine ⟨{ reg' with skipped := false }, ?_, hholds⟩
      rw [publish, hwrite]
      rfl

theorem publish_eq_error (h : reg.pair.Fits t) {frame : Option (Array Float32)}
    (hframe : ¬ ∀ values ∈ frame, values.size = t.words) :
    ∃ e : CircuitError, publish frame reg = .error e ∧ e.IsMiscount := by
  cases frame with
  | none => exact absurd (fun values hvalues => by cases hvalues) hframe
  | some values =>
      have hsize : values.size ≠ t.words := fun heq => hframe fun _ hvalues =>
        Option.some.inj hvalues ▸ heq
      refine ⟨.valueCount reg.name t.words values.size, ?_, hsize⟩
      rw [publish, Register.write_eq_error h hsize]
      rfl

/-- A sensor opens a window, publishes the frame that is due, and sleeps until the window ends. It has
moved on once the window is open, whatever comes then. -/
theorem computeSensor_eq (s : SensorKernel) (i : Intake) (p : Pacing) (reg : Register) :
    computeSensor ⟨.sensor { s.atIntake i with pacing := p }, [reg], around⟩
        { s.atIntake i with pacing := p } =
      match p.start around.now with
      | .error f =>
        (.error (.fault f), ⟨.sensor { s.atIntake i with pacing := p }, [reg], around⟩)
      | .ok opened =>
        match publish (s.due i) reg with
        | .error e =>
          (.error e, ⟨.sensor { s.atIntake (s.next i) with pacing := opened }, [reg], around⟩)
        | .ok reg' =>
          match opened.finish around.now with
          | .error f => (.error (.fault f),
              ⟨.sensor { s.atIntake (s.next i) with pacing := opened }, [reg'], around⟩)
          | .ok (slept, p') => (.ok (),
              ⟨.sensor { s.atIntake (s.next i) with pacing := p' }, [reg'], around.sleep slept⟩) := by
  cases hstart : p.start around.now with
  | error f => simp only [computeSensor, hstart]
  | ok opened =>
      cases hpublish : publish (s.due i) reg with
      | error e => simp only [computeSensor, hstart, SensorKernel.fetch_eq, update, hpublish]
      | ok reg' =>
          cases hfinish : opened.finish around.now with
          | error f =>
              simp only [computeSensor, hstart, SensorKernel.fetch_eq, update, hpublish, hfinish]
          | ok finished =>
              simp only [computeSensor, hstart, SensorKernel.fetch_eq, update, hpublish, hfinish]

/-- A sensor publishes the frame that is due, if it fills the field, and moves on, and sleeps for at most
a period. If it fails, it has either done nothing or has only not slept. -/
theorem computeSensor_spec {s : SensorKernel} {i : Intake}
    (hdue : ∀ frame ∈ s.due i, frame.size = s.fieldType.words) {p : Pacing}
    (hnear : p.Near around.now) {value : Array Float32}
    (h : reg.pair.Holds s.fieldType value) :
    computeSensor ⟨.sensor { s.atIntake i with pacing := p }, [reg], around⟩
        { s.atIntake i with pacing := p } = (.error (.fault .timeOverflow),
          ⟨.sensor { s.atIntake i with pacing := p }, [reg], around⟩) ∧
        endOfTime ≤ around.now + p.period.getD 0 ∨
      ∃ p' reg', p'.period = p.period ∧
        reg'.pair.Holds s.fieldType ((s.due i).elim value s.fieldType.stored) ∧
        (computeSensor ⟨.sensor { s.atIntake i with pacing := p }, [reg], around⟩
            { s.atIntake i with pacing := p } = (.error (.fault .timeOverflow),
              ⟨.sensor { s.atIntake (s.next i) with pacing := p' }, [reg'], around⟩) ∧
            p'.Near around.now ∧ endOfTime ≤ around.now + 2 * p.period.getD 0 ∨
          ∃ slept, computeSensor ⟨.sensor { s.atIntake i with pacing := p }, [reg], around⟩
            { s.atIntake i with pacing := p } = (.ok (),
              ⟨.sensor { s.atIntake (s.next i) with pacing := p' }, [reg'], around.sleep slept⟩) ∧
            p'.Near (around.now + slept) ∧ slept ≤ p.period.getD 0) := by
  rw [computeSensor_eq]
  rcases Pacing.start_spec hnear with ⟨p₁, hstart, hperiod, hnear₁⟩ | ⟨hstart, hend⟩
  · obtain ⟨reg', hpublish, hholds⟩ := publish_eq_ok h hdue
    refine .inr ?_
    rcases Pacing.finish_spec hnear₁ with ⟨slept, p', hfinish, hslept, hperiod', hnear'⟩ |
      ⟨hfinish, hend⟩
    · refine ⟨p', reg', hperiod'.trans hperiod, hholds, .inr ⟨slept, ?_, hnear', hperiod ▸ hslept⟩⟩
      simp only [hstart, hpublish, hfinish]
    · refine ⟨p₁, reg', hperiod, hholds, .inl ⟨?_, hnear₁, hperiod ▸ hend⟩⟩
      simp only [hstart, hpublish, hfinish]
  · exact .inl ⟨by simp only [hstart], hend⟩

/-- A frame that does not fill the field is refused, if the window could be opened after it has been
fetched. -/
theorem computeSensor_unfilled {s : SensorKernel} {i : Intake}
    (hdue : ¬ ∀ frame ∈ s.due i, frame.size = s.fieldType.words) {p : Pacing}
    (hnear : p.Near around.now) (h : reg.pair.Fits s.fieldType) :
    ∃ e i' p', computeSensor ⟨.sensor { s.atIntake i with pacing := p }, [reg], around⟩
        { s.atIntake i with pacing := p } =
          (.error e, ⟨.sensor { s.atIntake i' with pacing := p' }, [reg], around⟩) ∧
      (e = .fault .timeOverflow ∨ e.IsMiscount) ∧
      p'.period = p.period ∧ p'.Near around.now ∧ (i' = i ∨ i' = s.next i) := by
  rw [computeSensor_eq]
  obtain ⟨e, hpublish, hcount⟩ := publish_eq_error h hdue
  rcases Pacing.start_spec hnear with ⟨p', hstart, hperiod, hnear'⟩ | ⟨hstart, -⟩
  · exact ⟨e, s.next i, p', by simp only [hstart, hpublish], .inr hcount, hperiod, hnear', .inr rfl⟩
  · exact ⟨.fault .timeOverflow, i, p, by simp only [hstart], .inl rfl, rfl, hnear, .inl rfl⟩

end Call

end FieldCircuit
