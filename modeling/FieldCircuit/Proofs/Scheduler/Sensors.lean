import FieldCircuit.Proofs.Scheduler.Reachable
import FieldCircuit.Proofs.Scheduler.Replay

/-!
# The last frame of a sensor

After a reset and some steps the register of a sensor holds the last frame that has been published, and
remembers the cycle of it. Within a cycle the register is marked as skipped once its sensor has had
nothing to publish, so that the clock leaves the mark alone; between cycles it is never skipped. Who
reads the register in a cycle without a frame finds the frame from before.
-/

namespace FieldCircuit

namespace SensorKernel

variable (k : SensorKernel) (n : Nat)

def delay : Nat := if k.sensor.pipelined then 1 else 0

def lastFrame : Option (Nat × Array Float32) :=
  ((List.range n).filterMap fun m => (k.frame m).map (m, ·)).getLast?

/-- What the register of a sensor holds a number of cycles after a reset. -/
def held : Array Float32 :=
  (k.lastFrame (n - k.delay)).elim (Array.replicate k.fieldType.words 0.0) fun (_, frame) =>
    k.fieldType.stored frame

def updated : Option Nat := (k.lastFrame (n - k.delay)).map fun (m, _) => m + k.delay

theorem lastFrame_succ : k.lastFrame (n + 1) =
    (k.frame n).elim (k.lastFrame n) fun frame => some (n, frame) := by
  unfold lastFrame
  rw [List.range_succ, List.filterMap_append]
  cases hframe : k.frame n <;> simp [hframe]

/-- The last frame to show after another cycle is the one that is published in it, if there is one. -/
theorem lastFrame_succ_sub_delay : k.lastFrame (n + 1 - k.delay) =
    (k.published n).elim (k.lastFrame (n - k.delay)) fun frame => some (n - k.delay, frame) := by
  unfold delay published
  cases k.sensor.pipelined with
  | false => exact k.lastFrame_succ n
  | true => cases n with
    | zero => rfl
    | succ n => exact k.lastFrame_succ n

theorem held_succ : k.held (n + 1) = (k.published n).elim (k.held n) k.fieldType.stored := by
  unfold held
  rw [lastFrame_succ_sub_delay]
  cases k.published n <;> rfl

theorem held_eq_shown : k.held n = k.shown n := by
  induction n with
  | zero =>
      unfold held
      rw [Nat.zero_sub]
      rfl
  | succ n ih =>
      rw [held_succ, ih, shown]
      cases k.published n <;> rfl

theorem updated_zero : k.updated 0 = none := by
  unfold updated
  rw [Nat.zero_sub]
  rfl

theorem updated_succ : k.updated (n + 1) = if (k.published n).isNone then k.updated n else some n := by
  unfold updated
  rw [lastFrame_succ_sub_delay]
  cases hpublished : k.published n with
  | none => rfl
  | some frame =>
      have hdelay : n - k.delay + k.delay = n := by
        unfold delay published at *
        cases hp : k.sensor.pipelined with
        | false => simp
        | true => cases n with
          | zero => simp [hp] at hpublished
          | succ n => simp
      exact congrArg some hdelay

end SensorKernel

namespace Circuit.Kernel

variable {k : Kernel Action} {x : Snapshot} {j l : Journal} {r : RegisterId}

theorem cycle_note (h : k.note x j = .ok l) : l.cycle = j.cycle := by
  unfold note at h
  cases haction : k.action with
  | sensor s =>
      rw [haction] at h
      obtain ⟨_, -, hl⟩ := bind_eq_ok_iff.1 h
      rw [← Except.ok.inj hl]
      rfl
  | device | constant | actuator | host | recurrence =>
      rw [haction] at h
      rw [Except.ok.inj h]

theorem marks_note (h : k.note x j = .ok l) (hr : r ∉ k.outputs) : l.marks r = j.marks r := by
  unfold note at h
  cases haction : k.action with
  | sensor s =>
      rw [haction] at h
      obtain ⟨_, -, hl⟩ := bind_eq_ok_iff.1 h
      rw [← Except.ok.inj hl]
      simp [Journal.published, hr]
  | device | constant | actuator | host | recurrence =>
      rw [haction] at h
      rw [Except.ok.inj h]

theorem marks_note_sensor {s : SensorKernel} (haction : k.action = .sensor s)
    (h : k.note x j = .ok l) (hr : r ∈ k.outputs) : l.marks r =
      (j.marks r).map fun m => { m with skipped := (s.due (x.intakes k.id)).isNone } := by
  unfold note at h
  rw [haction] at h
  obtain ⟨_, -, hl⟩ := bind_eq_ok_iff.1 h
  rw [← Except.ok.inj hl]
  simp [Journal.published, hr]

end Circuit.Kernel

namespace Scheduler

/-- A kernel that runs next finds these words in a register among its inputs, on the side where it reads
them. -/
def Finds (j : KernelId) (r : RegisterId) (words : Array Float32) (p : Scheduler × Surroundings) :
    Prop :=
  ∀ k side, p.1.circuit.kernels[j]? = some k → k.kind.inputSide = some side → r ∈ k.inputs →
    ∃ s inputs before, (syncKernel k).run.run p = (.ok (), s, p.2) ∧
      (runKernel j).run.run p = (call j fun inputs c => c.compute inputs).run.run (s, p.2) ∧
      s.enter p.2 j = .ok (inputs, before) ∧
      List.Forall₂ (fun q reg => q = r → reg.pair.raw side = .ok words) k.inputs inputs

/-- What is seen of the register of a sensor a number of cycles after a reset. -/
structure Presents (sensor : SensorKernel) (n : Nat) (r : RegisterId) (p : Scheduler × Surroundings) :
    Prop where
  read : ∃ s, p.1.read r = .ok (sensor.held n, s)
  register : ∃ reg, p.1.register r = .ok reg ∧ reg.lastUpdate = sensor.updated n ∧
    reg.skipped = false
  /-- In the next cycle the frame that is published then is found. -/
  consumed : ∀ done j later, p.1.order = done ++ j :: later → ∀ q,
    (done.forM runKernel).run.run (p.1.withPhase .stepping, p.2) = (.ok (), q) →
      Finds j r (sensor.held (n + 1)) q
  /-- In a cycle without a frame the value is the one from before. -/
  retained : sensor.published n = none → ∀ done j later, p.1.order = done ++ j :: later → ∀ q,
    (done.forM runKernel).run.run (p.1.withPhase .stepping, p.2) = (.ok (), q) →
      Finds j r (sensor.held n) q

variable {c : Circuit Action} {order : List KernelId} {phase : Phase} {x : Snapshot}

theorem Represents.finds {s : Scheduler} {around : Surroundings}
    (h : s.Represents c order phase x around) (hc : c.WellFormed) (j : KernelId) (r : RegisterId) :
    Finds j r (x.values r) (s, around) := by
  intro k' side hk' hside hr
  obtain ⟨k, hk, heq, -⟩ := h.exists_kernel hk'
  rw [heq] at hside hr ⊢
  obtain ⟨s', h', hsync, hcurrent, hrun⟩ := h.exists_synced hc hk
  obtain ⟨a, inputs, outputs, henter, -, hinputs, -⟩ := h'.enter hc hk
  refine ⟨s', inputs, _, hsync, hrun, henter, hinputs.imp fun q reg hreg hq => ?_⟩
  subst hq
  obtain ⟨types, htypes, -⟩ := (hc.fits j k hk).inputs
  obtain ⟨t, -, ht⟩ := Circuit.exists_type?_of_mem htypes hr
  obtain ⟨reg', hreg', hholds⟩ := h'.registers q t ht
  obtain rfl := Option.some.inj (hreg.symm.trans hreg')
  exact hholds.raw (hcurrent side ((hc.fits j k hk).kind ▸ hside) q hr reg hreg)

/-- In a cycle after a reset these kernels have fired. The register of a sensor has been updated by the
frames of the cycles before, and is skipped if its sensor has fired without a frame. -/
structure Sensing (c : Circuit Action) (order : List KernelId) (phase : Phase) (x : Snapshot)
    (i : KernelId) (r : RegisterId) (sensor : SensorKernel) (n : Nat) (done : List KernelId)
    (p : Scheduler × Surroundings) : Prop where
  represents : p.1.Represents c order phase (c.swept Circuit.Kernel.fire done
    (c.cycled order (c.swept Circuit.Kernel.restart order x) n)) p.2
  cycle : (journal p).cycle = n
  mark : (journal p).marks r =
    some ⟨sensor.updated n, decide (i ∈ done) && (sensor.published n).isNone⟩

namespace Sensing

variable {i : KernelId} {k : Circuit.Kernel Action} {r : RegisterId} {sensor : SensorKernel} {n : Nat}
  {done later : List KernelId} {p : Scheduler × Surroundings}

theorem of_blank (h : p.1.Represents c order phase (c.swept Circuit.Kernel.restart order x) p.2)
    (hblank : Blank (journal p)) (hr : r < c.registers.size) :
    Sensing c order phase x i r sensor 0 [] p := by
  refine ⟨h, hblank.cycle, ?_⟩
  obtain ⟨m, hm⟩ := h.exists_mark hr
  rw [hm, hblank.marks r m hm, sensor.updated_zero]
  rfl

theorem congr (h : Sensing c order phase x i r sensor n done p) {phase' : Phase}
    {q : Scheduler × Surroundings}
    (hq : q.1.Represents c order phase' (c.swept Circuit.Kernel.fire done
      (c.cycled order (c.swept Circuit.Kernel.restart order x) n)) q.2)
    (hcycle : (journal q).cycle = (journal p).cycle) (hmarks : (journal q).marks = (journal p).marks) :
    Sensing c order phase' x i r sensor n done q :=
  ⟨hq, hcycle.trans h.cycle, hmarks ▸ h.mark⟩

/-- At the end of a cycle the clock turns the mark into that of the next cycle. -/
theorem leads_latch (hc : c.Operable order) (hk : c.kernels[i]? = some k)
    (h : Sensing c order phase x i r sensor n order p) :
    Leads latch p (fun _ q => Sensing c order .idle x i r sensor (n + 1) []
      (q.1.ended (.ok ()), q.2)) fun _ _ => True := by
  obtain ⟨s, hlatch, h'⟩ := h.represents.latch hc
  have hjournal : journal (s, p.2) = journal p := journal_eq_of_keeps keeps_latch hlatch
  have hmem : i ∈ order := (hc.topological.complete i).2 (Array.getElem?_eq_some_iff.1 hk).1
  refine .of_ok hlatch ⟨(h'.withPhase .idle).clocked, ?_, ?_⟩
  · rw [ended, journal_clocked, journal_withPhase, hjournal, Journal.clocked, h.cycle]
  · rw [ended, journal_clocked, journal_withPhase, hjournal]
    change ((journal p).marks r).map (·.clock (journal p).cycle) = _
    rw [h.mark, h.cycle, Option.map_some, sensor.updated_succ]
    cases (sensor.published n).isNone <;> simp [Mark.clock, hmem]

variable (hc : c.Operable order) (hx : x.Tracks c) (hk : c.kernels[i]? = some k)
  (haction : k.action = .sensor sensor) (hr : r ∈ k.outputs)

include hc hx hk haction hr

theorem leads_runKernel {j : KernelId} (ho : order = done ++ j :: later)
    (h : Sensing c order phase x i r sensor n done p) : Leads (runKernel j) p
      (fun _ => Sensing c order phase x i r sensor n (done ++ [j])) fun _ _ => True := by
  refine ⟨fun _ q hrun => ?_, fun _ _ _ => trivial⟩
  have htopological : c.Topological (done ++ j :: later) := ho ▸ hc.topological
  obtain ⟨kj, hkj, -⟩ := htopological.sorted done j later rfl
  obtain ⟨-, hfired⟩ := (h.represents.leads_runKernel hc hkj).1 () q hrun
  have hnote := (h.represents.leads_noted hc hkj).1 () q hrun
  refine ⟨?_, (Circuit.Kernel.cycle_note hnote).trans h.cycle, ?_⟩
  · rw [Circuit.swept_append, Circuit.swept_cons hkj]
    exact hfired
  · by_cases hj : j = i
    · subst hj
      obtain rfl : kj = k := Option.some.inj (hkj.symm.trans hk)
      have hfresh : j ∉ done := htopological.notMem_earlier
      have hid : kj.id = j := hc.wellFormed.id j kj hkj
      have hintake := (Circuit.cycled_sensor hc.wellFormed hc.topological hkj hr haction
        (hx j kj hkj sensor haction) n).2
      rw [hid] at hintake
      rw [Circuit.Kernel.marks_note_sensor haction hnote hr, h.mark, hid,
        Circuit.intakes_swept_of_notMem Circuit.Kernel.local_fire hc.wellFormed hfresh, hintake,
        (sensor.due_intakeAfter n).1]
      simp
    · have hother : r ∉ kj.outputs := fun hmem => hj <| Option.some.inj <|
        (hc.wellFormed.drives j kj hkj r hmem).symm.trans (hc.wellFormed.drives i k hk r hr)
      rw [Circuit.Kernel.marks_note hnote hother, h.mark]
      simp [Ne.symm hj]

theorem leads_runKernels {middle : List KernelId} (ho : order = done ++ middle ++ later)
    (h : Sensing c order phase x i r sensor n done p) : Leads (middle.forM runKernel) p
      (fun _ => Sensing c order phase x i r sensor n (done ++ middle)) fun _ _ => True := by
  induction middle generalizing done p with
  | nil => exact .pure (by simpa using h)
  | cons j middle ih =>
      have hsplit : order = done ++ j :: (middle ++ later) := by simpa using ho
      have hrest : order = done ++ [j] ++ middle ++ later := by simpa using ho
      refine (h.leads_runKernel hc hx hk haction hr hsplit).bind fun _ q hq => ?_
      simpa using ih hrest hq

theorem leads_step (h : Sensing c order phase x i r sensor n [] p) (hphase : phase ≠ .unreset) :
    Leads step p (fun _ => Sensing c order .idle x i r sensor (n + 1) []) fun _ _ => True := by
  have hall : order = [] ++ order ++ [] := (List.append_nil order).symm
  have hstepping : Sensing c order .stepping x i r sensor n [] (p.1.withPhase .stepping, p.2) :=
    h.congr (h.represents.withPhase .stepping) rfl rfl
  refine leads_step_of (h.represents.phase ▸ hphase) ?_
  rw [h.represents.order]
  exact (hstepping.leads_runKernels hc hx hk haction hr hall).bind fun _ q hq =>
    hq.leads_latch hc hk

theorem leads_performAll {uses : List Use} (huses : Use.reset ∉ uses)
    (h : Sensing c order .idle x i r sensor n [] p) : Leads (uses.forM Use.perform) p
      (fun _ => Sensing c order .idle x i r sensor (n + uses.count .step) []) fun _ _ => True := by
  induction uses generalizing n p with
  | nil => exact .pure h
  | cons u uses ih =>
      have hfirst : Leads u.perform p
          (fun _ => Sensing c order .idle x i r sensor (n + if u = .step then 1 else 0) [])
          fun _ _ => True := by
        cases u with
        | reset => exact absurd (List.mem_cons_self ..) huses
        | step => exact h.leads_step hc hx hk haction hr (by decide)
        | read q =>
            obtain ⟨s, hrun, hs⟩ := h.represents.perform_read q
            have hjournal : journal (s, p.2) = journal p := journal_eq_of_keeps (keeps_read q) hrun
            exact .of_ok hrun (h.congr hs (congrArg _ hjournal) (congrArg _ hjournal))
        | wait duration => exact .update (h.congr (h.represents.sleep duration) rfl rfl)
      rw [Use.add_count_cons]
      exact hfirst.bind fun _ q hq => ih (fun hmem => huses (List.mem_cons_of_mem u hmem)) hq

/-- Between cycles the sensor presents the last frame. -/
theorem presents (h : Sensing c order phase x i r sensor n [] p) : Presents sensor n r p := by
  have hkind : k.kind ≠ .recurrence := by
    rw [(hc.wellFormed.fits i k hk).kind, haction]
    exact fun h => by cases h
  have hshown := fun n => (Circuit.cycled_sensor hc.wellFormed hc.topological hk hr haction
    (hx i k hk sensor haction) n).1
  have ht : c.type? r = some sensor.fieldType := by
    obtain ⟨q, hq, ht⟩ := (hc.wellFormed.fits i k hk).output (t := sensor.fieldType)
      (by rw [haction]; rfl)
    rw [hq] at hr
    exact List.mem_singleton.1 hr ▸ ht
  have hstepping : Sensing c order .stepping x i r sensor n [] (p.1.withPhase .stepping, p.2) :=
    h.congr (h.represents.withPhase .stepping) rfl rfl
  have hconsumed : ∀ done j later, p.1.order = done ++ j :: later → ∀ q,
      (done.forM runKernel).run.run (p.1.withPhase .stepping, p.2) = (.ok (), q) →
        Finds j r (sensor.held (n + 1)) q := by
    intro done j later ho q hrun k' side hk' hside hinput
    rw [h.represents.order] at ho
    have hsplit : order = [] ++ done ++ j :: later := ho
    have hdone := (hstepping.leads_runKernels hc hx hk haction hr hsplit).1 () q hrun
    obtain ⟨kj, hkj, heq, -⟩ := hdone.represents.exists_kernel hk'
    have hvalue := Circuit.values_swept_input Circuit.Kernel.local_fire hc.wellFormed
      (x := c.cycled order (c.swept Circuit.Kernel.restart order x) n) (ho ▸ hc.topological) hkj
      (show r ∈ kj.inputs by rw [heq] at hinput; exact hinput)
    have hnext := hshown (n + 1)
    rw [Circuit.cycled, Circuit.values_latched hc.wellFormed hk hr hkind,
      ← sensor.held_eq_shown] at hnext
    rw [← ho] at hvalue
    have hfinds := hdone.represents.finds hc.wellFormed j r
    rw [List.nil_append, hvalue.trans hnext] at hfinds
    exact hfinds k' side hk' hside hinput
  refine ⟨?_, ?_, hconsumed, fun hnone done j later ho q hrun => ?_⟩
  · obtain ⟨s, hread, -⟩ := h.represents.read ht
    exact ⟨s, by rw [hread, sensor.held_eq_shown, ← hshown n]; rfl⟩
  · obtain ⟨reg, hreg, hmark⟩ := exists_register h.mark
    exact ⟨reg, hreg, congrArg Mark.lastUpdate hmark, congrArg Mark.skipped hmark⟩
  · have hretained := sensor.held_succ n
    rw [hnone, Option.elim_none] at hretained
    exact hretained ▸ hconsumed done j later ho q hrun

end Sensing

/-- The circuit has been constructed by requests, and its scheduler has been used in whatever way. If a
reset and some steps succeed then, with any reads and waiting in between, every sensor presents the last
frame that it has had since the reset. -/
theorem presents_last_frame {env env' : Environment} (henv : env.Sound)
    (requests : List Circuit.Request) {built s : Scheduler} {start around : Surroundings}
    (hbuild : (build (Circuit.construct env requests).1).run.run
      (Circuit.construct env requests).2 = (.ok built, env'))
    {earlier later : List Use} (hearlier : after earlier (built, start) = (s, around))
    (hlater : Use.reset ∉ later) {p : Scheduler × Surroundings}
    (hrun : ((Use.reset :: later).forM Use.perform).run.run (s, around) = (.ok (), p))
    {i : KernelId} {k : Circuit.Kernel Action} (hk : s.circuit.kernels[i]? = some k)
    {sensor : SensorKernel} (haction : k.action = .sensor sensor) {r : RegisterId}
    (hr : r ∈ k.outputs) : Presents sensor (later.count .step) r p := by
  obtain ⟨phase, x, hused⟩ := inUse_after henv requests hbuild hearlier
  have hbound : s.circuit.Bound := by
    by_contra hunbound
    obtain ⟨e, hrefused⟩ := hused.represents.reset_unbound hunbound
    change (reset >>= fun _ => later.forM Use.perform).run.run _ = _ at hrun
    rw [run_bind, hrefused] at hrun
    cases hrun
  have hc := hused.operable hbound
  obtain ⟨s₁, around₁, hreset, h₁, -⟩ := hused.represents.reset hc
  have hblank := hused.represents.blank_reset hc hreset
  change (reset >>= fun _ => later.forM Use.perform).run.run _ = _ at hrun
  rw [run_bind, hreset] at hrun
  have hsensing : Sensing s.circuit s.order .idle x i r sensor 0 [] (s₁, around₁) :=
    .of_blank h₁ hblank (Circuit.lt_of_mem (hused.wellFormed.fits i k hk).outputs hr)
  have hend := (hsensing.leads_performAll hc hused.tracks hk haction hr hlater).1 () p hrun
  rw [Nat.zero_add] at hend
  exact hend.presents hc hused.tracks hk haction hr

/-- A sensor that has a frame, then nothing, then another frame, and publishes them one cycle late. -/
def camera : Sensor :=
  .ofFrames #[some (.replicate 16 1.0), none, some (.replicate 16 2.0)] .zero true

def watch : List Circuit.Request :=
  [.sensor "camera" .fourByTwo camera, .actuator "log" 0 (.recording 0)]

def watching : Circuit Action where
  kernels := #[⟨0, .sensor "camera", [], [0], .sensor ⟨.fourByTwo, camera, ⟨none, none⟩, none⟩⟩,
    ⟨1, .actuator "log", [0], [], .actuator (.recording 0)⟩]
  registers := #[⟨0, "camera", .fourByTwo, 0, [1]⟩]
  recurrences := []

theorem order_watching : watching.order = .ok [0, 1] := by
  decide +kernel

theorem bound_watching : watching.Bound := by
  simp [Circuit.Bound, watching]

theorem regular_watching : watching.Regular := by
  intro k hk types _
  simp only [watching, List.mem_toArray, List.mem_cons, List.not_mem_nil, or_false] at hk
  rcases hk with rfl | rfl
  · intro n frame hframe
    have hwords : FieldType.fourByTwo.words = 16 := rfl
    rcases n with _ | _ | _ | n
    · rw [← Option.some.inj hframe, Array.size_replicate, hwords]
    · cases hframe
    · rw [← Option.some.inj hframe, Array.size_replicate, hwords]
    · simp [camera, Sensor.ofFrames] at hframe
  · trivial

theorem construct_watch :
    (Circuit.construct (.new .standard .standard (.new false)) watch).1 = watching := rfl

theorem exists_build_watching : ∃ built env', (build watching).run.run
    (Circuit.construct (.new .standard .standard (.new false)) watch).2 =
      (.ok built, env') := by
  unfold build
  rw [order_watching]
  exact ⟨_, _, rfl⟩

/-- After two cycles the first frame has been published in the second one, and the actuator finds it again
in the third one, in which nothing is published. -/
theorem presents_last_frame_watch : ∃ built env' p,
    (build (Circuit.construct (.new .standard .standard (.new false)) watch).1).run.run
        (Circuit.construct (.new .standard .standard (.new false)) watch).2 = (.ok built, env') ∧
    ([.reset, .step, .read 0, .step].forM Use.perform).run.run (built, ⟨0, #[.empty]⟩) =
      (.ok (), p) ∧
    (∃ s, p.1.read 0 = .ok (Array.replicate 16 1.0, s)) ∧
    (∃ reg, p.1.register 0 = .ok reg ∧ reg.lastUpdate = some 1 ∧ reg.skipped = false) ∧
    ∀ q, (runKernel 0).run.run (p.1.withPhase .stepping, p.2) = (.ok (), q) →
      Finds 1 0 (Array.replicate 16 1.0) q := by
  have henv : (Environment.new .standard .standard (.new false)).Sound :=
    Environment.sound_new _ _ (PlanStore.sound_new false)
  obtain ⟨hvalid, hsound⟩ := Circuit.construct_spec henv watch
  rw [construct_watch] at hvalid
  obtain ⟨built, env', hbuild⟩ := exists_build_watching
  have hbuilt := built_of_build hsound hbuild
  have hc := hbuilt.runnable hvalid.wellFormed bound_watching regular_watching
  have horder : built.order = [0, 1] :=
    Except.ok.inj (hbuilt.order.symm.trans order_watching)
  obtain ⟨x, hstart⟩ := hbuilt.represents hvalid ⟨0, #[.empty]⟩
  have hlater : Use.reset ∉ [.step, .read 0, .step] := by decide
  obtain ⟨s₁, around₁, hreset, h₁, hnow⟩ := hstart.reset hc.toOperable
  obtain ⟨s, around, ⟨hsteps, h₂⟩ | ⟨-, hend⟩⟩ := Represents.performAll hc (n := 0) h₁ hlater
  · have hrun : ([.reset, .step, .read 0, .step].forM Use.perform).run.run
        (built, ⟨0, #[.empty]⟩) = (.ok (), s, around) := by
      change (reset >>= fun _ => [.step, .read 0, .step].forM Use.perform).run.run _ = _
      rw [run_bind, hreset]
      exact hsteps
    have hkernel : built.circuit.kernels[0]? = watching.kernels[0]? := by rw [hbuilt.circuit]
    have hshown := presents_last_frame henv watch (construct_watch ▸ hbuild)
      (show after [] (built, ⟨0, #[.empty]⟩) = (built, ⟨0, #[.empty]⟩) from rfl) hlater hrun
      hkernel rfl (List.mem_singleton_self 0)
    have hheld : SensorKernel.held ⟨.fourByTwo, camera, ⟨none, none⟩, none⟩ 2 =
        .replicate 16 1.0 := FieldType.stored_of_ne_pixel (by decide) _
    refine ⟨built, env', (s, around), construct_watch ▸ hbuild, hrun, hheld ▸ hshown.read,
      hshown.register, fun q hq => ?_⟩
    refine hheld ▸ hshown.retained rfl [0] 1 [] (h₂.order.trans horder) q ?_
    change (runKernel 0 >>= fun _ => pure PUnit.unit).run.run (s.withPhase .stepping, around) = _
    rw [run_bind, hq]
    rfl
  · rw [horder, hnow] at hend
    exact absurd hend (by decide)

end Scheduler

end FieldCircuit
