import FieldCircuit.Proofs.Scheduler.Journal
import FieldCircuit.Proofs.Scheduler.Reachable

/-!
# Steps that fail

A sensor or a host function that yields too many or too few words stops a step in the middle. Kernels
before it have written their registers by then, but the cycle does not end: no recurrence has been
latched and no register has been clocked. The scheduler is idle again, and the next step begins the same
cycle again.
-/

namespace FieldCircuit

namespace Call

theorem lastUpdate_update_publish (c : Call) (frame : Option (Array Float32)) :
    (c.update (publish frame)).2.outputs.map Register.lastUpdate =
      c.outputs.map Register.lastUpdate := by
  obtain ⟨a, outputs, around⟩ := c
  cases outputs with
  | nil => rfl
  | cons r rest =>
      unfold update
      dsimp only
      cases hr : publish frame r with
      | error e => rfl
      | ok r' =>
          have hsame : r'.lastUpdate = r.lastUpdate :=
            congrArg Mark.lastUpdate (Register.mark_publish hr)
          rw [List.map_cons, List.map_cons, hsame]

theorem lastUpdate_computeSensor (c : Call) (k : SensorKernel) :
    (c.computeSensor k).2.outputs.map Register.lastUpdate = c.outputs.map Register.lastUpdate := by
  unfold computeSensor
  cases k.pacing.start c.surroundings.now with
  | error f => rfl
  | ok opened =>
      dsimp only
      generalize SensorKernel.fetch { k with pacing := opened } = fetched
      obtain ⟨frame, k'⟩ := fetched
      have hsame := lastUpdate_update_publish { c with action := .sensor k' } frame
      dsimp only
      generalize update { c with action := .sensor k' } (publish frame) = result at hsame ⊢
      obtain ⟨_ | _, c'⟩ := result
      · exact hsame
      · dsimp only
        cases k'.pacing.finish c'.surroundings.now <;> exact hsame

/-- Computing does not change when registers were last updated; that is left to the clock. -/
theorem lastUpdate_compute (c : Call) (inputs : List Register) :
    (c.compute inputs).2.outputs.map Register.lastUpdate <+:
      c.outputs.map Register.lastUpdate := by
  by_cases hkind : c.action.kind = .sensor
  · obtain ⟨k, haction⟩ := Action.exists_sensor hkind
    rw [compute, haction]
    dsimp only
    rw [lastUpdate_computeSensor]
  · have hmarks := (c.quiet_compute inputs hkind).1.marks.map Mark.lastUpdate
    rwa [List.map_map, List.map_map] at hmarks

end Call

namespace Scheduler

/-- The number of cycles that are over, and when every register was last updated. -/
def stamps (p : Scheduler × Surroundings) : Nat × (RegisterId → Option (Option Nat)) :=
  (p.1.cycle, fun r => p.1.registers[r]?.map Register.lastUpdate)

theorem stamps_eq_of_journal_eq {p q : Scheduler × Surroundings} (h : journal q = journal p) :
    stamps q = stamps p := by
  have hstamps : ∀ p, stamps p =
      ((journal p).cycle, fun r => ((journal p).marks r).map Mark.lastUpdate) := by
    intro p
    refine Prod.ext rfl (funext fun r => ?_)
    exact (Option.map_map Mark.lastUpdate Register.mark p.1.registers[r]?).symm
  rw [hstamps, hstamps, h]

theorem keeps_stamps_of_keeps {m : SchedulerM Unit}
    (h : ∀ j, Keeps (journal · = j) m fun _ => True) (t : Nat × (RegisterId → Option (Option Nat))) :
    Keeps (stamps · = t) m fun _ => True := by
  intro p hp
  exact ⟨(stamps_eq_of_journal_eq (h (journal p) p rfl).1).trans hp, fun _ _ => trivial⟩

theorem keeps_stamps_call (i : KernelId) (t : Nat × (RegisterId → Option (Option Nat))) :
    Keeps (stamps · = t) (call i fun inputs c => c.compute inputs) fun _ => True := by
  rintro ⟨s, around⟩ hp
  refine ⟨?_, fun _ _ => trivial⟩
  simp only [call, ExceptT.run_mk, StateT.run]
  cases henter : s.enter around i with
  | error f => exact hp
  | ok entered =>
      obtain ⟨inputs, before⟩ := entered
      rw [← hp]
      exact Prod.ext rfl <| funext <|
        map_getElem?_leave Register.lastUpdate henter (before.lastUpdate_compute inputs)

/-- Running a kernel does not end the cycle, whether it succeeds or not. -/
theorem keeps_stamps_runKernel (i : KernelId) (t : Nat × (RegisterId → Option (Option Nat))) :
    Keeps (stamps · = t) (runKernel i) fun _ => True := by
  unfold runKernel
  refine Keeps.get.bind fun p _ => Keeps.lift_bind fun k => ?_
  cases k.kind.inputSide with
  | none => exact keeps_stamps_call i t
  | some side =>
      have hsync : ∀ r ∈ k.inputs, Keeps (stamps · = t) (syncRegister side r) fun _ => True :=
        fun r _ => keeps_stamps_of_keeps (keeps_syncRegister side r) t
      exact (Keeps.forM hsync).bind fun _ _ => keeps_stamps_call i t

theorem stamps_eq_of_run {order : List KernelId} {p q : Scheduler × Surroundings}
    {result : Except CircuitError Unit} (hrun : (order.forM runKernel).run.run p = (result, q)) :
    stamps q = stamps p := by
  have hkept := (Keeps.forM (fun i (_ : i ∈ order) => keeps_stamps_runKernel i (stamps p)) p rfl).1
  rwa [hrun] at hkept

theorem lastUpdate_register_of_stamps {p q : Scheduler × Surroundings} (h : stamps q = stamps p)
    (r : RegisterId) : (q.1.register r).map Register.lastUpdate =
      (p.1.register r).map Register.lastUpdate := by
  have hsame := congrFun (congrArg Prod.snd h) r
  unfold stamps at hsame
  unfold register
  cases hp : p.1.registers[r]? <;> cases hq : q.1.registers[r]? <;> simp [hp, hq] at hsame
  · rfl
  · exact congrArg Except.ok hsame

def ReadsSame (p q : Scheduler × Surroundings) (r : RegisterId) : Prop :=
  ∃ values s t, p.1.read r = .ok (values, s) ∧ q.1.read r = .ok (values, t)

/-- What is left of a scheduler by a step that has failed with an error. -/
structure Stalled (p q : Scheduler × Surroundings) (e : CircuitError) : Prop where
  phase : q.1.phase = .idle
  cycle : q.1.cycle = p.1.cycle
  lastUpdate : ∀ r, (q.1.register r).map Register.lastUpdate =
    (p.1.register r).map Register.lastUpdate
  /-- No recurrence has been latched. -/
  steady : ∀ k ∈ p.1.circuit.kernels, k.kind = .recurrence ∨ k.kind = .constant →
    ∀ r ∈ k.outputs, ReadsSame p q r
  /-- Some kernel has failed in the middle of the step, after those before it have run, and since then
  the scheduler has only become idle. -/
  failing : ∃ done i later mid last k, p.1.order = done ++ i :: later ∧
    (done.forM runKernel).run.run (p.1.withPhase .stepping, p.2) = (.ok (), mid) ∧
    (runKernel i).run.run mid = (.error e, last) ∧ q = (last.1.withPhase .idle, last.2) ∧
    p.1.circuit.kernels[i]? = some k ∧ (k.kind = .sensor ∨ k.kind = .host) ∧ e.IsMiscount ∧
    ∀ r ∈ k.outputs, ReadsSame p q r
  accepted : (step.run.run q).1 ≠ .error .notReset

namespace Represents

variable {c : Circuit Action} {order : List KernelId} {phase phase' : Phase} {x x' : Snapshot}
  {s s' : Scheduler} {around around' : Surroundings} {e : CircuitError}
  {q : Scheduler × Surroundings}

theorem readsSame (h : s.Represents c order phase x around)
    (h' : s'.Represents c order phase' x' around') {r : Nat} (hr : r < c.registers.size)
    (hvalue : x'.values r = x.values r) : ReadsSame (s, around) (s', around') r := by
  have ht : c.type? r = some c.registers[r].fieldType := by
    rw [Circuit.type?, Array.getElem?_eq_getElem hr, Option.map_some]
  obtain ⟨t, hread, -⟩ := h.read ht
  obtain ⟨t', hread', -⟩ := h'.read ht
  exact ⟨x.values r, t, t', hread, hvalue ▸ hread'⟩

/-- Only kernels can stop a step. -/
theorem run_of_step_eq_error (h : s.Represents c order phase x around) (hphase : phase ≠ .unreset)
    (hc : c.Operable order) (hrun : Scheduler.step.run.run (s, around) = (.error e, q)) :
    ∃ last, (order.forM Scheduler.runKernel).run.run (s.withPhase .stepping, around) =
      (.error e, last) ∧ q = (last.1.ended (.error e), last.2) := by
  rw [← h.phase] at hphase
  obtain ⟨last, hsweep, hq⟩ := exists_sweep hphase hrun
  rw [sweep, h.order, run_bind] at hsweep
  have hfired := ((h.withPhase .stepping).leads_runKernels hc fun i (hi : i ∈ order) => hi).1
  rcases hkernels : (order.forM Scheduler.runKernel).run.run (s.withPhase .stepping, around) with
    ⟨e' | _, p⟩
  · rw [hkernels] at hsweep
    obtain ⟨he, rfl⟩ := Prod.mk.inj hsweep
    obtain rfl := Except.error.inj he
    exact ⟨p, rfl, hq⟩
  · obtain ⟨s', hlatch, -⟩ := (hfired () p hkernels).latch hc
    rw [hkernels] at hsweep
    dsimp only at hsweep
    rw [hlatch] at hsweep
    cases hsweep

theorem exists_stopped (h : s.Represents c order phase x around) (hphase : phase ≠ .unreset)
    (hc : c.Operable order) (hrun : Scheduler.step.run.run (s, around) = (.error e, q)) :
    ∃ done i later mid last k, order = done ++ i :: later ∧ c.kernels[i]? = some k ∧
      (done.forM Scheduler.runKernel).run.run (s.withPhase .stepping, around) = (.ok (), mid) ∧
      (Scheduler.runKernel i).run.run mid = (.error e, last) ∧
      q = (last.1.ended (.error e), last.2) ∧ stamps last = stamps (s, around) ∧
      Fails c order .stepping k (c.swept Circuit.Kernel.fire done x) e last := by
  obtain ⟨last, hkernels, hq⟩ := h.run_of_step_eq_error hphase hc hrun
  have hstamps := stamps_eq_of_run hkernels
  obtain ⟨done, i, later, mid, ho, hdone, hi⟩ := exists_of_run_forM_eq_error hkernels
  have hmem : ∀ j ∈ done, j ∈ order := fun j hj => ho ▸ List.mem_append_left _ hj
  have hfired := ((h.withPhase .stepping).leads_runKernels hc hmem).1 () mid hdone
  obtain ⟨k, hk, -⟩ := (ho ▸ hc.topological).sorted done i later rfl
  exact ⟨done, i, later, mid, last, k, ho, hk, hdone, hi, hq, hstamps,
    (hfired.leads_runKernel hc hk).2 e last hi⟩

theorem step_ne_notReset (h : s.Represents c order phase x around) (hphase : phase ≠ .unreset)
    (hc : c.Operable order) : (Scheduler.step.run.run (s, around)).1 ≠ .error .notReset := by
  intro hrun
  obtain ⟨_, _, _, _, _, _, -, -, -, -, -, -, hfails⟩ := h.exists_stopped hphase hc (Prod.ext hrun rfl)
  rcases hfails.error with he | ⟨he, -⟩
  · cases he
  · exact he

/-- A step faults, or it stalls. -/
theorem stalled (h : s.Represents c order phase x around) (hphase : phase ≠ .unreset)
    (hc : c.Operable order) (hcircuit : s.circuit = c)
    (hrun : Scheduler.step.run.run (s, around) = (.error e, q)) (he : e.isFault = false) :
    Stalled (s, around) q e := by
  obtain ⟨done, i, later, mid, last, k, ho, hk, hdone, hi, rfl, hstamps, hfails⟩ :=
    h.exists_stopped hphase hc hrun
  obtain ⟨hmiscount, hfills, x', hlast, hvalues⟩ := hfails.error.resolve_left fun hfault => by
    rw [hfault] at he
    cases he
  have hended : last.1.ended (.error e) = last.1.withPhase .idle := by
    rw [ended, if_neg (Bool.eq_false_iff.1 he)]
  rw [hended]
  have hq := hlast.withPhase .idle
  have hlt : ∀ {j : KernelId} {kj : Circuit.Kernel Action}, c.kernels[j]? = some kj →
      ∀ r ∈ kj.outputs, r < c.registers.size := fun hkj _ hr =>
    Circuit.lt_of_mem (hc.wellFormed.fits _ _ hkj).outputs hr
  have hkind : k.kind = .sensor ∨ k.kind = .host := by
    rw [(hc.wellFormed.fits i k hk).kind]
    exact Circuit.Kernel.kind_of_not_fills hfills
  have hfresh : i ∉ done := (ho ▸ hc.topological).notMem_earlier
  refine ⟨rfl, congrArg Prod.fst hstamps, lastUpdate_register_of_stamps hstamps,
    fun kj hkj hkind r hr => ?_, ⟨done, i, later, mid, last, k, h.order.trans ho, hdone, hi, rfl,
      hcircuit ▸ hk, hkind, hmiscount, fun r hr => ?_⟩, hq.step_ne_notReset (by decide) hc⟩
  · obtain ⟨j, hj⟩ := Array.getElem?_of_mem hkj
    rw [hcircuit] at hj
    refine h.readsSame hq (hlt hj r hr) ?_
    rw [(hc.wellFormed.fits j kj hj).kind] at hkind
    rw [hvalues, Circuit.values_swept_fire hc.wellFormed hj hr
      (Circuit.Kernel.fire_eq_self hkind.symm)]
  · refine h.readsSame hq (hlt hk r hr) ?_
    rw [hvalues]
    -- the failing kernel has not run before in this cycle
    refine Circuit.values_swept_of_notMem Circuit.Kernel.local_fire hc.wellFormed fun j hj heq => ?_
    rw [hc.wellFormed.drives i k hk r hr] at heq
    exact hfresh (Option.some.inj heq ▸ hj)

end Represents

/-- The circuit has been constructed by requests, and its scheduler has been used in whatever way since it
was built, and has been reset. A step that ends with an error, and not with a fault, leaves it idle and does
not end the cycle. -/
theorem failed_step_stalls {env env' : Environment} (henv : env.Sound)
    (requests : List Circuit.Request) {built : Scheduler} {start : Surroundings}
    (hbuild : (build (Circuit.construct env requests).1).run.run
      (Circuit.construct env requests).2 = (.ok built, env'))
    {earlier : List Use} {p q : Scheduler × Surroundings}
    (hearlier : after earlier (built, start) = p) (hreset : p.1.phase ≠ .unreset) {e : CircuitError}
    (hrun : step.run.run p = (.error e, q)) (he : e.isFault = false) : Stalled p q e := by
  obtain ⟨phase, x, hused⟩ := inUse_after henv requests hbuild hearlier
  rw [hused.represents.phase] at hreset
  exact hused.represents.stalled hreset (hused.operable (hused.bound hreset)) rfl hrun he

/-- Requests for a recurrence and for a register that has room for one word and gets two, and that drives
the recurrence. -/
def overfill : List Circuit.Request :=
  [.recurrence "memory" .number (some #[1.0]), .host "both" [0, 0] .number .concat, .bind 0 1]

def overfilling : Circuit Action where
  kernels := #[⟨0, .recurrence, [], [0], .recurrence .number (some #[1.0])⟩,
    ⟨1, .host "both", [0, 0], [1], .host .number .concat⟩]
  registers := #[⟨0, "memory", .number, 0, [1]⟩, ⟨1, "both", .number, 1, []⟩]
  recurrences := [⟨0, some 1⟩]

theorem order_overfilling : overfilling.order = .ok [0, 1] := by
  decide +kernel

theorem bound_overfilling : overfilling.Bound := by
  simp [Circuit.Bound, overfilling]

theorem construct_overfill :
    (Circuit.construct (.new .standard .standard (.new false)) overfill).1 = overfilling := rfl

theorem exists_build_overfilling : ∃ built env', (build overfilling).run.run
    (Circuit.construct (.new .standard .standard (.new false)) overfill).2 =
      (.ok built, env') := by
  unfold build
  rw [order_overfilling]
  exact ⟨_, _, rfl⟩

/-- The recurrence has run when the second kernel yields two words for one. -/
theorem failed_step_stalls_overfill : ∃ built env' q name,
    (build (Circuit.construct (.new .standard .standard (.new false)) overfill).1).run.run
        (Circuit.construct (.new .standard .standard (.new false)) overfill).2 = (.ok built, env') ∧
    step.run.run (after [.reset] (built, ⟨0, #[]⟩)) = (.error (.valueCount name 1 2), q) ∧
    Stalled (after [.reset] (built, ⟨0, #[]⟩)) q (.valueCount name 1 2) := by
  have henv : (Environment.new .standard .standard (.new false)).Sound :=
    Environment.sound_new _ _ (PlanStore.sound_new false)
  obtain ⟨hvalid, hsound⟩ := Circuit.construct_spec henv overfill
  rw [construct_overfill] at hvalid
  obtain ⟨built, env', hbuild⟩ := exists_build_overfilling
  have hbuilt := built_of_build hsound hbuild
  have hc := hbuilt.operable hvalid.wellFormed bound_overfilling
  have horder : built.order = [0, 1] :=
    Except.ok.inj (hbuilt.order.symm.trans order_overfilling)
  rw [horder] at hc
  obtain ⟨x, hstart⟩ := hbuilt.represents hvalid ⟨0, #[]⟩
  rw [horder] at hstart
  obtain ⟨s₁, around₁, hreset, h₁, -⟩ := hstart.reset hc
  have hafter : after [.reset] (built, ⟨0, #[]⟩) = (s₁, around₁) := by
    simp only [after, List.foldl_cons, List.foldl_nil, Use.perform, hreset]
  obtain ⟨s₂, around₂, hmemory, h₂, -⟩ :=
    (h₁.withPhase .stepping).runKernel_steady hc (i := 0) rfl trivial (by decide)
  obtain ⟨s₃, h₃, -, hcurrent, hboth⟩ := h₂.exists_synced hc.wellFormed (i := 1) rfl
  obtain ⟨reg, -, hholds⟩ := h₃.registers 0 .number rfl
  have hsize := hholds.size
  generalize Circuit.Kernel.fire _ _ = y at h₃ hsize
  have hwords : (HostFunction.concat ([0, 0].map y.values)).size = 2 := by
    simp only [HostFunction.concat, List.map_cons, List.map_nil, List.foldl_cons, List.foldl_nil,
      Array.size_append, hsize, Array.size_empty]
    rfl
  obtain ⟨name, s₄, hcall, -⟩ := h₃.compute_host_unfilled hc.wellFormed (i := 1) rfl rfl
    (fun hfills => absurd (hwords.symm.trans hfills) (by decide)) (hcurrent _ rfl)
  have hstopped : (runKernel 1).run.run (s₂, around₂) = (.error (.valueCount name 1
      (HostFunction.concat ([0, 0].map y.values)).size), s₄, around₂) := hboth.trans hcall
  rw [hwords] at hstopped
  have hsweep : (sweep s₁.order).run.run (s₁.withPhase .stepping, around₁) =
      (.error (.valueCount name 1 2), s₄, around₂) := by
    rw [h₁.order, sweep, run_bind]
    have hkernels : ([0, 1].forM runKernel).run.run (s₁.withPhase .stepping, around₁) =
        (.error (.valueCount name 1 2), s₄, around₂) := by
      change (runKernel 0 >>= fun _ => runKernel 1 >>= fun _ => pure PUnit.unit).run.run _ = _
      rw [run_bind, hmemory]
      dsimp only
      rw [run_bind, hstopped]
    rw [hkernels]
  have hreset : s₁.phase ≠ .unreset := by
    rw [h₁.phase]
    decide
  have hrun := step_run hreset around₁ hsweep
  rw [← hafter] at hrun
  exact ⟨built, env', _, name, construct_overfill ▸ hbuild, hrun,
    failed_step_stalls henv overfill (construct_overfill ▸ hbuild) rfl (hafter.symm ▸ hreset) hrun
      rfl⟩

end Scheduler

end FieldCircuit
