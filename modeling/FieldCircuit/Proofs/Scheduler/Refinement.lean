import FieldCircuit.Proofs.Scheduler.Restart
import FieldCircuit.Proofs.Scheduler.Start

/-!
# Schedulers refine synchronous dataflow

Whatever has been done with a scheduler before, after a reset it shows the dataflow of its circuit,
cycle by cycle: a register that is read has the value that the dataflow gives it, whichever registers
have been read in between, and the logs of the actuators hold the values of their inputs in all cycles.
The one thing that can come in between is the end of time, when a sensor cannot write down the deadline
of its window any more.
-/

namespace FieldCircuit.Scheduler

inductive Use
  | reset
  | step
  | read (register : RegisterId)
  /-- Time passes. -/
  | wait (duration : Nat)
  deriving DecidableEq, Repr

namespace Use

/-- Uses a scheduler. A read that is refused changes nothing. -/
def perform : Use → SchedulerM Unit
  | reset => Scheduler.reset
  | step => Scheduler.step
  | read r => modify fun (s, around) =>
    match s.read r with
    | .ok (_, s) => (s, around)
    | .error _ => (s, around)
  | wait duration => modify fun (s, around) => (s, around.sleep duration)

def duration (c : Circuit Action) (order : List KernelId) : Use → Nat
  | step => c.periods order
  | wait duration => duration
  | reset | read _ => 0

theorem add_count_cons (n : Nat) (u : Use) (uses : List Use) : n + (u :: uses).count .step =
    n + (if u = .step then 1 else 0) + uses.count .step := by
  rw [List.count_cons]
  by_cases hu : u = .step
  · simp [hu]
    omega
  · simp [hu]

end Use

def after (uses : List Use) (x : Scheduler × Surroundings) : Scheduler × Surroundings :=
  uses.foldl (fun x u => (u.perform.run.run x).2) x

namespace Represents

variable {c : Circuit Action} {order : List KernelId} {phase : Phase} {x : Snapshot}
  {s : Scheduler} {around : Surroundings}

theorem perform_read (h : s.Represents c order phase x around) (r : RegisterId) : ∃ s',
    (Use.read r).perform.run.run (s, around) = (.ok (), s', around) ∧
      s'.Represents c order phase x around := by
  have hrun : (Use.read r).perform.run.run (s, around) = (.ok (), match s.read r with
      | .ok (_, s) => (s, around)
      | .error _ => (s, around)) := rfl
  rw [hrun]
  cases hread : s.read r with
  | error e => exact ⟨s, rfl, h⟩
  | ok result =>
      refine ⟨result.2, rfl, ?_⟩
      cases ht : c.type? r with
      | some t =>
          obtain ⟨s', hs', h'⟩ := h.read ht
          obtain rfl := Except.ok.inj (hread.symm.trans hs')
          exact h'
      | none =>
          obtain ⟨reg, -, hread⟩ := bind_eq_ok_iff.1 hread
          obtain ⟨⟨values, reg'⟩, -, hread⟩ := bind_eq_ok_iff.1 hread
          obtain rfl := Except.ok.inj hread
          refine h.setRegister fun t ht' => ?_
          rw [ht] at ht'
          cases ht'

/-- Whatever is done, the scheduler represents some state of the machine. -/
theorem perform (h : s.Represents c order phase x around) (hc : c.Operable order) (u : Use) :
    ∃ phase' x', (u.perform.run.run (s, around)).2.1.Represents c order phase' x'
      (u.perform.run.run (s, around)).2.2 := by
  cases u with
  | reset =>
      obtain ⟨s', around', hrun, h', -⟩ := h.reset hc
      exact ⟨.idle, _, by rw [Use.perform, hrun]; exact h'⟩
  | step =>
      by_cases hphase : phase = .unreset
      · subst hphase
        refine ⟨.unreset, x, ?_⟩
        rw [Use.perform, step_run_unreset h.phase]
        exact h
      · have hends : Leads Scheduler.step (s, around) (fun _ p => ∃ phase', Intact c order phase' p)
            fun _ p => ∃ phase', Intact c order phase' p :=
          (h.leads_step hphase hc).mono (fun _ _ hgood => ⟨_, _, hgood⟩) fun _ _ hbad => ⟨_, hbad⟩
        exact hends.of_both
  | read r =>
      obtain ⟨s', hrun, h'⟩ := h.perform_read r
      exact ⟨phase, x, by rw [hrun]; exact h'⟩
  | wait duration => exact ⟨phase, x, h.sleep duration⟩

theorem after (h : s.Represents c order phase x around) (hc : c.Operable order) (uses : List Use) :
    ∃ phase' x', (Scheduler.after uses (s, around)).1.Represents c order phase' x'
      (Scheduler.after uses (s, around)).2 := by
  induction uses generalizing s around phase x with
  | nil => exact ⟨phase, x, h⟩
  | cons u uses ih =>
      obtain ⟨phase', x', h'⟩ := h.perform hc u
      exact ih h'

/-- Steps, with anything but a reset in between, are cycles of the machine. -/
theorem performAll (hc : c.Runnable order) {n : Nat}
    (h : s.Represents c order .idle (c.cycled order x n) around) {uses : List Use}
    (huses : Use.reset ∉ uses) : Attempts (uses.forM Use.perform) s around
      (fun s' around' => s'.Represents c order .idle
        (c.cycled order x (n + uses.count .step)) around')
      (fun _ _ => endOfTime ≤
        around.now + (uses.map (Use.duration c order)).sum + c.periods order) := by
  induction uses generalizing s around n with
  | nil => exact .of_run rfl h
  | cons u uses ih =>
      have hrest : Use.reset ∉ uses := fun hmem => huses (List.mem_cons_of_mem u hmem)
      rw [List.map_cons, List.sum_cons]
      have hfirst : Attempts u.perform s around (fun s' around' => s'.Represents c order .idle
          (c.cycled order x (n + if u = .step then 1 else 0)) around' ∧
            around'.now ≤ around.now + u.duration c order)
          (fun _ _ => endOfTime ≤ around.now +
            (u.duration c order + (uses.map (Use.duration c order)).sum) + c.periods order) := by
        cases u with
        | reset => exact absurd (List.mem_cons_self ..) huses
        | step =>
            refine (h.step (by decide) hc).mono (fun _ _ hgood => hgood) fun _ _ hbad => ?_
            have hend := hbad.2
            simp only [Use.duration]
            omega
        | read r =>
            obtain ⟨s', hrun, h'⟩ := h.perform_read r
            exact .of_run hrun ⟨h', Nat.le_refl _⟩
        | wait duration => exact .of_run rfl ⟨h.sleep duration, Nat.le_refl _⟩
      refine hfirst.bind fun s' around' h' => ?_
      rw [Use.add_count_cons]
      refine (ih h'.1 hrest).mono (fun _ _ hgood => hgood) fun _ _ hbad => ?_
      have hnow := h'.2
      omega

end Represents

/-- What is seen of a scheduler and of its surroundings is the dataflow of a circuit after a number of
cycles. The logs are those before the first cycle. -/
structure Shows (c : Circuit Action) (order : List KernelId) (logs : Array Log)
    (v : Nat → RegisterId → Array Float32) (n : Nat) (s : Scheduler) (around : Surroundings) :
    Prop where
  read : ∀ r value, c.visible v n r = some value → ∃ s', s.read r = .ok (value, s')
  consumed : ∀ (log : Nat) l, logs[log]? = some l → c.recorded order log ≠ [] →
    ∃ l', around.logs[log]? = some l' ∧ l'.frames = ((List.range n).flatMap fun m =>
      (c.recorded order log).map (v m)).toArray

namespace Represents

variable {c : Circuit Action} {order : List KernelId} {phase : Phase} {x : Snapshot}
  {s : Scheduler} {around : Surroundings}

/-- The machine shows its dataflow after a restart and some cycles, and so does a scheduler that
represents it. -/
theorem shows {n : Nat} (hc : c.Runnable order) (hx : x.Tracks c)
    (h : s.Represents c order phase
      (c.cycled order (c.swept Circuit.Kernel.restart order x) n) around) :
    Shows c order x.logs (c.flow order x) n s around := by
  refine ⟨fun r value hvisible => ?_, fun log l hl hrecorded => ?_⟩
  · obtain ⟨i, hi, -⟩ := Option.bind_eq_some_iff.1 hvisible
    obtain ⟨w, hw, -⟩ := Option.map_eq_some_iff.1 hi
    have ht : c.type? r = some w.fieldType := by rw [Circuit.type?, hw, Option.map_some]
    obtain ⟨s', hread, -⟩ := h.read ht
    refine ⟨s', ?_⟩
    rw [hread, Circuit.values_cycled_of_visible hc.wellFormed hc.topological hx hvisible]
  · obtain ⟨l', hl', hframes⟩ :=
      Circuit.logs_cycled hc.wellFormed hc.topological hl hrecorded n
    exact ⟨l', h.logs ▸ hl', hframes⟩

/-- From a reset on, a scheduler shows the dataflow of the machine that it represents. -/
theorem reset_shows (h : s.Represents c order phase x around) (hc : c.Runnable order)
    (hx : x.Tracks c) {uses : List Use} (huses : Use.reset ∉ uses) :
    Attempts ((Use.reset :: uses).forM Use.perform) s around
      (Shows c order around.logs (c.flow order x) (uses.count .step))
      (fun _ _ => endOfTime ≤
        around.now + (uses.map (Use.duration c order)).sum + c.periods order) := by
  obtain ⟨s₁, around₁, hrun, h₁, hnow⟩ := h.reset hc.toOperable
  rw [h.logs, ← hnow]
  have hrest := performAll hc (x := c.swept Circuit.Kernel.restart order x) (n := 0) h₁ huses
  obtain ⟨s', around', hend⟩ := hrest.mono (fun s' around' h' => shows hc hx h') fun _ _ hbad => hbad
  rw [Nat.zero_add] at hend
  refine ⟨s', around', ?_⟩
  change (Scheduler.reset >>= fun _ => uses.forM Use.perform).run.run (s, around) = _ ∧ _ ∨
    (Scheduler.reset >>= fun _ => uses.forM Use.perform).run.run (s, around) = _ ∧ _
  rw [run_bind, hrun]
  exact hend

end Represents

/-- The circuit has been constructed by requests, and its scheduler has been built and used in whatever
way. From a reset on the scheduler shows the one dataflow of its circuit, after any number of steps and
with any reads in between, unless a step comes to the end of time. -/
theorem refines_dataflow {env env' : Environment} (henv : env.Sound)
    (requests : List Circuit.Request) {built s : Scheduler} {start around : Surroundings}
    (hbuild : (build (Circuit.construct env requests).1).run.run
      (Circuit.construct env requests).2 = (.ok built, env'))
    (hbound : (Circuit.construct env requests).1.Bound)
    (hregular : (Circuit.construct env requests).1.Regular)
    {earlier later : List Use} (hearlier : after earlier (built, start) = (s, around))
    (hlater : Use.reset ∉ later) :
    ∃ v, s.circuit.Dataflow v ∧
      (∀ w, s.circuit.Dataflow w → ∀ n, ∀ r < s.circuit.registers.size, w n r = v n r) ∧
      Attempts ((Use.reset :: later).forM Use.perform) s around
        (Shows s.circuit s.order around.logs v (later.count .step))
        (fun _ _ => endOfTime ≤ around.now + (later.map (Use.duration s.circuit s.order)).sum +
          s.circuit.periods s.order) := by
  obtain ⟨hvalid, hsound⟩ := Circuit.construct_spec henv requests
  have hbuilt := built_of_build hsound hbuild
  have hrunnable := hbuilt.runnable hvalid.wellFormed hbound hregular
  obtain ⟨_, hstart⟩ := hbuilt.represents hvalid start
  obtain ⟨phase, x, h⟩ := hstart.after hrunnable.toOperable earlier
  rw [hearlier] at h
  have hc := h.runnable hrunnable
  have hx := h.tracks hrunnable.wellFormed
  have hflow := Circuit.dataflow_cycled hc.wellFormed hc.topological hx
  refine ⟨s.circuit.flow built.order x, hflow, fun w hw n r hr => ?_, ?_⟩
  · exact hw.unique hc.wellFormed hc.bound hflow hr
  · have hshows := h.rebase.reset_shows hc hx hlater
    rwa [← h.order] at hshows ⊢

/-- Requests for two recurrences that drive each other and for an actuator on the first. -/
def exchange : List Circuit.Request :=
  [.recurrence "left" .fourByTwo (some (.replicate 16 1.0)),
    .recurrence "right" .fourByTwo (some (.replicate 16 2.0)), .bind 0 1, .bind 1 0,
    .actuator "log" 0 (.recording 0)]

def exchanging : Circuit Action where
  kernels := #[⟨0, .recurrence, [], [0], .recurrence .fourByTwo (some (.replicate 16 1.0))⟩,
    ⟨1, .recurrence, [], [1], .recurrence .fourByTwo (some (.replicate 16 2.0))⟩,
    ⟨2, .actuator "log", [0], [], .actuator (.recording 0)⟩]
  registers := #[⟨0, "left", .fourByTwo, 0, [2]⟩, ⟨1, "right", .fourByTwo, 1, []⟩]
  recurrences := [⟨0, some 1⟩, ⟨1, some 0⟩]

theorem order_exchanging : exchanging.order = .ok [0, 1, 2] := by
  decide +kernel

theorem bound_exchanging : exchanging.Bound := by
  simp [Circuit.Bound, exchanging]

theorem regular_exchanging : exchanging.Regular := by
  intro k hk types _
  simp only [exchanging, List.mem_toArray, List.mem_cons, List.not_mem_nil, or_false] at hk
  rcases hk with rfl | rfl | rfl <;> trivial

theorem construct_exchange :
    (Circuit.construct (.new .standard .standard (.new false)) exchange).1 = exchanging := rfl

theorem exists_build_exchanging : ∃ built env', (build exchanging).run.run
    (Circuit.construct (.new .standard .standard (.new false)) exchange).2 =
      (.ok built, env') := by
  unfold build
  rw [order_exchanging]
  exact ⟨_, _, rfl⟩

/-- The recurrences exchange their values in every cycle. -/
theorem refines_dataflow_exchange : ∃ built env' s around,
    (build (Circuit.construct (.new .standard .standard (.new false)) exchange).1).run.run
        (Circuit.construct (.new .standard .standard (.new false)) exchange).2 =
      (.ok built, env') ∧
    ([.reset, .step, .read 1, .step, .step].forM Use.perform).run.run (built, ⟨0, #[.empty]⟩) =
      (.ok (), s, around) ∧
    (∃ s', s.read 0 = .ok (Array.replicate 16 2.0, s')) ∧
    ∃ l, around.logs[0]? = some l ∧
      l.frames = #[.replicate 16 1.0, .replicate 16 2.0, .replicate 16 1.0] := by
  have henv : (Environment.new .standard .standard (.new false)).Sound :=
    Environment.sound_new _ _ (PlanStore.sound_new false)
  obtain ⟨built, env', hbuild⟩ := exists_build_exchanging
  have hbuilt := built_of_build (Circuit.construct_spec henv exchange).2 hbuild
  have horder : built.order = [0, 1, 2] :=
    Except.ok.inj (hbuilt.order.symm.trans order_exchanging)
  have hnone : after [] (built, ⟨0, #[.empty]⟩) = (built, ⟨0, #[.empty]⟩) := rfl
  have hlater : Use.reset ∉ [.step, .read 1, .step, .step] := by decide
  obtain ⟨v, hv, -, hrun⟩ := refines_dataflow henv exchange (construct_exchange ▸ hbuild)
    (construct_exchange ▸ bound_exchanging) (construct_exchange ▸ regular_exchanging) hnone hlater
  rw [hbuilt.circuit, horder] at hrun
  rw [hbuilt.circuit] at hv
  have hleft : ∀ n, v (n + 1) 0 = v n 1 := hv.driven ⟨0, some 1⟩ (by simp [exchanging]) 1 rfl
  have hright : ∀ n, v (n + 1) 1 = v n 0 := hv.driven ⟨1, some 0⟩ (by simp [exchanging]) 0 rfl
  have hstored : ∀ values, FieldType.fourByTwo.initial (some values) = values :=
    fun values => FieldType.stored_of_ne_pixel (by decide) values
  have hinitial : ∀ {i : Nat} {k : Circuit.Kernel Action} {r : RegisterId} {values : Array Float32},
      exchanging.kernels[i]? = some k → r ∈ k.outputs →
        k.action = .recurrence .fourByTwo (some values) → v 0 r = values := by
    intro i k r values hk hr haction
    rw [hv.initial k (Array.mem_of_getElem? hk) r hr _ _ haction, hstored]
  have hone : v 0 0 = .replicate 16 1.0 := hinitial (i := 0) rfl (List.mem_singleton_self 0) rfl
  have htwo : v 0 1 = .replicate 16 2.0 := hinitial (i := 1) rfl (List.mem_singleton_self 1) rfl
  obtain ⟨s, around, ⟨hrun, hshows⟩ | ⟨-, hend⟩⟩ := hrun
  · refine ⟨built, env', s, around, hbuild, hrun, hshows.read 0 _ ?_, ?_⟩
    · have hvisible : exchanging.visible v 3 0 = some (v 3 0) := rfl
      rw [← htwo, ← hleft, ← hright, ← hleft]
      exact hvisible
    · obtain ⟨l, hl, hframes⟩ := hshows.consumed 0 .empty rfl (by decide)
      refine ⟨l, hl, hframes.trans ?_⟩
      change #[v 0 0, v 1 0, v 2 0] = _
      rw [hleft 0, hleft 1, hright 0, hone, htwo]
  · exact absurd hend (by decide)

end FieldCircuit.Scheduler
