import FieldCircuit.Proofs.Scheduler.Refinement

/-!
# Schedulers that are in use

Before its first reset a scheduler does nothing, and a reset is refused as long as a recurrence has no
driver. So a scheduler that has been reset, or that can be, has a circuit that can be operated, and it
represents a state of the machine of that circuit.
-/

namespace FieldCircuit.Scheduler

namespace Represents

variable {c : Circuit Action} {order : List KernelId} {phase : Phase} {x : Snapshot}
  {s : Scheduler} {around : Surroundings}

/-- A scheduler whose bindings are accepted has a driver for every recurrence. -/
theorem bound_of_checkBindings (h : s.Represents c order phase x around)
    (hcheck : s.checkBindings = .ok ()) : c.Bound := by
  intro b hb
  obtain ⟨l, hl, hattends⟩ := forall₂_exists_right h.latches hb
  have haccepted := forM_eq_ok_iff.1 hcheck l hl
  rw [hattends.driver] at haccepted
  by_contra hnone
  rw [if_neg hnone] at haccepted
  obtain ⟨_, -, hthrow⟩ := bind_eq_ok_iff.1 haccepted
  cases hthrow

/-- A reset is refused when a recurrence has no driver, and nothing changes. -/
theorem reset_unbound (h : s.Represents c order phase x around) (hbound : ¬ c.Bound) :
    ∃ e, Scheduler.reset.run.run (s, around) = (.error e, s, around) := by
  cases hcheck : s.checkBindings with
  | ok _ => exact absurd (h.bound_of_checkBindings hcheck) hbound
  | error e =>
      refine ⟨e, ?_⟩
      unfold Scheduler.reset
      rw [run_bind, run_get]
      dsimp only
      rw [run_bind, hcheck]
      rfl

/-- As long as a recurrence has no driver, a scheduler is not reset, whatever is done with it. -/
theorem after_unbound (h : s.Represents c order .unreset x around) (hbound : ¬ c.Bound)
    (uses : List Use) : (Scheduler.after uses (s, around)).1.Represents c order .unreset x
      (Scheduler.after uses (s, around)).2 := by
  induction uses generalizing s around with
  | nil => exact h
  | cons u uses ih =>
      refine ih ?_
      cases u with
      | reset =>
          obtain ⟨e, hrun⟩ := h.reset_unbound hbound
          rw [Use.perform, hrun]
          exact h
      | step =>
          rw [Use.perform, step_run_unreset h.phase]
          exact h
      | read r =>
          obtain ⟨s', hrun, h'⟩ := h.perform_read r
          rw [hrun]
          exact h'
      | wait duration => exact h.sleep duration

end Represents

structure InUse (s : Scheduler) (around : Surroundings) (phase : Phase) (x : Snapshot) : Prop where
  represents : s.Represents s.circuit s.order phase x around
  wellFormed : s.circuit.WellFormed
  tracks : x.Tracks s.circuit
  /-- A scheduler that may be stepped has been reset. -/
  bound : phase ≠ .unreset → s.circuit.Bound
  operable : s.circuit.Bound → s.circuit.Operable s.order

/-- The circuit has been constructed by requests, and its scheduler has been built and used. -/
theorem inUse_after {env env' : Environment} (henv : env.Sound) (requests : List Circuit.Request)
    {built s : Scheduler} {start around : Surroundings}
    (hbuild : (build (Circuit.construct env requests).1).run.run
      (Circuit.construct env requests).2 = (.ok built, env'))
    {earlier : List Use} (hearlier : after earlier (built, start) = (s, around)) :
    ∃ phase x, s.InUse around phase x := by
  obtain ⟨hvalid, hsound⟩ := Circuit.construct_spec henv requests
  have hbuilt := built_of_build hsound hbuild
  obtain ⟨y, hstart⟩ := hbuilt.represents hvalid start
  have hcircuit : ∀ {phase x}, s.Represents (Circuit.construct env requests).1 built.order phase x
      around → (phase ≠ .unreset → (Circuit.construct env requests).1.Bound) →
        s.InUse around phase x := by
    intro phase x h hreset
    refine ⟨h.order ▸ h.rebase, h.wellFormed hvalid.wellFormed, h.tracks hvalid.wellFormed,
      fun hphase => ?_, fun hbound => ?_⟩
    · rw [Circuit.Bound, h.recurrences]
      exact hreset hphase
    · rw [Circuit.Bound, h.recurrences] at hbound
      exact h.order ▸ h.operable (hbuilt.operable hvalid.wellFormed hbound)
  by_cases hbound : (Circuit.construct env requests).1.Bound
  · obtain ⟨phase, x, h⟩ := hstart.after (hbuilt.operable hvalid.wellFormed hbound) earlier
    rw [hearlier] at h
    exact ⟨phase, x, hcircuit h fun _ => hbound⟩
  · have h := hstart.after_unbound hbound earlier
    rw [hearlier] at h
    exact ⟨.unreset, y, hcircuit h fun hreset => absurd rfl hreset⟩

end FieldCircuit.Scheduler
