import FieldCircuit.Proofs.Scheduler.Journal
import FieldCircuit.Proofs.Scheduler.Refinement

/-!
# Surroundings go on

Whatever is done with a scheduler, and whether it succeeds or not, time does not go back, and no log of
an actuator comes or goes.
-/

namespace FieldCircuit

/-- Time does not go back, and logs stay where they are. -/
structure Surroundings.Follows (a b : Surroundings) : Prop where
  now : a.now ≤ b.now
  logs : b.logs.size = a.logs.size

namespace Surroundings

variable {a b : Surroundings}

theorem Follows.refl (a : Surroundings) : a.Follows a := ⟨Nat.le_refl _, rfl⟩

theorem Follows.trans {d : Surroundings} (h : a.Follows b) (h' : b.Follows d) : a.Follows d :=
  ⟨h.now.trans h'.now, h'.logs.trans h.logs⟩

theorem follows_sleep (a : Surroundings) (duration : Nat) : a.Follows (a.sleep duration) :=
  ⟨Nat.le_add_right .., rfl⟩

theorem follows_consume (a : Surroundings) (frame : Array Float32) (actuator : Actuator) :
    a.Follows (a.consume frame actuator) := by
  cases actuator with
  | recording log => exact ⟨Nat.le_refl _, Array.size_modify ..⟩
  | discarding => exact .refl a

theorem follows_resetActuator (a : Surroundings) (actuator : Actuator) :
    a.Follows (a.resetActuator actuator) := by
  cases actuator with
  | recording log => exact ⟨Nat.le_refl _, Array.size_modify ..⟩
  | discarding => exact .refl a

end Surroundings

namespace Call

theorem surroundings_update (c : Call) (change : Register → Except CircuitError Register) :
    (c.update change).2.surroundings = c.surroundings := by
  unfold update
  split
  · rfl
  · split <;> rfl

theorem surroundings_writeZeros (c : Call) (t : FieldType) :
    (c.writeZeros t).2.surroundings = c.surroundings := by
  unfold writeZeros
  split
  · rfl
  · exact surroundings_update ..

theorem follows_computeSensor (c : Call) (k : SensorKernel) :
    c.surroundings.Follows (c.computeSensor k).2.surroundings := by
  unfold computeSensor
  cases k.pacing.start c.surroundings.now with
  | error f => exact .refl _
  | ok opened =>
      dsimp only
      generalize SensorKernel.fetch { k with pacing := opened } = fetched
      obtain ⟨frame, k'⟩ := fetched
      dsimp only
      have hsame := surroundings_update { c with action := .sensor k' } (publish frame)
      generalize update { c with action := .sensor k' } (publish frame) = result at hsame ⊢
      obtain ⟨_ | _, c'⟩ := result
      · exact hsame ▸ .refl _
      · dsimp only at hsame ⊢
        rw [hsame]
        cases k'.pacing.finish c.surroundings.now with
        | error f => exact hsame ▸ .refl _
        | ok finished => exact Surroundings.follows_sleep ..

theorem follows_compute (c : Call) (inputs : List Register) :
    c.surroundings.Follows (c.compute inputs).2.surroundings := by
  obtain ⟨a, outputs, around⟩ := c
  cases a with
  | sensor s => exact follows_computeSensor _ s
  | actuator a =>
      change around.Follows (computeActuator ⟨_, outputs, around⟩ a inputs).2.surroundings
      unfold computeActuator
      cases inputs with
      | nil => exact .refl _
      | cons r rest =>
          dsimp only
          cases r.hostValues with
          | error e => exact .refl _
          | ok frame => exact around.follows_consume frame a
  | host t f =>
      change around.Follows (computeHost ⟨_, outputs, around⟩ f inputs).2.surroundings
      unfold computeHost
      split
      · exact .refl _
      · rw [surroundings_update]
        exact .refl _
  | device | constant | recurrence => exact .refl _

theorem follows_reset (c : Call) : c.surroundings.Follows c.reset.2.surroundings := by
  unfold reset
  split
  · rw [surroundings_update]
    exact .refl _
  · rw [surroundings_writeZeros]
    exact .refl _
  · exact Surroundings.follows_resetActuator ..
  · rw [surroundings_update]
    exact .refl _
  · rw [surroundings_writeZeros]
    exact .refl _
  · exact .refl _
  · exact .refl _

end Call

namespace Scheduler

/-- Whatever the computation does to a scheduler, its surroundings only go on. -/
def GoesOn {α : Type} (m : SchedulerM α) : Prop :=
  ∀ p, Leads m p (fun _ q => p.2.Follows q.2) fun _ q => p.2.Follows q.2

namespace GoesOn

theorem bind {α β : Type} {m : SchedulerM α} {f : α → SchedulerM β} (h : GoesOn m)
    (hf : ∀ a, GoesOn (f a)) : GoesOn (m >>= f) := fun p =>
  (h p).bind fun a q hq => (hf a q).mono (fun _ _ hr => hq.trans hr) fun _ _ hr => hq.trans hr

theorem forM {α : Type} {l : List α} {f : α → SchedulerM PUnit} (h : ∀ a, GoesOn (f a)) :
    GoesOn (l.forM f) := fun p =>
  Leads.forM (.refl p.2) fun a _ q hq =>
    (h a q).mono (fun _ _ hr => hq.trans hr) fun _ _ hr => hq.trans hr

theorem update {f : Scheduler × Surroundings → Scheduler × Surroundings}
    (h : ∀ p : Scheduler × Surroundings, p.2.Follows (f p).2) : GoesOn (modify f) :=
  fun p => .update (h p)

theorem lift {α : Type} (x : Except CircuitError α) : GoesOn (liftM x) := by
  intro p
  cases x with
  | ok a => exact .of_ok rfl (.refl p.2)
  | error e => exact .of_error rfl (.refl p.2)

theorem get : GoesOn MonadState.get := fun p => .of_ok rfl (.refl p.2)

end GoesOn

theorem goesOn_call (i : KernelId) {f : List Register → Call → Except CircuitError Unit × Call}
    (hf : ∀ inputs (c : Call), c.surroundings.Follows (f inputs c).2.surroundings) :
    GoesOn (call i f) := by
  rintro ⟨s, around⟩
  refine Leads.of_end ?_
  simp only [call, ExceptT.run_mk, StateT.run]
  cases henter : s.enter around i with
  | error e => exact .refl _
  | ok entered =>
      obtain ⟨inputs, before⟩ := entered
      obtain ⟨_, -, -, rfl, -⟩ := enter_eq_ok henter
      exact hf inputs before

theorem goesOn_syncRegister (side : Side) (r : RegisterId) : GoesOn (syncRegister side r) := by
  rintro ⟨s, around⟩
  refine Leads.of_end ?_
  simp only [syncRegister, ExceptT.run_mk, StateT.run]
  split
  · exact .refl _
  · split <;> exact .refl _

theorem goesOn_runKernel (i : KernelId) : GoesOn (runKernel i) := by
  have hcall := goesOn_call i fun inputs c => c.follows_compute inputs
  unfold runKernel
  refine GoesOn.get.bind fun p => (GoesOn.lift _).bind fun k => ?_
  cases k.kind.inputSide with
  | none => exact hcall
  | some side => exact (GoesOn.forM (goesOn_syncRegister side)).bind fun _ => hcall

theorem goesOn_onLatches
    (f : Latch → Array Register → Except CircuitError Unit × Latch × Array Register) :
    GoesOn (onLatches f) := by
  rintro ⟨s, around⟩
  refine Leads.of_end ?_
  rw [onLatches_run rfl]
  exact .refl _

theorem goesOn_step : GoesOn step := by
  have hsweep : ∀ order, GoesOn (sweep order) := fun order =>
    (GoesOn.forM goesOn_runKernel).bind fun _ => (goesOn_onLatches _).bind fun _ => goesOn_onLatches _
  rintro ⟨s, around⟩
  by_cases hphase : s.phase = .unreset
  · exact .of_error (step_run_unreset hphase around) (.refl _)
  · exact leads_step_of hphase (hsweep s.order (s.withPhase .stepping, around))

theorem goesOn_reset : GoesOn reset := by
  unfold reset
  refine GoesOn.get.bind fun p => (GoesOn.lift _).bind fun _ => ?_
  refine GoesOn.bind (GoesOn.update fun p => .refl p.2) fun _ => GoesOn.bind ?_ fun _ => ?_
  · exact GoesOn.forM fun i => goesOn_call i fun _ c => c.follows_reset
  · exact GoesOn.update fun p => .refl p.2

theorem goesOn_perform (u : Use) : GoesOn u.perform := by
  cases u with
  | reset => exact goesOn_reset
  | step => exact goesOn_step
  | read r =>
      refine GoesOn.update fun p => ?_
      dsimp only
      split <;> exact .refl p.2
  | wait duration => exact .update fun p => p.2.follows_sleep duration

theorem follows_after (uses : List Use) (p : Scheduler × Surroundings) :
    p.2.Follows (after uses p).2 := by
  induction uses generalizing p with
  | nil => exact .refl p.2
  | cons u uses ih => exact Surroundings.Follows.trans (goesOn_perform u p).of_both (ih _)

end Scheduler

end FieldCircuit
