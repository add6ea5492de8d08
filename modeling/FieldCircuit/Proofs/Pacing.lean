import FieldCircuit.Pacing
import FieldCircuit.Proofs.Outcome

/-!
# Schedules

An open window ends at most a period from now. Opening one and sleeping until its end succeed unless a
deadline lies beyond the end of time, and a sleep is never longer than a period.
-/

namespace FieldCircuit

/-- Moments from here on cannot be written down. -/
def endOfTime : Nat := deadlineBound * nanosecondsPerSecond

namespace Pacing

/-- The deadline of an open window is at most a period away. -/
def Near (p : Pacing) (now : Nat) : Prop :=
  ∀ q d, p.period = some q → p.deadline = some d → d ≤ now + q

variable {p : Pacing} {now : Nat}

theorem Near.mono {later : Nat} (h : p.Near now) (hnow : now ≤ later) : p.Near later := by
  intro q d hq hd
  have hle := h q d hq hd
  omega

theorem moment_spec (time : Nat) : moment time = .ok time ∨
    moment time = .error .timeOverflow ∧ endOfTime ≤ time := by
  unfold moment
  by_cases h : time < deadlineBound * nanosecondsPerSecond
  · exact .inl (if_pos h)
  · exact .inr ⟨if_neg h, Nat.le_of_not_lt h⟩

theorem start_spec (h : p.Near now) :
    (∃ p', p.start now = .ok p' ∧ p'.period = p.period ∧ p'.Near now) ∨
      p.start now = .error .timeOverflow ∧ endOfTime ≤ now + p.period.getD 0 := by
  unfold start
  split
  · rename_i q hq hd
    rcases moment_spec (now + q) with hok | ⟨herror, hend⟩
    · refine .inl ⟨{ p with deadline := some (now + q) }, by rw [hok]; rfl, rfl, ?_⟩
      intro q' d' hq' hd'
      obtain rfl := Option.some.inj hd'
      exact Nat.le_of_eq (congrArg (now + ·) (Option.some.inj (hq.symm.trans hq')))
    · refine .inr ⟨by rw [herror]; rfl, ?_⟩
      rwa [hq, Option.getD_some]
  · exact .inl ⟨p, rfl, rfl, h⟩

theorem finish_spec (h : p.Near now) :
    (∃ slept p', p.finish now = .ok (slept, p') ∧ slept ≤ p.period.getD 0 ∧
      p'.period = p.period ∧ p'.Near (now + slept)) ∨
      p.finish now = .error .timeOverflow ∧ endOfTime ≤ now + 2 * p.period.getD 0 := by
  unfold finish
  split
  · rename_i q d hq hd
    have hle := h q d hq hd
    have hmax : Nat.max now d = now + (d - now) := by
      simp only [Nat.max_def]
      split <;> omega
    rcases moment_spec (Nat.max now d + q) with hok | ⟨herror, hend⟩
    · refine .inl ⟨d - now, { p with deadline := some (Nat.max now d + q) }, by rw [hok]; rfl, ?_,
        rfl, ?_⟩
      · rw [hq, Option.getD_some]
        omega
      · intro q' d' hq' hd'
        obtain rfl := Option.some.inj hd'
        obtain rfl := Option.some.inj (hq.symm.trans hq')
        exact Nat.le_of_eq (congrArg (· + q) hmax)
    · refine .inr ⟨by rw [herror]; rfl, ?_⟩
      rw [hq, Option.getD_some]
      rw [hmax] at hend
      omega
  · exact .inl ⟨0, p, rfl, Nat.zero_le _, rfl, h⟩

/-- A window is opened unless one is open, and slept through. -/
def tick (p : Pacing) (now : Nat) : Except Fault (Nat × Pacing) := do
  (← p.start now).finish now

/-- The schedules have one period, and the window of the first ends no later than that of the second. -/
structure Before (p q : Pacing) : Prop where
  period : p.period = q.period
  deadline : Option.Rel (· ≤ ·) p.deadline q.deadline

theorem moment_le {time later moment' : Nat} (h : moment later = .ok moment') (hle : time ≤ later) :
    moment time = .ok time ∧ moment' = later := by
  unfold moment at h ⊢
  by_cases hlt : later < deadlineBound * nanosecondsPerSecond
  · rw [if_pos hlt] at h
    exact ⟨if_pos (by omega), (Except.ok.inj h).symm⟩
  · rw [if_neg hlt] at h
    cases h

theorem Before.start {p q q' : Pacing} {now later : Nat} (h : p.Before q) (hnow : now ≤ later)
    (hstart : q.start later = .ok q') : ∃ p', p.start now = .ok p' ∧ p'.Before q' := by
  obtain ⟨period, deadline⟩ := p
  obtain ⟨period', deadline'⟩ := q
  obtain ⟨rfl, hdeadline⟩ := h
  cases period with
  | none => exact ⟨_, rfl, Except.ok.inj hstart ▸ ⟨rfl, hdeadline⟩⟩
  | some period => cases hdeadline with
    | some hle => exact ⟨_, rfl, Except.ok.inj hstart ▸ ⟨rfl, .some hle⟩⟩
    | none =>
        obtain ⟨end', hend, hq'⟩ := bind_eq_ok_iff.1 hstart
        obtain ⟨hmoment, rfl⟩ := moment_le hend (Nat.add_le_add_right hnow period)
        refine ⟨⟨some period, some (now + period)⟩, ?_, Except.ok.inj hq' ▸ ⟨rfl, .some ?_⟩⟩
        · exact bind_eq_ok_iff.2 ⟨_, hmoment, rfl⟩
        · exact Nat.add_le_add_right hnow period

/-- An earlier window can be slept through if a later one can, and ends no later. -/
theorem Before.finish {p q q' : Pacing} {now later slept' : Nat} (h : p.Before q)
    (hnow : now ≤ later) (hfinish : q.finish later = .ok (slept', q')) : ∃ slept p',
      p.finish now = .ok (slept, p') ∧ p'.Before q' ∧ now + slept ≤ later + slept' := by
  obtain ⟨period, deadline⟩ := p
  obtain ⟨period', deadline'⟩ := q
  obtain ⟨rfl, hdeadline⟩ := h
  cases period with
  | none =>
      obtain ⟨rfl, rfl⟩ := Prod.mk.inj (Except.ok.inj hfinish)
      exact ⟨0, _, rfl, ⟨rfl, hdeadline⟩, hnow⟩
  | some period => cases hdeadline with
    | none =>
        obtain ⟨rfl, rfl⟩ := Prod.mk.inj (Except.ok.inj hfinish)
        exact ⟨0, _, rfl, ⟨rfl, .none⟩, hnow⟩
    | @some d d' hle =>
        have hmax : Nat.max now d ≤ Nat.max later d' := by
          simp only [Nat.max_def]
          split <;> split <;> omega
        obtain ⟨end', hend, hq'⟩ := bind_eq_ok_iff.1 hfinish
        obtain ⟨hmoment, rfl⟩ := moment_le hend (Nat.add_le_add_right hmax period)
        obtain ⟨rfl, rfl⟩ := Prod.mk.inj (Except.ok.inj hq')
        refine ⟨d - now, ⟨some period, some (Nat.max now d + period)⟩, ?_, ⟨rfl, .some ?_⟩, ?_⟩
        · exact bind_eq_ok_iff.2 ⟨_, hmoment, rfl⟩
        · exact Nat.add_le_add_right hmax period
        · omega

/-- What is early enough stays so, and cannot fail where what is later does not. -/
theorem Before.tick {p q q' : Pacing} {now later slept' : Nat} (h : p.Before q) (hnow : now ≤ later)
    (htick : q.tick later = .ok (slept', q')) : ∃ slept p',
      p.tick now = .ok (slept, p') ∧ p'.Before q' ∧ now + slept ≤ later + slept' := by
  obtain ⟨opened, hstart, hfinish⟩ := bind_eq_ok_iff.1 htick
  obtain ⟨p', hstart', h'⟩ := h.start hnow hstart
  obtain ⟨slept, p'', hfinish', hbefore, hle⟩ := h'.finish hnow hfinish
  exact ⟨slept, p'', bind_eq_ok_iff.2 ⟨p', hstart', hfinish'⟩, hbefore, hle⟩

end Pacing

end FieldCircuit
