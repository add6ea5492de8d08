import FieldCircuit.Proofs.Decimal.Rounding
import FieldCircuit.Proofs.DoublePrecision
import FieldCircuit.Proofs.PacedCalls

/-!
# Which rates can be kept

A rate that is positive and finite is kept with windows of one period, the nanoseconds of its reciprocal.
From a rate of `2 ^ -64` downwards no such period can be written down, and from `2 ^ -63` downwards not even
the first window has an end. With every other rate nothing fails before the time itself comes within two
periods of its end. Rates that are zero, negative, infinite or undefined do not make anything wait.
-/

namespace FieldCircuit

theorem endOfTime_cast : (endOfTime : ℚ) = 2 ^ 63 * 1000000000 := by
  norm_num [endOfTime, deadlineBound, nanosecondsPerSecond]

/-- A finite number of seconds is written down in nanoseconds if it is small enough. -/
theorem nanoseconds_spec {y : Float} (hfinite : isFiniteDouble y = true) :
    (2 ^ 64 ≤ Double.value y → nanoseconds y = .error .timeOverflow) ∧
      (Double.value y < 2 ^ 64 → ∃ q, nanoseconds y = .ok q ∧
        |(q : ℚ) - Double.value y * 1000000000| ≤ 1 / 2) := by
  have hden : (0 : ℚ) < Double.unitsPerOne := by
    rw [Double.unitsPerOne_cast]
    exact zpow_pos two_pos _
  have hbound : durationBound * Double.unitsPerOne ≤ Double.units y ↔ 2 ^ 64 ≤ Double.value y := by
    have hcast : (durationBound : ℚ) = 2 ^ 64 := by norm_num [durationBound]
    rw [Double.value, le_div_iff₀ hden, ← hcast, ← Nat.cast_mul, Nat.cast_le]
  unfold nanoseconds
  rw [Double.doubleRatio_eq]
  simp only [hfinite, Bool.not_true, Bool.false_or, decide_eq_true_eq, hbound]
  refine ⟨fun hle => if_pos hle, fun hlt => ⟨_, if_neg (not_le.2 hlt), ?_⟩⟩
  have hnear := Decimal.roundDiv_near (Double.units y * nanosecondsPerSecond)
    (by exact_mod_cast hden : 0 < Double.unitsPerOne)
  rwa [Nat.cast_mul, nanosecondsPerSecond, Nat.cast_ofNat, mul_div_right_comm, ← Double.value] at hnear

namespace Rate

def value (rate : Rate) : ℚ := Double.value rate.hertz

def Kept (rate : Rate) : Prop := 0.0 < rate.hertz ∧ isFiniteDouble rate.hertz = true

end Rate

namespace Pacing

theorem ofRate_of_not_kept {rate : Rate} (h : ¬ rate.Kept) : ofRate rate = .ok (fresh none) := by
  refine if_neg fun hkept => h ?_
  rwa [Bool.and_eq_true, decide_eq_true_eq] at hkept

theorem near_of_rounded {q y x : ℚ} (hround : |q - y * 1000000000| ≤ 1 / 2)
    (hnear : |y - 1 / x| ≤ 1 / x / 2 ^ 52 + 1 / 2 ^ 100) :
    |q - 1000000000 / x| ≤ 1 + 1000000000 / x / 2 ^ 52 := by
  have hsplit : q - 1000000000 / x = (q - y * 1000000000) + (y - 1 / x) * 1000000000 := by ring
  have hscaled : |(y - 1 / x) * 1000000000| ≤ (1 / x / 2 ^ 52 + 1 / 2 ^ 100) * 1000000000 := by
    rw [abs_mul, abs_of_pos (by norm_num : (0 : ℚ) < 1000000000)]
    exact mul_le_mul_of_nonneg_right hnear (by norm_num)
  calc |q - 1000000000 / x| ≤ |q - y * 1000000000| + |(y - 1 / x) * 1000000000| := by
        rw [hsplit]
        exact abs_add_le _ _
    _ ≤ 1 / 2 + (1 / x / 2 ^ 52 + 1 / 2 ^ 100) * 1000000000 := add_le_add hround hscaled
    _ = 1 / 2 + 1000000000 / 2 ^ 100 + 1000000000 / x / 2 ^ 52 := by ring
    _ ≤ 1 + 1000000000 / x / 2 ^ 52 := by
        gcongr
        norm_num

theorem endOfTime_le_iff {q : Nat} {y : ℚ} (hround : |(q : ℚ) - y * 1000000000| ≤ 1 / 2)
    (hgap : y < 2 ^ 63 → y + 1 ≤ 2 ^ 63) : endOfTime ≤ q ↔ 2 ^ 63 ≤ y := by
  obtain ⟨hlo, hhi⟩ := abs_le.1 hround
  constructor
  · intro hend
    by_contra hbelow
    have hone := hgap (not_le.1 hbelow)
    have hcast : (2 : ℚ) ^ 63 * 1000000000 ≤ q := endOfTime_cast ▸ Nat.cast_le.2 hend
    linarith
  · intro hle
    by_contra hbelow
    have hcast : (q : ℚ) + 1 ≤ 2 ^ 63 * 1000000000 := by
      rw [← endOfTime_cast]
      exact_mod_cast Nat.succ_le_of_lt (not_le.1 hbelow)
    linarith

/-- The period of a rate that is kept can be written down unless the rate is too small. It is near the
reciprocal of the rate, and longer than all time if the rate is still too small. -/
theorem ofRate_of_kept {rate : Rate} (h : rate.Kept) :
    (rate.value ≤ 1 / 2 ^ 64 → ofRate rate = .error .timeOverflow) ∧
      (1 / 2 ^ 64 < rate.value → ∃ q, ofRate rate = .ok (fresh (some q)) ∧
        |(q : ℚ) - 1000000000 / rate.value| ≤ 1 + 1000000000 / rate.value / 2 ^ 52 ∧
        (endOfTime ≤ q ↔ rate.value ≤ 1 / 2 ^ 63)) := by
  have hrate : ofRate rate = (nanoseconds (1.0 / rate.hertz)).bind fun q => .ok (fresh (some q)) := by
    refine if_pos ?_
    rw [Bool.and_eq_true, decide_eq_true_eq]
    exact h
  have hvalue : rate.value = Double.value rate.hertz := rfl
  rw [hvalue]
  obtain ⟨-, ⟨hinfinite, hsmall⟩ | ⟨hfinite, hreach, hgap, hnear⟩⟩ := Double.reciprocal_spec h.1 h.2
  · have herror : nanoseconds (1.0 / rate.hertz) = .error .timeOverflow := by
      unfold nanoseconds
      rw [Double.doubleRatio_eq]
      simp only [hinfinite, Bool.not_false, Bool.true_or, if_true]
    exact ⟨fun _ => by rw [hrate, herror]; rfl, fun hlt => absurd hsmall (not_le.2 hlt)⟩
  · obtain ⟨herror, hok⟩ := nanoseconds_spec hfinite
    refine ⟨fun hle => by rw [hrate, herror ((hreach 64).2 hle)]; rfl, fun hlt => ?_⟩
    obtain ⟨q, hq, hround⟩ := hok (not_le.1 fun hle => absurd ((hreach 64).1 hle) (not_le.2 hlt))
    refine ⟨q, by rw [hrate, hq]; rfl, near_of_rounded hround hnear, ?_⟩
    rw [endOfTime_le_iff hround (hgap 63 (by decide)), hreach 63]

def Late (p : Pacing) (now : Nat) : Use → Prop
  | .start => ∃ q, p.period = some q ∧ p.deadline = none ∧ endOfTime ≤ now + q
  | .finish => ∃ q d, p.period = some q ∧ p.deadline = some d ∧ endOfTime ≤ max now d + q
  | .reset => False

section Failing

variable {p p' : Pacing} {now : Nat} {u : Use} {f : Fault}

theorem map_moment_eq_error_iff {α : Type} {g : Nat → α} {time : Nat} :
    (moment time).map g = .error f ↔ f = .timeOverflow ∧ endOfTime ≤ time := by
  by_cases hend : endOfTime ≤ time
  · rw [moment_of_le hend]
    exact ⟨fun h => ⟨(Except.error.inj h).symm, hend⟩, fun h => congrArg Except.error h.1.symm⟩
  · rw [moment_of_lt (Nat.lt_of_not_le hend)]
    exact ⟨fun h => (by cases h), fun h => absurd h.2 hend⟩

/-- A call fails exactly if the window that it opens would end after the end of time. -/
theorem perform_eq_error_iff : p.perform now u = .error f ↔ f = .timeOverflow ∧ p.Late now u := by
  obtain ⟨period, deadline⟩ := p
  cases u with
  | reset => exact iff_of_false (fun h => by cases h) fun h => h.2
  | start =>
      cases period with
      | none => exact iff_of_false (fun h => by cases h) (by rintro ⟨-, _, hq, -⟩; cases hq)
      | some q =>
          cases deadline with
          | some d => exact iff_of_false (fun h => by cases h) (by rintro ⟨-, _, -, hd, -⟩; cases hd)
          | none =>
              have hperform : perform ⟨some q, none⟩ now .start =
                  (moment (now + q)).map fun d => (now, ⟨some q, some d⟩) := by
                rw [perform, start_of_closed rfl rfl]
                cases moment (now + q) <;> rfl
              rw [hperform, map_moment_eq_error_iff]
              simp [Late]
  | finish =>
      cases period with
      | none => exact iff_of_false (fun h => by cases h) (by rintro ⟨-, _, _, hq, -⟩; cases hq)
      | some q =>
          cases deadline with
          | none =>
              exact iff_of_false (fun h => by cases h) (by rintro ⟨-, _, _, -, hd, -⟩; cases hd)
          | some d =>
              have hperform : perform ⟨some q, some d⟩ now .finish =
                  (moment (max now d + q)).map
                    fun d' => (now + (d - now), ⟨some q, some d'⟩) := by
                rw [perform, finish_of_open rfl rfl]
                cases moment (max now d + q) <;> rfl
              rw [hperform, map_moment_eq_error_iff]
              simp [Late]

theorem performAll_of_perform {returned : Nat} (hfirst : p.perform now u = .ok (returned, p'))
    (uses : List (Use × Nat)) : p.performAll ((u, now) :: uses) =
      (p'.performAll uses).map fun rest => ((u, returned) :: rest.1, rest.2) := by
  rw [performAll, hfirst, ok_bind]
  dsimp only
  cases p'.performAll uses <;> rfl

theorem performAll_eq_error_iff {uses : List (Use × Nat)} :
    p.performAll uses = .error f ↔ f = .timeOverflow ∧ ∃ before u now after returns p',
      uses = before ++ (u, now) :: after ∧ p.performAll before = .ok (returns, p') ∧
        p'.Late now u := by
  induction uses generalizing p with
  | nil =>
      refine ⟨fun h => (by cases h), ?_⟩
      rintro ⟨-, before, u, now, after, _, _, huses, -⟩
      cases before <;> cases huses
  | cons use uses ih =>
      obtain ⟨u, now⟩ := use
      cases hfirst : p.perform now u with
      | error f' =>
          have hall : p.performAll ((u, now) :: uses) = .error f' := by
            rw [performAll, hfirst, error_bind]
          obtain ⟨rfl, hlate⟩ := perform_eq_error_iff.1 hfirst
          rw [hall]
          constructor
          · intro h
            cases h
            exact ⟨rfl, [], u, now, uses, [], p, rfl, rfl, hlate⟩
          · rintro ⟨rfl, -⟩
            rfl
      | ok result =>
          obtain ⟨returned, p₁⟩ := result
          have hall : p.performAll ((u, now) :: uses) = .error f ↔ p₁.performAll uses = .error f := by
            rw [performAll_of_perform hfirst]
            cases p₁.performAll uses with
            | error f' => exact Iff.rfl
            | ok rest => exact iff_of_false (fun h => by cases h) (fun h => by cases h)
          rw [hall, ih]
          refine and_congr_right fun _ => ?_
          constructor
          · rintro ⟨before, u', now', after, returns, p', rfl, hbefore, hlate⟩
            refine ⟨(u, now) :: before, u', now', after, (u, returned) :: returns, p', rfl, ?_, hlate⟩
            rw [performAll_of_perform hfirst, hbefore]
            rfl
          · rintro ⟨before, u', now', after, returns, p', huses, hbefore, hlate⟩
            cases before with
            | nil =>
                obtain ⟨-, rfl⟩ := Prod.mk.inj (Except.ok.inj hbefore)
                obtain ⟨hhead, -⟩ := List.cons.inj huses
                obtain ⟨rfl, rfl⟩ := Prod.mk.inj hhead
                have hfails : p.perform now u = .error .timeOverflow :=
                  perform_eq_error_iff.2 ⟨rfl, hlate⟩
                rw [hfails] at hfirst
                cases hfirst
            | cons use before =>
                obtain ⟨rfl, rfl⟩ := List.cons.inj huses
                obtain ⟨returned', p₂, later, hfirst', hrest, -⟩ := performAll_cons hbefore
                obtain ⟨-, rfl⟩ := Prod.mk.inj (Except.ok.inj (hfirst.symm.trans hfirst'))
                exact ⟨before, u', now', after, later, p', rfl, hrest, hlate⟩

/-- Every call is made when the one before it has returned, or later. -/
def OnClock : Pacing → Nat → List (Use × Nat) → Prop
  | _, _, [] => True
  | p, past, (u, now) :: rest => past ≤ now ∧
      ∀ returned p', p.perform now u = .ok (returned, p') → OnClock p' returned rest

theorem OnClock.cons {past returned : Nat} {uses : List (Use × Nat)} (hpast : past ≤ now)
    (hfirst : p.perform now u = .ok (returned, p')) (huses : p'.OnClock returned uses) :
    p.OnClock past ((u, now) :: uses) := by
  refine ⟨hpast, fun returned' p₁ hfirst' => ?_⟩
  obtain ⟨rfl, rfl⟩ := Prod.mk.inj (Except.ok.inj (hfirst.symm.trans hfirst'))
  exact huses

/-- On a clock no call fails before the time comes within two periods of its end. -/
theorem performAll_onClock {q past : Nat} (hq : p.period = some q) (hnear : p.Near past)
    {uses : List (Use × Nat)} (huses : p.OnClock past uses)
    (hroom : ∀ use ∈ uses, use.2 + 2 * q < endOfTime) : ∃ result, p.performAll uses = .ok result := by
  induction uses generalizing p past with
  | nil => exact ⟨_, rfl⟩
  | cons use uses ih =>
      obtain ⟨u, now⟩ := use
      obtain ⟨hpast, hrest⟩ := huses
      have hnow := hroom _ List.mem_cons_self
      have hperiod : p.period.getD 0 = q := by rw [hq, Option.getD_some]
      obtain ⟨returned, p', hfirst, hnear'⟩ : ∃ returned p',
          p.perform now u = .ok (returned, p') ∧ p'.Near returned := by
        cases u with
        | reset => exact ⟨now, p.reset, rfl, fun _ _ _ hd => by cases hd⟩
        | start =>
            rcases start_spec (hnear.mono hpast) with ⟨p', hstart, -, hnear'⟩ | ⟨-, hend⟩
            · exact ⟨now, p', by rw [perform, hstart, ok_bind]; rfl, hnear'⟩
            · rw [hperiod] at hend
              omega
        | finish =>
            rcases finish_spec (hnear.mono hpast) with ⟨slept, p', hfinish, -, -, hnear'⟩ | ⟨-, hend⟩
            · exact ⟨now + slept, p', by rw [perform, hfinish, ok_bind]; rfl, hnear'⟩
            · rw [hperiod] at hend
              omega
      obtain ⟨⟨returns, p''⟩, hlater⟩ := ih ((period_perform hfirst).trans hq) hnear'
        (hrest returned p' hfirst) fun use huse => hroom use (List.mem_cons_of_mem _ huse)
      exact ⟨_, by rw [performAll_of_perform hfirst, hlater]; rfl⟩

end Failing

theorem performAll_fresh_none (uses : List (Use × Nat)) :
    (fresh none).performAll uses = .ok (uses, fresh none) := by
  induction uses with
  | nil => rfl
  | cons use uses ih =>
      obtain ⟨u, now⟩ := use
      have hfirst : (fresh none).perform now u = .ok (now, fresh none) := by cases u <;> rfl
      rw [performAll_of_perform hfirst, ih]
      rfl

/-- Which rates are kept, and when keeping them fails. -/
structure Outcome (rate : Rate) : Prop where
  /-- Nothing waits for rates that are not positive and finite. -/
  unkept : ¬ rate.Kept → ofRate rate = .ok (fresh none) ∧
    ∀ uses, (fresh none).performAll uses = .ok (uses, fresh none)
  /-- The period of the smallest rates cannot be written down. -/
  smallest : rate.Kept → rate.value ≤ 1 / 2 ^ 64 → ofRate rate = .error .timeOverflow
  /-- All other rates have a period, the nanoseconds of the reciprocal of the rate. -/
  kept : rate.Kept → 1 / 2 ^ 64 < rate.value → ∃ q, ofRate rate = .ok (fresh (some q)) ∧
    |(q : ℚ) - 1000000000 / rate.value| ≤ 1 + 1000000000 / rate.value / 2 ^ 52 ∧
    -- if it is too long, no window can be opened at any time
    ((∀ now, (fresh (some q)).start now = .error .timeOverflow) ↔ rate.value ≤ 1 / 2 ^ 63) ∧
    -- uses fail only if a window would end after the end of time
    (∀ uses f, (fresh (some q)).performAll uses = .error f ↔ f = .timeOverflow ∧
      ∃ before u now after returns p', uses = before ++ (u, now) :: after ∧
        (fresh (some q)).performAll before = .ok (returns, p') ∧ p'.Late now u) ∧
    -- so that they do not fail on a clock that is at least two periods before the end of time
    ∀ uses, (fresh (some q)).OnClock 0 uses → (∀ use ∈ uses, use.2 + 2 * q < endOfTime) →
      ∃ result, (fresh (some q)).performAll uses = .ok result

/-- Pacing fails for small rates, and for other rates at the end of time. -/
theorem outcome_of_rate (rate : Rate) : Outcome rate where
  unkept := fun h => ⟨ofRate_of_not_kept h, performAll_fresh_none⟩
  smallest := fun h => (ofRate_of_kept h).1
  kept := by
    intro h hlt
    obtain ⟨q, hq, hnear, hend⟩ := (ofRate_of_kept h).2 hlt
    refine ⟨q, hq, hnear, ?_, fun uses f => performAll_eq_error_iff, fun uses huses hroom => ?_⟩
    · rw [← hend]
      constructor
      · intro hstart
        by_contra hlate
        have hzero := hstart 0
        rw [start_of_closed rfl rfl, moment_of_lt (by omega)] at hzero
        cases hzero
      · intro hlate now
        rw [start_of_closed rfl rfl, moment_of_le (hlate.trans (Nat.le_add_left q now))]
        rfl
    · exact performAll_onClock rfl (fun _ _ _ hd => by cases hd) huses hroom

/-- A window a second long is opened, slept through and closed, one cycle in `2 ^ 64` seconds is too few, and
the undefined rate makes nothing wait. -/
theorem outcome_of_rate_second :
    (∃ result, (fresh (some 1000000000)).performAll
      [(.start, 2), (.finish, 3), (.finish, 1000000009), (.reset, 3000000000)] = .ok result) ∧
    ofRate ⟨0x3BF0000000000000⟩ = .error .timeOverflow ∧
    ofRate ⟨0x7FF8000000000000⟩ = .ok (fresh none) := by
  have hone : Rate.value ⟨0x3FF0000000000000⟩ = 1 := by
    have hunits : Double.units (Rate.hertz ⟨0x3FF0000000000000⟩) =
        2 ^ 52 * 2 ^ (-52 + 1074 : Int).toNat := by decide +kernel
    rw [Rate.value, Double.value_eq (by decide) hunits]
    norm_num
  have hsmall : Rate.value ⟨0x3BF0000000000000⟩ = 1 / 2 ^ 64 := by
    have hunits : Double.units (Rate.hertz ⟨0x3BF0000000000000⟩) =
        2 ^ 52 * 2 ^ (-116 + 1074 : Int).toNat := by decide +kernel
    rw [Rate.value, Double.value_eq (by decide) hunits]
    norm_num
  refine ⟨?_, ?_, ?_⟩
  · obtain ⟨q, hq, -, -, -, hclock⟩ := (outcome_of_rate ⟨0x3FF0000000000000⟩).kept
      ⟨by decide +kernel, by decide +kernel⟩ (by rw [hone]; norm_num)
    have hsecond : ofRate ⟨0x3FF0000000000000⟩ = .ok (fresh (some 1000000000)) := by decide +kernel
    obtain rfl : 1000000000 = q := Option.some.inj
      (congrArg Pacing.period (Except.ok.inj (hsecond.symm.trans hq)))
    exact hclock _ (.cons (by decide) rfl (.cons (by decide) rfl (.cons (by decide) rfl
      (.cons (by decide) rfl trivial)))) (by decide)
  · exact (outcome_of_rate ⟨0x3BF0000000000000⟩).smallest ⟨by decide +kernel, by decide +kernel⟩ hsmall.le
  · refine ((outcome_of_rate ⟨0x7FF8000000000000⟩).unkept ?_).1
    exact fun h => absurd h.1 (by decide +kernel)

/-- One cycle in `2 ^ 64` seconds has no period, and one in `2 ^ 63` seconds no first window. -/
theorem performAll_ofRate_fails :
    (Rate.Kept ⟨0x3BF0000000000000⟩ ∧ ofRate ⟨0x3BF0000000000000⟩ = .error .timeOverflow) ∧
    Rate.Kept ⟨0x3C00000000000000⟩ ∧
      (ofRate ⟨0x3C00000000000000⟩ >>= fun p => p.performAll [(.start, 0)]) =
        .error .timeOverflow := by
  refine ⟨⟨⟨?_, ?_⟩, ?_⟩, ⟨?_, ?_⟩, ?_⟩ <;> decide +kernel

end Pacing

end FieldCircuit
