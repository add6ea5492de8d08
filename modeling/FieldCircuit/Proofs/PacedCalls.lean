import FieldCircuit.Proofs.Pacing

/-!
# Paced calls

Windows are opened, slept through and closed at any times and in any order. Whatever was done before,
finishing in an open window returns at its end, or at once if that is over, and the next window ends a
period after the return. Between two resets the finishes therefore return at least a period apart,
however early or late they are called: the deadline that is stored is always a period after the last
return, or after the start that has opened the schedule. Nothing is assumed about the times of the
calls.
-/

namespace FieldCircuit.Pacing

inductive Use
  | start
  | finish
  | reset
  deriving DecidableEq, Repr

def fresh (period : Option Nat) : Pacing := ⟨period, none⟩

/-- Uses a schedule at a time. The first component is the time when that returns. -/
def perform (p : Pacing) (now : Nat) : Use → Except Fault (Nat × Pacing)
  | .start => do return (now, ← p.start now)
  | .finish => do
    let (slept, p) ← p.finish now
    return (now + slept, p)
  | .reset => .ok (now, p.reset)

/-- Uses a schedule, each time at the given time. The first component has the times of the returns. -/
def performAll (p : Pacing) : List (Use × Nat) → Except Fault (List (Use × Nat) × Pacing)
  | [] => .ok ([], p)
  | (u, now) :: rest => do
    let (returned, p) ← p.perform now u
    let (returns, p) ← performAll p rest
    return ((u, returned) :: returns, p)

def finishes (returns : List (Use × Nat)) : List Nat :=
  (returns.filter (·.1 = .finish)).map Prod.snd

variable {p p' : Pacing} {now r q d : Nat}

theorem performAll_cons {u : Use} {rest returns : List (Use × Nat)}
    (h : p.performAll ((u, now) :: rest) = .ok (returns, p')) : ∃ returned p₁ later,
      p.perform now u = .ok (returned, p₁) ∧ p₁.performAll rest = .ok (later, p') ∧
        returns = (u, returned) :: later := by
  obtain ⟨⟨returned, p₁⟩, hfirst, h⟩ := bind_eq_ok_iff.1 h
  obtain ⟨⟨later, p₂⟩, hrest, h⟩ := bind_eq_ok_iff.1 h
  obtain ⟨rfl, rfl⟩ := Prod.mk.inj (Except.ok.inj h)
  exact ⟨returned, p₁, later, hfirst, hrest, rfl⟩

theorem moment_of_lt {time : Nat} (h : time < endOfTime) : moment time = .ok time := if_pos h

theorem moment_of_le {time : Nat} (h : endOfTime ≤ time) : moment time = .error .timeOverflow :=
  if_neg (Nat.not_lt.2 h)

theorem start_of_open (hd : p.deadline = some d) (now : Nat) : p.start now = .ok p := by
  unfold start
  rw [hd]
  cases p.period <;> rfl

theorem finish_of_closed (hd : p.deadline = none) (now : Nat) : p.finish now = .ok (0, p) := by
  unfold finish
  rw [hd]
  cases p.period <;> rfl

theorem start_of_closed (hq : p.period = some q) (hd : p.deadline = none) (now : Nat) :
    p.start now = (moment (now + q)).map fun d => ⟨some q, some d⟩ := by
  obtain ⟨_, _⟩ := p
  obtain rfl := hq
  obtain rfl := hd
  rfl

/-- The sleep lasts until the end of the window, and the next window ends a period after that. -/
theorem finish_of_open (hq : p.period = some q) (hd : p.deadline = some d) (now : Nat) :
    p.finish now = (moment (max now d + q)).map fun d' => (d - now, ⟨some q, some d'⟩) := by
  obtain ⟨_, _⟩ := p
  obtain rfl := hq
  obtain rfl := hd
  rfl

/-- A finish in an open window returns when the window is over, and a period before the next one. -/
theorem perform_finish (hq : p.period = some q) (hd : p.deadline = some d)
    (h : p.perform now .finish = .ok (r, p')) :
    r = max now d ∧ p'.period = some q ∧ p'.deadline = some (r + q) := by
  obtain ⟨⟨slept, p₁⟩, hfinish, h⟩ := bind_eq_ok_iff.1 h
  obtain ⟨rfl, rfl⟩ := Prod.mk.inj (Except.ok.inj h)
  rw [finish_of_open hq hd] at hfinish
  obtain ⟨d', hd', hp⟩ := map_eq_ok_iff.1 hfinish
  obtain ⟨-, rfl⟩ := moment_le hd' (Nat.le_refl _)
  obtain ⟨rfl, rfl⟩ := Prod.mk.inj hp
  have hreturn : now + (d - now) = max now d := by omega
  exact ⟨hreturn, rfl, congrArg some (congrArg (· + q) hreturn.symm)⟩

theorem perform_start_of_closed (hq : p.period = some q) (hd : p.deadline = none)
    (h : p.perform now .start = .ok (r, p')) :
    p'.period = some q ∧ p'.deadline = some (now + q) := by
  obtain ⟨p₁, hstart, h⟩ := bind_eq_ok_iff.1 h
  obtain ⟨-, rfl⟩ := Prod.mk.inj (Except.ok.inj h)
  rw [start_of_closed hq hd] at hstart
  obtain ⟨d', hd', rfl⟩ := map_eq_ok_iff.1 hstart
  obtain ⟨-, rfl⟩ := moment_le hd' (Nat.le_refl _)
  exact ⟨rfl, rfl⟩

theorem period_perform {u : Use} (h : p.perform now u = .ok (r, p')) : p'.period = p.period := by
  cases u with
  | reset =>
      obtain ⟨-, rfl⟩ := Prod.mk.inj (Except.ok.inj h)
      rfl
  | start =>
      obtain ⟨p₁, hstart, h⟩ := bind_eq_ok_iff.1 h
      obtain ⟨-, rfl⟩ := Prod.mk.inj (Except.ok.inj h)
      unfold start at hstart
      split at hstart
      · obtain ⟨_, -, hp⟩ := bind_eq_ok_iff.1 hstart
        rw [← Except.ok.inj hp]
      · rw [Except.ok.inj hstart]
  | finish =>
      obtain ⟨⟨slept, p₁⟩, hfinish, h⟩ := bind_eq_ok_iff.1 h
      obtain ⟨-, rfl⟩ := Prod.mk.inj (Except.ok.inj h)
      unfold finish at hfinish
      split at hfinish
      · obtain ⟨_, -, hp⟩ := bind_eq_ok_iff.1 hfinish
        obtain ⟨-, rfl⟩ := Prod.mk.inj (Except.ok.inj hp)
        rfl
      · obtain ⟨-, rfl⟩ := Prod.mk.inj (Except.ok.inj hfinish)
        rfl

theorem deadline_perform {u : Use} (h : p.perform now u = .ok (r, p'))
    (hp : p.period = none → p.deadline = none) : p'.period = none → p'.deadline = none := by
  intro hnone
  have hperiod : p.period = none := (period_perform h).symm.trans hnone
  obtain ⟨period, deadline⟩ := p
  obtain rfl : period = none := hperiod
  obtain rfl : deadline = none := hp rfl
  cases u <;> obtain ⟨-, rfl⟩ := Prod.mk.inj (Except.ok.inj h) <;> rfl

theorem reached_of_performAll {uses returns : List (Use × Nat)}
    (h : p.performAll uses = .ok (returns, p')) (hp : p.period = none → p.deadline = none) :
    p'.period = p.period ∧ (p'.period = none → p'.deadline = none) := by
  induction uses generalizing p returns with
  | nil =>
      obtain ⟨-, rfl⟩ := Prod.mk.inj (Except.ok.inj h)
      exact ⟨rfl, hp⟩
  | cons use uses ih =>
      obtain ⟨u, now⟩ := use
      obtain ⟨_, p₁, _, hfirst, hrest, -⟩ := performAll_cons h
      obtain ⟨hperiod, hdeadline⟩ := ih hrest (deadline_perform hfirst hp)
      exact ⟨hperiod.trans (period_perform hfirst), hdeadline⟩

/-- From an open window on, and until it is closed, finishes return a period apart, and the first one
not before the end of the window. -/
theorem finishes_spaced (hq : p.period = some q) (hd : p.deadline = some d)
    {uses returns : List (Use × Nat)} (h : p.performAll uses = .ok (returns, p'))
    (huses : Use.reset ∉ uses.map Prod.fst) :
    (∀ r ∈ finishes returns, d ≤ r) ∧ (finishes returns).Pairwise (fun r r' => r + q ≤ r') ∧
      ∀ (k r : Nat), (finishes returns)[k]? = some r → d + k * q ≤ r := by
  induction uses generalizing p d returns with
  | nil =>
      obtain ⟨rfl, -⟩ := Prod.mk.inj (Except.ok.inj h)
      exact ⟨fun r hr => (by cases hr), .nil, fun k r hr => by simp [finishes] at hr⟩
  | cons use uses ih =>
      obtain ⟨u, now⟩ := use
      obtain ⟨returned, p₁, later, hfirst, hrest, rfl⟩ := performAll_cons h
      obtain ⟨hu, hlater⟩ := not_or.1 (mt List.mem_cons.2 huses)
      have hmax := Nat.le_max_right now d
      cases u with
      | reset => exact absurd rfl hu
      | start =>
          rw [perform, start_of_open hd, ok_bind] at hfirst
          obtain ⟨-, rfl⟩ := Prod.mk.inj (Except.ok.inj hfirst)
          have hcons : finishes ((.start, returned) :: later) = finishes later := rfl
          rw [hcons]
          exact ih hq hd hrest hlater
      | finish =>
          obtain ⟨rfl, hq₁, hd₁⟩ := perform_finish hq hd hfirst
          obtain ⟨hlate, hapart, hcount⟩ := ih hq₁ hd₁ hrest hlater
          have hcons : finishes ((.finish, max now d) :: later) = max now d :: finishes later := rfl
          rw [hcons]
          refine ⟨fun r hr => ?_, List.pairwise_cons.2 ⟨hlate, hapart⟩, fun k r hr => ?_⟩
          · rcases List.mem_cons.1 hr with rfl | hr
            · exact hmax
            · have hle := hlate r hr
              omega
          · cases k with
            | zero =>
                rw [← Option.some.inj hr, Nat.zero_mul]
                exact hmax
            | succ k =>
                have hk := hcount k r hr
                rw [Nat.succ_mul]
                omega

/-- What a schedule with a period, or without one, guarantees from some point of its use on. -/
structure Guarantees (period : Option Nat) (p : Pacing) : Prop where
  /-- An open window is not opened again. -/
  start_open : ∀ d now, p.deadline = some d → p.start now = .ok p
  /-- Outside of windows a finish returns at once. -/
  finish_closed : ∀ now, p.deadline = none → p.finish now = .ok (0, p)
  /-- In a window a finish returns when it is over, and the next one ends a period later. -/
  finish_open : ∀ d now, p.deadline = some d → ∃ q, period = some q ∧
    (max now d + q < endOfTime → p.finish now = .ok (d - now, ⟨period, some (max now d + q)⟩) ∧
      p.perform now .finish = .ok (max now d, ⟨period, some (max now d + q)⟩)) ∧
    (endOfTime ≤ max now d + q → p.finish now = .error .timeOverflow)
  /-- A window is open for a period. -/
  start_closed : ∀ q now, period = some q → p.deadline = none →
    (now + q < endOfTime → p.start now = .ok ⟨period, some (now + q)⟩) ∧
    (endOfTime ≤ now + q → p.start now = .error .timeOverflow)
  /-- Until the next reset, finishes return at least a period apart. -/
  spaced : ∀ q (later returns : List (Use × Nat)) p', period = some q → p.deadline.isSome = true →
    Use.reset ∉ later.map Prod.fst → p.performAll later = .ok (returns, p') →
      (finishes returns).Pairwise fun r r' => r + q ≤ r'
  /-- The `k`-th finish returns at least `k` periods after the start that has opened the schedule. -/
  counted : ∀ q start (later returns : List (Use × Nat)) p', period = some q → p.deadline = none →
    Use.reset ∉ later.map Prod.fst →
      p.performAll ((.start, start) :: later) = .ok (returns, p') →
        ∀ (k r : Nat), (finishes returns)[k]? = some r → start + (k + 1) * q ≤ r

/-- However a schedule has been used, it keeps its guarantees. -/
theorem guarantees_performAll (period : Option Nat) {earlier returned : List (Use × Nat)}
    (h : (fresh period).performAll earlier = .ok (returned, p)) : Guarantees period p := by
  obtain ⟨hperiod, hclosed⟩ := reached_of_performAll h fun _ => rfl
  obtain rfl : p.period = period := hperiod
  refine ⟨fun d now hd => start_of_open hd now, fun now hd => finish_of_closed hd now, ?_, ?_, ?_, ?_⟩
  · intro d now hd
    obtain ⟨q, hq⟩ : ∃ q, p.period = some q := by
      refine Option.ne_none_iff_exists'.1 fun hnone => ?_
      rw [hclosed hnone] at hd
      cases hd
    refine ⟨q, hq, fun hlt => ?_, fun hle => ?_⟩
    · have hfinish : p.finish now = .ok (d - now, ⟨p.period, some (max now d + q)⟩) := by
        rw [finish_of_open hq hd, moment_of_lt hlt, hq]
        rfl
      have hreturn : now + (d - now) = max now d := by omega
      refine ⟨hfinish, ?_⟩
      rw [perform, hfinish, ok_bind, ← hreturn]
      rfl
    · rw [finish_of_open hq hd, moment_of_le hle]
      rfl
  · intro q now hq hd
    refine ⟨fun hlt => ?_, fun hle => ?_⟩
    · rw [start_of_closed hq hd, moment_of_lt hlt, hq]
      rfl
    · rw [start_of_closed hq hd, moment_of_le hle]
      rfl
  · intro q later returns p' hq hopen hreset hlater
    obtain ⟨d, hd⟩ := Option.isSome_iff_exists.1 hopen
    exact (finishes_spaced hq hd hlater hreset).2.1
  · intro q start later returns p' hq hd hreset hlater k r hk
    obtain ⟨_, p₁, rest, hfirst, hrest, rfl⟩ := performAll_cons hlater
    obtain ⟨hq₁, hd₁⟩ := perform_start_of_closed hq hd hfirst
    have hbound := (finishes_spaced hq₁ hd₁ hrest hreset).2.2 k r hk
    rw [Nat.succ_mul]
    omega

/-- With a period of five, the first finish waits for the window that was opened at two, the second one
is late, and after a reset the schedule begins anew. -/
theorem guarantees_performAll_five : ∃ p, (fresh (some 5)).performAll
      [(.start, 2), (.finish, 3), (.start, 8), (.finish, 30), (.reset, 31), (.start, 32)] =
        .ok ([(.start, 2), (.finish, 7), (.start, 8), (.finish, 30), (.reset, 31), (.start, 32)], p) ∧
      p.deadline = some 37 ∧ Guarantees (some 5) p := by
  have huses : (fresh (some 5)).performAll
      [(.start, 2), (.finish, 3), (.start, 8), (.finish, 30), (.reset, 31), (.start, 32)] =
        .ok ([(.start, 2), (.finish, 7), (.start, 8), (.finish, 30), (.reset, 31), (.start, 32)],
          ⟨some 5, some 37⟩) := rfl
  exact ⟨_, huses, rfl, guarantees_performAll (some 5) huses⟩

end FieldCircuit.Pacing
