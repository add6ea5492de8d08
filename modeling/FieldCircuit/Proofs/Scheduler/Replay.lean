import FieldCircuit.Proofs.Circuit.Agreement
import FieldCircuit.Proofs.Scheduler.Surroundings

/-!
# Resets replay

Whatever has been done with a scheduler, and however much of it has failed: after a reset it repeats
what it does when it is new, provided that its sensors go back to their first frames. It starts later
and comes to the end of time sooner; apart from that, nothing of what was before can be seen. The two
runs go in lockstep: the machines agree wherever a kernel can still look, the registers have the same
marks, and the windows of the new scheduler are earlier.
-/

namespace FieldCircuit

/-- The journals have the same marks for registers below a bound and are in the same cycle, and the first
one is not later. -/
structure Journal.Precedes (bound : Nat) (j l : Journal) : Prop where
  marks : ∀ r < bound, j.marks r = l.marks r
  pacings : ∀ i, (j.pacings i).Before (l.pacings i)
  cycle : j.cycle = l.cycle
  now : j.now ≤ l.now

namespace Journal.Precedes

variable {bound : Nat} {j l l' : Journal} {x y : Snapshot} {k : Circuit.Kernel Action}

theorem clocked (h : j.Precedes bound l) : j.clocked.Precedes bound l.clocked := by
  refine ⟨fun r hr => ?_, h.pacings, congrArg (· + 1) h.cycle, h.now⟩
  simp only [Journal.clocked, h.marks r hr, h.cycle]

/-- What is noted later can be noted earlier, if the same frame is due. -/
theorem note (h : j.Precedes bound l)
    (hdue : ∀ s, k.action = .sensor s → s.due (x.intakes k.id) = s.due (y.intakes k.id))
    (hnote : k.note y l = .ok l') : ∃ j', k.note x j = .ok j' ∧ j'.Precedes bound l' := by
  unfold Circuit.Kernel.note at hnote ⊢
  cases haction : k.action with
  | sensor s =>
      rw [haction] at hnote
      obtain ⟨⟨slept', p'⟩, htick, hl'⟩ := bind_eq_ok_iff.1 hnote
      obtain ⟨slept, p, htick', hbefore, hle⟩ := (h.pacings k.id).tick h.now htick
      obtain rfl := Except.ok.inj hl'
      refine ⟨_, bind_eq_ok_iff.2 ⟨_, htick', rfl⟩, ?_⟩
      refine ⟨fun r hr => ?_, fun i => ?_, h.cycle, hle⟩
      · simp only [Journal.published, h.marks r hr, hdue s haction]
      · unfold Journal.published
        by_cases hi : i = k.id
        · subst hi
          simpa using hbefore
        · simpa [hi] using h.pacings i
  | device | constant | actuator | host | recurrence =>
      rw [haction] at hnote
      obtain rfl := Except.ok.inj hnote
      exact ⟨j, rfl, h⟩

end Journal.Precedes

theorem Action.Becomes.period {i : Intake} {now : Nat} {a b : Action} (h : a.Becomes i now b) :
    b.pacing.period = a.pacing.period := by
  cases h with
  | sensor period near staged => exact period
  | device | constant | actuator | host | recurrence => rfl

/-- Where the machines agree, results that fill a field in one state do so in the other. -/
theorem Snapshot.Agrees.fills {c : Circuit Action} {order done later : List KernelId} {i : KernelId}
    {k : Circuit.Kernel Action} {x y : Snapshot} (h : x.Agrees c order done y) (hc : c.WellFormed)
    (ho : c.Topological (done ++ i :: later)) (hk : c.kernels[i]? = some k) (hfills : k.Fills y) :
    k.Fills x := by
  unfold Circuit.Kernel.Fills at hfills ⊢
  cases haction : k.action with
  | sensor s =>
      rw [haction] at hfills
      rw [hc.id i k hk] at hfills ⊢
      rw [h.intakes i k s hk haction]
      exact hfills
  | host t f =>
      rw [haction] at hfills
      rw [h.values_input hc ho hk]
      exact hfills
  | device | constant | actuator | recurrence => trivial

namespace Scheduler

/-- Two schedulers of a circuit go in lockstep when these kernels have fired in a cycle. The first one is
not later. -/
def Lockstep (c : Circuit Action) (order : List KernelId) (phase : Phase) (done : List KernelId)
    (p q : Scheduler × Surroundings) : Prop :=
  ∃ x y, p.1.Represents c order phase x p.2 ∧ q.1.Represents c order phase y q.2 ∧
    x.Agrees c order done y ∧ (journal p).Precedes c.registers.size (journal q)

/-- If the computation succeeds in the second one of two states that are related, it succeeds in the
first one, and the states that it leads to are related. -/
def Mirrors (m : SchedulerM Unit)
    (rel rel' : Scheduler × Surroundings → Scheduler × Surroundings → Prop) : Prop :=
  ∀ p q q', rel p q → m.run.run q = (.ok (), q') → ∃ p', m.run.run p = (.ok (), p') ∧ rel' p' q'

namespace Mirrors

variable {m m' : SchedulerM Unit}
  {rel mid rel' : Scheduler × Surroundings → Scheduler × Surroundings → Prop}

theorem bind (h : Mirrors m rel mid) (h' : Mirrors m' mid rel') :
    Mirrors (m >>= fun _ => m') rel rel' := by
  intro p q q' hpq hrun
  rw [run_bind] at hrun
  generalize hm : m.run.run q = result at hrun
  obtain ⟨_ | _, q₁⟩ := result
  · cases hrun
  · obtain ⟨p₁, hp₁, hmid⟩ := h p q q₁ hpq hm
    obtain ⟨p', hp', hrel⟩ := h' p₁ q₁ q' hmid hrun
    exact ⟨p', by rw [run_bind, hp₁]; exact hp', hrel⟩

theorem update {f : Scheduler × Surroundings → Scheduler × Surroundings}
    (h : ∀ p q, rel p q → rel' (f p) (f q)) : Mirrors (modify f) rel rel' := by
  intro p q q' hpq hrun
  obtain rfl : f q = q' := congrArg Prod.snd hrun
  exact ⟨f p, rfl, h p q hpq⟩

end Mirrors

variable {c : Circuit Action} {order done later : List KernelId} {phase : Phase}

namespace Lockstep

variable {p q : Scheduler × Surroundings}

theorem weaken (h : Lockstep c order phase done p q) (hsubset : ∀ i ∈ later, i ∈ done) :
    Lockstep c order phase later p q := by
  obtain ⟨x, y, hp, hq, hagrees, hprecedes⟩ := h
  exact ⟨x, y, hp, hq, hagrees.weaken hsubset, hprecedes⟩

theorem withPhase (h : Lockstep c order phase done p q) (phase' : Phase) :
    Lockstep c order phase' done (p.1.withPhase phase', p.2) (q.1.withPhase phase', q.2) := by
  obtain ⟨x, y, hp, hq, hagrees, hprecedes⟩ := h
  exact ⟨x, y, hp.withPhase phase', hq.withPhase phase', hagrees, hprecedes⟩

theorem ended (h : Lockstep c order phase done p q) :
    Lockstep c order .idle done (p.1.ended (.ok ()), p.2) (q.1.ended (.ok ()), q.2) := by
  obtain ⟨x, y, hp, hq, hagrees, hprecedes⟩ := h.withPhase .idle
  refine ⟨x, y, hp.clocked, hq.clocked, hagrees, ?_⟩
  rw [Scheduler.ended, Scheduler.ended, journal_clocked, journal_clocked]
  exact hprecedes.clocked

end Lockstep

/-- A kernel that succeeds in the later run succeeds in the earlier one. -/
theorem mirrors_runKernel (hc : c.Operable order) {i : KernelId} (ho : order = done ++ i :: later) :
    Mirrors (runKernel i) (Lockstep c order phase done) (Lockstep c order phase (done ++ [i])) := by
  intro p q q' ⟨x, y, hp, hq, hagrees, hprecedes⟩ hrun
  have htopological : c.Topological (done ++ i :: later) := ho ▸ hc.topological
  obtain ⟨k, hk, -⟩ := htopological.sorted done i later rfl
  obtain ⟨hfills, hq'⟩ := (hq.leads_runKernel hc hk).1 () q' hrun
  have hnote := (hq.leads_noted hc hk).1 () q' hrun
  have hfills' := hagrees.fills hc.wellFormed htopological hk hfills
  obtain ⟨j', hnote', hprecedes'⟩ := hprecedes.note (x := x) (y := y) (fun s haction => by
    rw [hc.wellFormed.id i k hk, hagrees.intakes i k s hk haction]) hnote
  generalize hresult : (runKernel i).run.run p = result
  obtain ⟨e | _, p'⟩ := result
  · obtain ⟨f, hf⟩ := (hp.leads_noted hc hk).2 e p' hresult hfills'
    cases hf.symm.trans hnote'
  · refine ⟨p', rfl, k.fire x, k.fire y, ((hp.leads_runKernel hc hk).1 () p' hresult).2, hq', ?_, ?_⟩
    · exact hagrees.fire hc.wellFormed htopological hk
    · have hnoted := (hp.leads_noted hc hk).1 () p' hresult
      rwa [← Except.ok.inj (hnote'.symm.trans hnoted)]

theorem mirrors_runKernels (hc : c.Operable order) (ho : order = done ++ later) :
    Mirrors (later.forM runKernel) (Lockstep c order phase done) (Lockstep c order phase order) := by
  induction later generalizing done with
  | nil =>
      rw [List.append_nil] at ho
      intro p q q' hpq hrun
      obtain rfl : q = q' := congrArg Prod.snd hrun
      refine ⟨p, rfl, ?_⟩
      rw [ho] at hpq ⊢
      exact hpq
  | cons i later ih => exact (mirrors_runKernel hc ho).bind (ih (by simpa using ho))

/-- What always succeeds, is not noted and keeps the agreement of machines keeps schedulers in lockstep. -/
theorem mirrors_of_keeps {m : SchedulerM Unit} {f : Snapshot → Snapshot}
    (hm : ∀ {x : Snapshot} {s : Scheduler} {around : Surroundings},
      s.Represents c order phase x around → ∃ s', m.run.run (s, around) = (.ok (), s', around) ∧
        s'.Represents c order phase (f x) around)
    (hkeeps : ∀ j, Keeps (journal · = j) m fun _ => True)
    (hf : ∀ x y : Snapshot, x.Agrees c order done y → (f x).Agrees c order done (f y)) :
    Mirrors m (Lockstep c order phase done) (Lockstep c order phase done) := by
  intro p q q' ⟨x, y, hp, hq, hagrees, hprecedes⟩ hrun
  obtain ⟨s, hs, hp'⟩ := hm hp
  obtain ⟨t, ht, hq'⟩ := hm hq
  obtain rfl : (t, q.2) = q' := congrArg Prod.snd (ht.symm.trans hrun)
  refine ⟨(s, p.2), hs, f x, f y, hp', hq', hf x y hagrees, ?_⟩
  rw [journal_eq_of_keeps hkeeps hs, journal_eq_of_keeps hkeeps ht]
  exact hprecedes

theorem mirrors_latch (hc : c.Operable order) :
    Mirrors latch (Lockstep c order phase order) (Lockstep c order phase order) :=
  mirrors_of_keeps (fun h => h.latch hc) keeps_latch fun _ _ hagrees =>
    hagrees.latched hc.wellFormed hc.topological

/-- A step that succeeds in the later run succeeds in the earlier one, and then all values count. -/
theorem mirrors_step (hc : c.Operable order) (hphase : phase ≠ .unreset) :
    Mirrors step (Lockstep c order phase done) (Lockstep c order .idle order) := by
  have hsweep : Mirrors (sweep order) (Lockstep c order .stepping [])
      (Lockstep c order .stepping order) :=
    (mirrors_runKernels hc rfl).bind (mirrors_latch hc)
  intro p q q' hpq hrun
  have hstepping := (hpq.weaken fun i (hi : i ∈ []) => by cases hi).withPhase .stepping
  obtain ⟨x, y, hp, hq, -, -⟩ := hpq
  obtain ⟨q₁, hq₁, rfl⟩ := exists_sweep (hq.phase ▸ hphase) hrun
  rw [hq.order] at hq₁
  obtain ⟨p₁, hp₁, hswept⟩ := hsweep _ _ q₁ hstepping hq₁
  rw [← hp.order] at hp₁
  exact ⟨_, step_run (hp.phase ▸ hphase) p.2 hp₁, hswept.ended⟩

theorem perform_read_run (r : RegisterId) (s : Scheduler) (around : Surroundings) :
    ((Use.read r).perform.run.run (s, around)).2 = match s.read r with
      | .ok (_, s) => (s, around)
      | .error _ => (s, around) :=
  rfl

theorem keeps_read (r : RegisterId) (j : Journal) :
    Keeps (journal · = j) (Use.read r).perform fun _ => True := by
  rintro ⟨s, around⟩ hp
  refine ⟨?_, fun _ _ => trivial⟩
  rw [perform_read_run]
  cases hread : s.read r with
  | error e => exact hp
  | ok result =>
      obtain ⟨reg, hreg, hread⟩ := bind_eq_ok_iff.1 hread
      obtain ⟨⟨values, reg'⟩, hvalues, hread⟩ := bind_eq_ok_iff.1 hread
      obtain ⟨⟨_, pair⟩, -, hreg'⟩ := bind_eq_ok_iff.1 hvalues
      obtain rfl := Except.ok.inj hread
      obtain ⟨-, rfl⟩ := Prod.mk.inj (Except.ok.inj hreg')
      have hget : s.registers[r]? = some reg := by
        unfold register at hreg
        split at hreg
        · rename_i found hfound
          rw [hfound, Except.ok.inj hreg]
        · cases hreg
      have hmarks : Register.marks (s.registers.setIfInBounds r { reg with pair }) =
          Register.marks s.registers := Register.marks_setIfInBounds hget rfl
      exact (journal_registers hmarks).trans hp

/-- Anything but a reset keeps schedulers in lockstep. -/
theorem mirrors_perform (hc : c.Operable order) {u : Use} (hu : u ≠ .reset) :
    Mirrors u.perform (Lockstep c order .idle done)
      (Lockstep c order .idle (if u = .step then order else done)) := by
  cases u with
  | reset => exact absurd rfl hu
  | step => exact mirrors_step hc (by decide)
  | read r => exact mirrors_of_keeps (fun h => h.perform_read r) (keeps_read r) fun _ _ h => h
  | wait duration =>
      refine .update fun p q ⟨x, y, hp, hq, hagrees, hprecedes⟩ => ?_
      refine ⟨x, y, hp.sleep duration, hq.sleep duration, hagrees, hprecedes.marks,
        hprecedes.pacings, hprecedes.cycle, Nat.add_le_add_right hprecedes.now duration⟩

theorem mirrors_performAll (hc : c.Operable order) {uses : List Use} (huses : Use.reset ∉ uses) :
    Mirrors (uses.forM Use.perform) (Lockstep c order .idle done)
      (Lockstep c order .idle (if .step ∈ uses then order else done)) := by
  induction uses generalizing done with
  | nil =>
      intro p q q' hpq hrun
      obtain rfl : q = q' := congrArg Prod.snd hrun
      exact ⟨p, rfl, by simpa using hpq⟩
  | cons u uses ih =>
      obtain ⟨hu, hrest⟩ := not_or.1 (mt List.mem_cons.2 huses)
      have hfirst : Mirrors u.perform (Lockstep c order .idle done)
          (Lockstep c order .idle (if u = .step then order else done)) :=
        mirrors_perform hc fun heq => hu heq.symm
      have hall := hfirst.bind (ih hrest)
      by_cases hstep : u = .step
      · simpa [hstep] using hall
      · simpa [hstep, Ne.symm hstep] using hall

namespace Represents

variable {phase : Phase} {x : Snapshot} {s : Scheduler} {around : Surroundings}

theorem exists_mark (h : s.Represents c order phase x around) {r : Nat}
    (hr : r < c.registers.size) : ∃ m, (journal (s, around)).marks r = some m := by
  obtain ⟨reg, hreg, -⟩ := h.registers r _
    (show c.type? r = some c.registers[r].fieldType by
      rw [Circuit.type?, Array.getElem?_eq_getElem hr, Option.map_some])
  exact ⟨reg.mark, Option.map_eq_some_iff.2 ⟨reg, hreg, rfl⟩⟩

theorem period_pacings (h : s.Represents c order phase x around) (i : KernelId) :
    ((journal (s, around)).pacings i).period =
      (c.kernels[i]?.map fun k => k.action.pacing.period).getD none := by
  unfold journal
  dsimp only
  cases hk : c.kernels[i]? with
  | none =>
      have hsize := h.size ▸ Array.getElem?_eq_none_iff.1 hk
      rw [Array.getElem?_eq_none hsize]
      rfl
  | some k =>
      obtain ⟨a, ha, hbecomes⟩ := h.kernels i k hk
      rw [ha]
      exact hbecomes.period

theorem blank_reset (h : s.Represents c order phase x around) (hc : c.Operable order)
    {q : Scheduler × Surroundings} (hrun : Scheduler.reset.run.run (s, around) = (.ok (), q)) :
    Blank (journal q) := by
  refine (leads_reset h.order fun i hi => Array.getElem?_eq_none ?_).1 () q hrun
  rw [h.size]
  exact Nat.le_of_not_lt (mt (hc.topological.complete i).2 hi)

end Represents

/-- Schedulers of a circuit that are reset go in lockstep. -/
theorem lockstep_reset {p q : Scheduler × Surroundings} {x y : Snapshot} {phase phase' : Phase}
    (hp : p.1.Represents c order phase x p.2) (hq : q.1.Represents c order phase' y q.2)
    (hc : c.Operable order) (hrewinds : c.Rewinds) (hfollows : p.2.Follows q.2) : ∃ p' q',
      reset.run.run p = (.ok (), p') ∧ reset.run.run q = (.ok (), q') ∧
        Lockstep c order .idle [] p' q' := by
  obtain ⟨s, around, hs, hs', hnow⟩ := hp.reset hc
  obtain ⟨t, around', ht, ht', hnow'⟩ := hq.reset hc
  have hblank := hp.blank_reset hc hs
  have hblank' := hq.blank_reset hc ht
  refine ⟨(s, around), (t, around'), hs, ht, _, _, hs', ht', ?_, ?_⟩
  · refine Circuit.agrees_restart hc.wellFormed hc.topological hrewinds ?_
    rw [← hp.logs, ← hq.logs, hfollows.logs]
  · refine ⟨fun r hr => ?_, fun i => ⟨?_, ?_⟩, ?_, ?_⟩
    · obtain ⟨m, hm⟩ := hs'.exists_mark hr
      obtain ⟨m', hm'⟩ := ht'.exists_mark hr
      rw [hm, hm', hblank.marks r m hm, hblank'.marks r m' hm']
    · rw [hs'.period_pacings, ht'.period_pacings]
    · rw [hblank.deadlines, hblank'.deadlines]
      exact .none
    · rw [hblank.cycle, hblank'.cycle]
    · change around.now ≤ around'.now
      rw [hnow, hnow']
      exact hfollows.now

/-- What is seen of two schedulers of a circuit is the same: the values of all registers, the cycles that
last changed them, the number of steps, and what the actuators have taken since the last reset. -/
structure Indistinguishable (c : Circuit Action) (p q : Scheduler × Surroundings) : Prop where
  value : ∀ r < c.registers.size, ∃ values s t, p.1.read r = .ok (values, s) ∧
    q.1.read r = .ok (values, t)
  lastUpdate : ∀ r < c.registers.size, ∃ reg reg', p.1.register r = .ok reg ∧
    q.1.register r = .ok reg' ∧ reg.lastUpdate = reg'.lastUpdate
  cycle : p.1.cycle = q.1.cycle
  consumed : ∀ k ∈ c.kernels, ∀ log : Nat, k.action = .actuator (.recording log) →
    p.2.logs[log]?.map Log.frames = q.2.logs[log]?.map Log.frames

theorem exists_register {s : Scheduler} {around : Surroundings} {r : RegisterId} {m : Mark}
    (h : (journal (s, around)).marks r = some m) : ∃ reg, s.register r = .ok reg ∧ reg.mark = m := by
  obtain ⟨reg, hreg, hmark⟩ := Option.map_eq_some_iff.1 h
  exact ⟨reg, by rw [register, hreg], hmark⟩

/-- At the end of a cycle schedulers in lockstep cannot be told apart. -/
theorem Lockstep.indistinguishable {p q : Scheduler × Surroundings}
    (h : Lockstep c order phase order p q) (hc : c.Operable order) : Indistinguishable c p q := by
  obtain ⟨x, y, hp, hq, hagrees, hprecedes⟩ := h
  refine ⟨fun r hr => ?_, fun r hr => ?_, hprecedes.cycle, fun k hk log haction => ?_⟩
  · have ht : c.type? r = some c.registers[r].fieldType := by
      rw [Circuit.type?, Array.getElem?_eq_getElem hr, Option.map_some]
    obtain ⟨s, hs, -⟩ := hp.read ht
    obtain ⟨t, ht, -⟩ := hq.read ht
    have hsettled := Circuit.settled_of_lt hc.wellFormed hc.topological hr
    exact ⟨x.values r, s, t, hs, hagrees.values r hsettled ▸ ht⟩
  · obtain ⟨m, hm⟩ := hp.exists_mark hr
    obtain ⟨reg, hreg, hmark⟩ := exists_register hm
    obtain ⟨reg', hreg', hmark'⟩ := exists_register ((hprecedes.marks r hr).symm.trans hm)
    exact ⟨reg, reg', hreg, hreg', congrArg Mark.lastUpdate (hmark.trans hmark'.symm)⟩
  · obtain ⟨i, hi⟩ := Array.getElem?_of_mem hk
    have hrecorded : k.recorded? log = some (k.inputs.headD 0) := by
      simp [Circuit.Kernel.recorded?, haction]
    have hmem : k.inputs.headD 0 ∈ c.recorded order log := by
      refine List.mem_filterMap.2 ⟨i, ?_, by rw [hi]; exact hrecorded⟩
      exact (hc.topological.complete i).2 (Array.getElem?_eq_some_iff.1 hi).1
    rw [hp.logs, hq.logs]
    exact hagrees.frames log (List.ne_nil_of_mem hmem)

/-- The circuit has been constructed by requests, every recurrence has a driver, and its sensors go back
to their first frames. Its scheduler has been used in whatever way. If a reset and some steps succeed
then, with any reads and waiting in between, so they do when the scheduler is new, and in the end nothing
tells the two apart. -/
theorem reset_replays {env env' : Environment} (henv : env.Sound)
    (requests : List Circuit.Request) {built : Scheduler} {start : Surroundings}
    (hbuild : (build (Circuit.construct env requests).1).run.run
      (Circuit.construct env requests).2 = (.ok built, env'))
    (hbound : (Circuit.construct env requests).1.Bound)
    (hrewinds : (Circuit.construct env requests).1.Rewinds)
    {earlier later : List Use} (hlater : Use.reset ∉ later) (hstep : Use.step ∈ later)
    {replayed : Scheduler × Surroundings}
    (hrun : ((Use.reset :: later).forM Use.perform).run.run (after earlier (built, start)) =
      (.ok (), replayed)) :
    ∃ first, ((Use.reset :: later).forM Use.perform).run.run (built, start) = (.ok (), first) ∧
      Indistinguishable (Circuit.construct env requests).1 first replayed := by
  obtain ⟨hvalid, hsound⟩ := Circuit.construct_spec henv requests
  have hbuilt := built_of_build hsound hbuild
  have hc := hbuilt.operable hvalid.wellFormed hbound
  obtain ⟨x, hstart⟩ := hbuilt.represents hvalid start
  obtain ⟨phase, y, hused⟩ := hstart.after hc earlier
  obtain ⟨p, q, hp, hq, hlockstep⟩ :=
    lockstep_reset hstart hused hc hrewinds (follows_after earlier (built, start))
  change (reset >>= fun _ => later.forM Use.perform).run.run _ = _ at hrun
  rw [run_bind, hq] at hrun
  obtain ⟨first, hfirst, hend⟩ := mirrors_performAll hc hlater p q replayed hlockstep hrun
  rw [if_pos hstep] at hend
  refine ⟨first, ?_, hend.indistinguishable hc⟩
  change (reset >>= fun _ => later.forM Use.perform).run.run _ = _
  rw [run_bind, hp]
  exact hfirst

theorem rewinds_exchanging : exchanging.Rewinds := by
  simp [Circuit.Rewinds, exchanging]

/-- The recurrences have exchanged their values an odd number of times, after a step that was refused
because there had been no reset, and begin anew. -/
theorem reset_replays_exchange : ∃ built env' first replayed,
    (build exchanging).run.run
      (Circuit.construct (.new .standard .standard (.new false)) exchange).2 = (.ok built, env') ∧
    ([.reset, .step, .step].forM Use.perform).run.run
      (after [.step, .reset, .step] (built, ⟨0, #[.empty]⟩)) = (.ok (), replayed) ∧
    ([.reset, .step, .step].forM Use.perform).run.run (built, ⟨0, #[.empty]⟩) = (.ok (), first) ∧
    Indistinguishable exchanging first replayed := by
  have henv : (Environment.new .standard .standard (.new false)).Sound :=
    Environment.sound_new _ _ (PlanStore.sound_new false)
  obtain ⟨built, env', hbuild⟩ := exists_build_exchanging
  obtain ⟨hvalid, hsound⟩ := Circuit.construct_spec henv exchange
  rw [construct_exchange] at hvalid
  have hbuilt := built_of_build hsound hbuild
  have hc := hbuilt.runnable hvalid.wellFormed bound_exchanging regular_exchanging
  have hperiods : exchanging.periods built.order = 0 := by
    rw [Except.ok.inj (hbuilt.order.symm.trans order_exchanging)]
    rfl
  obtain ⟨x, hnew⟩ := hbuilt.represents hvalid ⟨0, #[.empty]⟩
  have hrefused : step.run.run (built, ⟨0, #[.empty]⟩) =
      (.error .notReset, built, ⟨0, #[.empty]⟩) := step_run_unreset hnew.phase _
  obtain ⟨s₁, around₁, hreset, h₁, hnow₁⟩ := hnew.reset hc.toOperable
  -- no step sleeps, so that the end of time does not come
  obtain ⟨s₂, around₂, ⟨hstep, h₂, hnow₂⟩ | ⟨-, -, hend⟩⟩ := h₁.step (by decide) hc
  · have hafter : after [.step, .reset, .step] (built, ⟨0, #[.empty]⟩) = (s₂, around₂) := by
      simp only [after, List.foldl_cons, List.foldl_nil, Use.perform, hrefused, hreset, hstep]
    obtain ⟨s₃, around₃, hreset', h₃, hnow₃⟩ := h₂.reset hc.toOperable
    have hlater : Use.reset ∉ [.step, .step] := by decide
    obtain ⟨s, around, ⟨hsteps, -⟩ | ⟨-, hend⟩⟩ :=
        Represents.performAll hc (n := 0) h₃ hlater
    · have hrun : ([.reset, .step, .step].forM Use.perform).run.run
          (after [.step, .reset, .step] (built, ⟨0, #[.empty]⟩)) = (.ok (), s, around) := by
        rw [hafter]
        change (reset >>= fun _ => [.step, .step].forM Use.perform).run.run _ = _
        rw [run_bind, hreset']
        exact hsteps
      obtain ⟨first, hfirst, hsame⟩ := reset_replays henv exchange (construct_exchange ▸ hbuild)
        (construct_exchange ▸ bound_exchanging) (construct_exchange ▸ rewinds_exchanging) hlater
        (by decide) hrun
      exact ⟨built, env', first, (s, around), hbuild, hrun, hfirst, hsame⟩
    · simp only [hperiods, hnow₁, Nat.add_zero] at hnow₂ hend
      simp only [hnow₃, List.map_cons, List.map_nil, Use.duration, hperiods, List.sum_cons,
        List.sum_nil] at hend
      exact absurd (hend.trans (Nat.add_le_add_right hnow₂ _)) (by decide)
  · rw [hperiods, hnow₁] at hend
    exact absurd hend (by decide)

end Scheduler

end FieldCircuit
