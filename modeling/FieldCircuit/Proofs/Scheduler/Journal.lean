import FieldCircuit.Proofs.Scheduler.Restart
import FieldCircuit.Proofs.Scheduler.Start

/-!
# What a scheduler notes

Beside the values of the machine a scheduler has a journal: the cycle that last changed each register,
the registers that have been skipped in this cycle, the windows of the sensors, and the time. Only
sensors, clocks and resets write it. Together with the machine it decides how far a scheduler gets: a
kernel fails if what it yields does not fill its field or if its window ends beyond the end of time, and
in no other way.
-/

namespace FieldCircuit

structure Mark where
  lastUpdate : Option Nat
  skipped : Bool

def Register.mark (r : Register) : Mark := ⟨r.lastUpdate, r.skipped⟩

def Mark.clock (m : Mark) (cycle : Nat) : Mark :=
  if m.skipped then { m with skipped := false } else { m with lastUpdate := some cycle }

def Mark.blank : Mark := ⟨none, false⟩

/-- The schedule of an action; what is not a sensor does not wait. -/
def Action.pacing : Action → Pacing
  | sensor s => s.pacing
  | _ => ⟨none, none⟩

/-- The marks of all registers, the schedules of all kernels, the cycle and the time. -/
structure Journal where
  marks : RegisterId → Option Mark
  pacings : KernelId → Pacing
  cycle : Nat
  now : Nat

def Register.marks (registers : Array Register) (r : RegisterId) : Option Mark :=
  registers[r]?.map Register.mark

def Scheduler.journal (p : Scheduler × Surroundings) : Journal where
  marks := Register.marks p.1.registers
  pacings i := (p.1.circuit.kernels[i]?.map fun k => k.action.pacing).getD ⟨none, none⟩
  cycle := p.1.cycle
  now := p.2.now

def Journal.clocked (j : Journal) : Journal :=
  { j with marks := fun r => (j.marks r).map (·.clock j.cycle), cycle := j.cycle + 1 }

def Journal.published (j : Journal) (k : Circuit.Kernel Action) (skipped : Bool) (slept : Nat)
    (p : Pacing) : Journal where
  marks r := (j.marks r).map fun m => if r ∈ k.outputs then { m with skipped } else m
  pacings := Function.update j.pacings k.id p
  cycle := j.cycle
  now := j.now + slept

def Circuit.Kernel.note (k : Circuit.Kernel Action) (x : Snapshot) (j : Journal) :
    Except Fault Journal :=
  match k.action with
  | .sensor s => do
    let (slept, p) ← (j.pacings k.id).tick j.now
    return j.published k (s.due (x.intakes k.id)).isNone slept p
  | .device _ | .constant .. | .actuator _ | .host .. | .recurrence .. => .ok j

namespace Register

variable {α : Type} {r r' : Register}

theorem mark_clock (r : Register) (cycle : Nat) : (r.clock cycle).mark = r.mark.clock cycle := by
  cases hskipped : r.skipped <;> simp [clock, mark, Mark.clock, hskipped]

theorem mark_sync {side : Side} (h : r.sync side = .ok r') : r'.mark = r.mark := by
  obtain ⟨pair, -, hr'⟩ := bind_eq_ok_iff.1 h
  rw [← Except.ok.inj hr']
  rfl

theorem mark_write {values : Array Float32} (h : r.write values = .ok r') : r'.mark = r.mark := by
  unfold write at h
  split at h
  · cases h
  · obtain ⟨pair, -, hr'⟩ := bind_eq_ok_iff.1 h
    rw [← Except.ok.inj hr']
    rfl

theorem mark_publish {frame : Option (Array Float32)} (h : Call.publish frame r = .ok r') :
    r'.mark = ⟨r.lastUpdate, frame.isNone⟩ := by
  cases frame with
  | none =>
      rw [← Except.ok.inj h]
      rfl
  | some values =>
      obtain ⟨written, hwrite, hr'⟩ := bind_eq_ok_iff.1 h
      have hupdate : written.lastUpdate = r.lastUpdate :=
        congrArg Mark.lastUpdate (mark_write hwrite)
      rw [← Except.ok.inj hr', ← hupdate]
      rfl

theorem map_getElem?_set (f : Register → α) {registers : Array Register} {i : RegisterId}
    (hi : registers[i]? = some r) (hf : f r' = f r) (j : RegisterId) :
    (registers.setIfInBounds i r')[j]?.map f = registers[j]?.map f := by
  by_cases hj : j = i
  · subst hj
    rw [Array.getElem?_setIfInBounds_self_of_lt (Array.getElem?_eq_some_iff.1 hi).1, hi,
      Option.map_some, Option.map_some, hf]
  · rw [Array.getElem?_setIfInBounds_ne fun heq => hj heq.symm]

/-- Registers that are put in the places of registers that look the same change no look. -/
theorem map_getElem?_foldl (f : Register → α) {l : List (RegisterId × Register)}
    {registers : Array Register} (h : ∀ q ∈ l, registers[q.1]?.map f = some (f q.2)) (j : RegisterId) :
    (l.foldl (fun registers q => registers.setIfInBounds q.1 q.2) registers)[j]?.map f =
      registers[j]?.map f := by
  induction l generalizing registers with
  | nil => rfl
  | cons q l ih =>
      obtain ⟨old, hold, hf⟩ := Option.map_eq_some_iff.1 (h q (List.mem_cons_self ..))
      have hset := map_getElem?_set f hold hf.symm
      rw [List.foldl_cons, ih, hset]
      intro q' hq'
      rw [hset]
      exact h q' (List.mem_cons_of_mem q hq')

theorem marks_setIfInBounds {registers : Array Register} {i : RegisterId}
    (hi : registers[i]? = some r) (hmark : r'.mark = r.mark) :
    marks (registers.setIfInBounds i r') = marks registers :=
  funext (map_getElem?_set mark hi hmark)

theorem map_mark_zip (outputs : List Register) (pairs : List Pair) :
    ((outputs.zip pairs).map fun (r, pair) => ({ r with pair } : Register)).map mark =
      (outputs.map mark).take pairs.length := by
  induction outputs generalizing pairs with
  | nil => simp
  | cons r outputs ih => cases pairs with
    | nil => rfl
    | cons pair pairs => exact congrArg (r.mark :: ·) (ih pairs)

end Register

namespace Call

/-- The call leaves what registers remember and the time alone. -/
structure Quiet (c c' : Call) : Prop where
  marks : c'.outputs.map Register.mark <+: c.outputs.map Register.mark
  now : c'.surroundings.now = c.surroundings.now

theorem Quiet.refl (c : Call) : Quiet c c := ⟨List.prefix_refl _, rfl⟩

theorem quiet_update (c : Call) (change : Register → Except CircuitError Register)
    (h : ∀ r r', change r = .ok r' → r'.mark = r.mark) :
    Quiet c (c.update change).2 ∧ (c.update change).2.action = c.action := by
  obtain ⟨a, outputs, around⟩ := c
  cases outputs with
  | nil => exact ⟨.refl _, rfl⟩
  | cons r rest =>
      unfold update
      dsimp only
      cases hr : change r with
      | error e => exact ⟨.refl _, rfl⟩
      | ok r' =>
          refine ⟨⟨?_, rfl⟩, rfl⟩
          rw [List.map_cons, List.map_cons, h r r' hr]

theorem quiet_writeZeros (c : Call) (t : FieldType) :
    Quiet c (c.writeZeros t).2 ∧ (c.writeZeros t).2.action = c.action := by
  unfold writeZeros
  cases t.words? with
  | error f => exact ⟨.refl _, rfl⟩
  | ok words => exact c.quiet_update _ fun _ _ => Register.mark_write

theorem quiet_computeDevice (c : Call) (d : DeviceKernel) (inputs : List Register) :
    Quiet c (c.computeDevice d inputs).2 := by
  refine ⟨?_, rfl⟩
  unfold computeDevice
  dsimp only
  rw [Register.map_mark_zip]
  exact List.take_prefix ..

/-- What is not a sensor notes nothing. -/
theorem quiet_compute (c : Call) (inputs : List Register) (h : c.action.kind ≠ .sensor) :
    Quiet c (c.compute inputs).2 ∧ (c.compute inputs).2.action.kind ≠ .sensor := by
  obtain ⟨a, outputs, around⟩ := c
  cases a with
  | sensor s => exact absurd rfl h
  | device d => exact ⟨quiet_computeDevice _ d inputs, by rintro ⟨⟩⟩
  | actuator a =>
      change Quiet _ (computeActuator ⟨_, outputs, around⟩ a inputs).2 ∧
        (computeActuator ⟨_, outputs, around⟩ a inputs).2.action.kind ≠ .sensor
      unfold computeActuator
      cases inputs with
      | nil => exact ⟨.refl _, h⟩
      | cons r rest =>
          dsimp only
          cases r.hostValues with
          | error e => exact ⟨.refl _, h⟩
          | ok frame =>
              have hnow := (Scheduler.Represents.consume_logs around frame a).2
              exact ⟨⟨List.prefix_refl _, hnow⟩, h⟩
  | host t f =>
      change Quiet _ (computeHost ⟨_, outputs, around⟩ f inputs).2 ∧
        (computeHost ⟨_, outputs, around⟩ f inputs).2.action.kind ≠ .sensor
      unfold computeHost
      cases inputs.mapM Register.hostValues with
      | error e => exact ⟨.refl _, h⟩
      | ok values =>
          obtain ⟨hquiet, haction⟩ := quiet_update ⟨.host t f, outputs, around⟩
            (·.write (f values)) fun _ _ => Register.mark_write
          exact ⟨hquiet, haction ▸ h⟩
  | constant t values => exact ⟨.refl _, h⟩
  | recurrence t values => exact ⟨.refl _, h⟩

/-- A reset of a kernel closes its window and leaves the marks of its registers alone. -/
theorem quiet_reset (c : Call) :
    Quiet c c.reset.2 ∧ c.reset.2.action.pacing.deadline = none := by
  have hmark : ∀ {values : Array Float32} (r r' : Register), r.write values = .ok r' →
      r'.mark = r.mark := fun _ _ => Register.mark_write
  obtain ⟨a, outputs, around⟩ := c
  cases a with
  | constant t values =>
      obtain ⟨hquiet, haction⟩ := quiet_update ⟨.constant t values, outputs, around⟩
        (·.write values) hmark
      exact ⟨hquiet, (congrArg (·.pacing.deadline) haction).trans rfl⟩
  | sensor s =>
      obtain ⟨hquiet, haction⟩ :=
        quiet_writeZeros ⟨.sensor s.reset, outputs, around⟩ s.fieldType
      exact ⟨⟨hquiet.marks, hquiet.now⟩, (congrArg (·.pacing.deadline) haction).trans rfl⟩
  | recurrence t initial => cases initial with
    | none =>
        obtain ⟨hquiet, haction⟩ := quiet_writeZeros ⟨.recurrence t none, outputs, around⟩ t
        exact ⟨hquiet, (congrArg (·.pacing.deadline) haction).trans rfl⟩
    | some values =>
        obtain ⟨hquiet, haction⟩ := quiet_update ⟨.recurrence t (some values), outputs, around⟩
          (·.write values) hmark
        exact ⟨hquiet, (congrArg (·.pacing.deadline) haction).trans rfl⟩
  | actuator a => cases a <;> exact ⟨⟨List.prefix_refl _, rfl⟩, rfl⟩
  | device d => exact ⟨.refl _, rfl⟩
  | host t f => exact ⟨.refl _, rfl⟩

end Call

namespace Latch

theorem marks_take (l : Latch) (registers : Array Register) :
    Register.marks (l.take registers).2.2 = Register.marks registers := by
  unfold take
  cases l.driver with
  | none => rfl
  | some d =>
      dsimp only
      cases hr : registers[d]? with
      | none => rfl
      | some r => exact Register.marks_setIfInBounds hr rfl

theorem marks_handOver (l : Latch) (registers : Array Register) :
    Register.marks (l.handOver registers).2.2 = Register.marks registers := by
  unfold handOver
  cases hr : registers[l.register]? with
  | none => rfl
  | some r => exact Register.marks_setIfInBounds hr rfl

theorem marks_each {f : Latch → Array Register → Except CircuitError Unit × Latch × Array Register}
    (hf : ∀ l registers, Register.marks (f l registers).2.2 = Register.marks registers)
    (latches : List Latch) (registers : Array Register) :
    Register.marks (each f latches registers).2.2 = Register.marks registers := by
  induction latches generalizing registers with
  | nil => rfl
  | cons l rest ih =>
      have hl := hf l registers
      unfold each
      generalize f l registers = result at hl ⊢
      rcases result with ⟨_ | _, l', registers'⟩
      · exact hl
      · exact (ih registers').trans hl

end Latch

namespace Scheduler

variable {s : Scheduler} {around : Surroundings} {i : KernelId}

theorem enter_eq_ok {inputs : List Register} {before : Call}
    (h : s.enter around i = .ok (inputs, before)) : ∃ k, s.circuit.kernels[i]? = some k ∧
      before.action = k.action ∧ before.surroundings = around ∧
      List.Forall₂ (fun r reg => s.registers[r]? = some reg) k.outputs before.outputs := by
  obtain ⟨k, hk, h⟩ := bind_eq_ok_iff.1 h
  obtain ⟨_, -, h⟩ := bind_eq_ok_iff.1 h
  obtain ⟨outputs, houtputs, h⟩ := bind_eq_ok_iff.1 h
  obtain ⟨-, rfl⟩ := Prod.mk.inj (Except.ok.inj h)
  exact ⟨k, fetch_eq_ok_iff.1 hk, rfl, rfl,
    (mapM_eq_ok_iff.1 houtputs).imp fun _ _ hreg => fetch_eq_ok_iff.1 hreg⟩

variable (around) in
theorem pacings_leave {k : Circuit.Kernel Action} (hk : s.circuit.kernels[i]? = some k)
    (call : Call) : (journal (s.leave i call, call.surroundings)).pacings =
      Function.update (journal (s, around)).pacings i call.action.pacing := by
  funext n
  have hget : (s.leave i call).circuit.kernels = s.circuit.kernels.setIfInBounds i
      { k with action := call.action } :=
    modify_eq_setIfInBounds hk fun k' => { k' with action := call.action }
  unfold journal
  dsimp only
  rw [hget]
  by_cases hn : n = i
  · subst hn
    rw [Function.update_self,
      Array.getElem?_setIfInBounds_self_of_lt (Array.getElem?_eq_some_iff.1 hk).1]
    rfl
  · rw [Function.update_of_ne hn, Array.getElem?_setIfInBounds_ne fun heq => hn heq.symm]

/-- After a call the registers look as before if those that the kernel drives do. -/
theorem map_getElem?_leave {α : Type} (f : Register → α) {inputs : List Register}
    {before call : Call} (henter : s.enter around i = .ok (inputs, before))
    (hf : call.outputs.map f <+: before.outputs.map f) (r : RegisterId) :
    (s.leave i call).registers[r]?.map f = s.registers[r]?.map f := by
  obtain ⟨k, hk, -, -, houtputs⟩ := enter_eq_ok henter
  unfold leave
  dsimp only
  rw [hk, Option.map_some, Option.getD_some]
  refine Register.map_getElem?_foldl f (fun q hq => ?_) r
  obtain ⟨n, hn, rfl⟩ := List.getElem_of_mem hq
  rw [List.length_zip] at hn
  have hkn : n < k.outputs.length := by omega
  have hn' : n < call.outputs.length := by omega
  have hbefore : n < before.outputs.length := by rw [← houtputs.length_eq]; exact hkn
  have hreg := (List.forall₂_iff_get.1 houtputs).2 n hkn hbefore
  have hsame := hf.getElem (i := n) (by simpa using hn')
  rw [List.getElem_map, List.getElem_map] at hsame
  rw [List.getElem_zip, hsame]
  exact congrArg (Option.map f) hreg

theorem journal_leave {inputs : List Register} {before call : Call}
    (henter : s.enter around i = .ok (inputs, before)) (hquiet : Call.Quiet before call) :
    journal (s.leave i call, call.surroundings) = { journal (s, around) with
      pacings := Function.update (journal (s, around)).pacings i call.action.pacing } := by
  obtain ⟨k, hk, -, rfl, -⟩ := enter_eq_ok henter
  have hmarks : Register.marks (s.leave i call).registers = Register.marks s.registers :=
    funext (map_getElem?_leave Register.mark henter hquiet.marks)
  rw [← pacings_leave before.surroundings hk call]
  unfold journal
  rw [hmarks, hquiet.now]
  rfl

theorem journal_registers {registers : Array Register}
    (h : Register.marks registers = Register.marks s.registers) :
    journal ({ s with registers }, around) = journal (s, around) := by
  unfold journal
  rw [h]

theorem journal_eq_of_keeps {m : SchedulerM Unit}
    (h : ∀ j, Keeps (journal · = j) m fun _ => True) {p q : Scheduler × Surroundings}
    {result : Except CircuitError Unit} (hrun : m.run.run p = (result, q)) :
    journal q = journal p := by
  have hkept := (h (journal p) p rfl).1
  rwa [hrun] at hkept

theorem keeps_syncRegister (side : Side) (r : RegisterId) (j : Journal) :
    Keeps (journal · = j) (syncRegister side r) fun _ => True := by
  rintro ⟨s, around⟩ hp
  refine ⟨?_, fun _ _ => trivial⟩
  simp only [syncRegister, ExceptT.run_mk, StateT.run]
  cases hr : s.registers[r]? with
  | none => exact hp
  | some reg =>
      dsimp only
      cases hsync : reg.sync side with
      | error e => exact hp
      | ok reg' =>
          have hmarks := Register.marks_setIfInBounds hr (Register.mark_sync hsync)
          exact (journal_registers hmarks).trans hp

theorem keeps_syncKernel (k : Circuit.Kernel Action) (j : Journal) :
    Keeps (journal · = j) (syncKernel k) fun _ => True := by
  unfold syncKernel
  cases k.kind.inputSide with
  | none => exact Keeps.pure trivial
  | some side => exact Keeps.forM fun r _ => keeps_syncRegister side r j

theorem keeps_onLatches {f : Latch → Array Register → Except CircuitError Unit × Latch × Array Register}
    (hf : ∀ l registers, Register.marks (f l registers).2.2 = Register.marks registers) (j : Journal) :
    Keeps (journal · = j) (onLatches f) fun _ => True := by
  rintro ⟨s, around⟩ hp
  refine ⟨?_, fun _ _ => trivial⟩
  rw [onLatches_run rfl]
  exact (journal_registers (s := { s with latches := _ })
    (Latch.marks_each hf s.latches s.registers)).trans hp

theorem keeps_latch (j : Journal) : Keeps (journal · = j) latch fun _ => True :=
  (keeps_onLatches Latch.marks_take j).bind fun _ _ => keeps_onLatches Latch.marks_handOver j

theorem journal_withPhase (s : Scheduler) (phase : Phase) (around : Surroundings) :
    journal (s.withPhase phase, around) = journal (s, around) :=
  rfl

theorem journal_clocked (s : Scheduler) (around : Surroundings) :
    journal (s.clocked, around) = (journal (s, around)).clocked := by
  have hmarks : Register.marks s.clocked.registers = fun r =>
      (Register.marks s.registers r).map (·.clock s.cycle) := by
    funext r
    unfold clocked Register.marks
    rw [Array.getElem?_map, Option.map_map, Option.map_map]
    exact congrArg (s.registers[r]?.map ·) (funext fun reg => reg.mark_clock s.cycle)
  unfold journal Journal.clocked
  rw [hmarks]
  rfl

variable (around) in
theorem leads_call_compute {k : Circuit.Kernel Action} (hk : s.circuit.kernels[i]? = some k)
    (hkind : k.action.kind ≠ .sensor) : Leads (call i fun inputs c => c.compute inputs) (s, around)
      (fun _ q => journal q = journal (s, around)) fun _ q => journal q = journal (s, around) := by
  have hpacing : ∀ a : Action, a.kind ≠ .sensor → a.pacing = ⟨none, none⟩ := by
    intro a ha
    cases a with
    | sensor s => exact absurd rfl ha
    | device | constant | actuator | host | recurrence => rfl
  refine Leads.of_end ?_
  simp only [call, ExceptT.run_mk, StateT.run]
  cases henter : s.enter around i with
  | error f => rfl
  | ok entered =>
      obtain ⟨inputs, before⟩ := entered
      obtain ⟨k', hk', haction, -, -⟩ := enter_eq_ok henter
      obtain rfl : k' = k := Option.some.inj (hk'.symm.trans hk)
      obtain ⟨hquiet, hkind'⟩ := before.quiet_compute inputs (haction ▸ hkind)
      have hsame : (journal (s, around)).pacings i = (before.compute inputs).2.action.pacing := by
        rw [hpacing _ hkind']
        unfold journal
        dsimp only
        rw [hk, Option.map_some, Option.getD_some, hpacing _ hkind]
      exact (journal_leave henter hquiet).trans (by rw [← hsame, Function.update_eq_self])

theorem leads_call_reset (p : Scheduler × Surroundings) : Leads (call i fun _ c => c.reset) p
    (fun _ q => ∃ d : Pacing, d.deadline = none ∧ journal q =
      { journal p with pacings := Function.update (journal p).pacings i d }) fun _ _ => True := by
  obtain ⟨s, around⟩ := p
  cases henter : s.enter around i with
  | error f =>
      have hrun : (call i fun _ c => c.reset).run.run (s, around) =
          (.error (.fault f), s, around) := by
        simp only [call, ExceptT.run_mk, StateT.run, henter]
      exact .of_error hrun trivial
  | ok entered =>
      obtain ⟨inputs, before⟩ := entered
      obtain ⟨hquiet, hdeadline⟩ := before.quiet_reset
      refine Leads.mono (Leads.of_end (p := fun q => ∃ d : Pacing, d.deadline = none ∧ journal q =
        { journal (s, around) with
          pacings := Function.update (journal (s, around)).pacings i d }) ?_)
        (fun _ _ h => h) fun _ _ _ => trivial
      simp only [call, ExceptT.run_mk, StateT.run, henter]
      exact ⟨_, hdeadline, journal_leave henter hquiet⟩

variable (around) in
theorem journal_leave_published {k : Circuit.Kernel Action} {a₀ : Action}
    (hk : s.circuit.kernels[i]? = some { k with action := a₀ }) (hid : k.id = i) {r : RegisterId}
    (hr : k.outputs = [r]) {reg reg' : Register} (hreg : s.registers[r]? = some reg) {skipped : Bool}
    (hmark : reg'.mark = ⟨reg.lastUpdate, skipped⟩) (a : Action) (slept : Nat) :
    journal (s.leave i ⟨a, [reg'], around.sleep slept⟩, around.sleep slept) =
      (journal (s, around)).published k skipped slept a.pacing := by
  have hregisters : (s.leave i ⟨a, [reg'], around.sleep slept⟩).registers =
      s.registers.setIfInBounds r reg' := by
    unfold leave
    dsimp only
    rw [hk, Option.map_some, Option.getD_some, hr]
    rfl
  have hmarks : Register.marks (s.registers.setIfInBounds r reg') = fun q =>
      (Register.marks s.registers q).map fun m => if q ∈ k.outputs then { m with skipped } else m := by
    funext q
    rw [hr]
    by_cases hq : q = r
    · subst hq
      rw [Register.marks, Array.getElem?_setIfInBounds_self_of_lt (Array.getElem?_eq_some_iff.1 hreg).1,
        Register.marks, hreg]
      simpa [Register.mark] using hmark
    · rw [Register.marks, Array.getElem?_setIfInBounds_ne fun heq => hq heq.symm, ← Register.marks]
      simp [hq]
  have hpacings := pacings_leave around hk ⟨a, [reg'], around.sleep slept⟩
  unfold Journal.published
  rw [hid, ← hpacings]
  unfold journal
  rw [hregisters, hmarks]
  rfl

/-- No register has a mark, no window is open, and no cycle is over. -/
structure Blank (j : Journal) : Prop where
  marks : ∀ r m, j.marks r = some m → m = Mark.blank
  deadlines : ∀ i, (j.pacings i).deadline = none
  cycle : j.cycle = 0

theorem leads_reset {order : List KernelId} (horder : s.order = order)
    (hcomplete : ∀ i ∉ order, s.circuit.kernels[i]? = none) :
    Leads reset (s, around) (fun _ q => Blank (journal q)) fun _ _ => True := by
  -- the windows of the kernels that are still to be reset may be open
  have hall : ∀ (later : List KernelId) (p : Scheduler × Surroundings),
      (∀ r m, (journal p).marks r = some m → m = Mark.blank) →
      (∀ i ∉ later, ((journal p).pacings i).deadline = none) →
      Leads (later.forM fun i => call i fun _ c => c.reset) p
        (fun _ q => (∀ r m, (journal q).marks r = some m → m = Mark.blank) ∧
          ∀ i, ((journal q).pacings i).deadline = none) fun _ _ => True := by
    intro later
    induction later with
    | nil => exact fun p hmarks hdeadlines => .pure ⟨hmarks, fun i => hdeadlines i (by simp)⟩
    | cons i later ih =>
        intro p hmarks hdeadlines
        refine (leads_call_reset p).bind fun _ q ⟨d, hd, hq⟩ => ih q ?_ fun n hn => ?_
        · rw [hq]
          exact hmarks
        · rw [hq]
          by_cases hni : n = i
          · subst hni
            exact (congrArg Pacing.deadline (Function.update_self ..)).trans hd
          · refine (congrArg Pacing.deadline (Function.update_of_ne hni ..)).trans ?_
            exact hdeadlines n fun hmem => (List.mem_cons.1 hmem).elim hni hn
  unfold reset
  refine Leads.bind_get (Leads.bind_lift (fun _ _ => Leads.bind_update ?_) fun _ _ => trivial)
  refine (hall s.order _ (fun r m hm => ?_) fun i hi => ?_).bind fun _ q hq =>
    .update ⟨hq.1, hq.2, rfl⟩
  · obtain ⟨reg, hreg, rfl⟩ := Option.map_eq_some_iff.1 hm
    rw [Array.getElem?_map] at hreg
    obtain ⟨old, -, rfl⟩ := Option.map_eq_some_iff.1 hreg
    rfl
  · unfold journal
    dsimp only
    rw [hcomplete i (horder ▸ hi)]
    rfl

/-- A sensor succeeds if it publishes and its window opens and closes, and fails otherwise. -/
theorem computeSensor_tick (around : Surroundings) (sensor : SensorKernel) (i : Intake) (p : Pacing)
    (reg : Register) :
    (∃ slept p' reg', p.tick around.now = .ok (slept, p') ∧
      Call.publish (sensor.due i) reg = .ok reg' ∧
      Call.computeSensor ⟨.sensor { sensor.atIntake i with pacing := p }, [reg], around⟩
          { sensor.atIntake i with pacing := p } = (.ok (),
        ⟨.sensor { sensor.atIntake (sensor.next i) with pacing := p' }, [reg'],
          around.sleep slept⟩)) ∨
    ∃ e call, Call.computeSensor ⟨.sensor { sensor.atIntake i with pacing := p }, [reg], around⟩
        { sensor.atIntake i with pacing := p } = (.error e, call) ∧
      ((∃ f, p.tick around.now = .error f) ∨ ∃ e, Call.publish (sensor.due i) reg = .error e) := by
  rw [Call.computeSensor_eq]
  cases hstart : p.start around.now with
  | error f =>
      refine .inr ⟨_, _, rfl, .inl ⟨f, ?_⟩⟩
      rw [Pacing.tick, hstart]
      rfl
  | ok opened =>
      cases hpublish : Call.publish (sensor.due i) reg with
      | error e => exact .inr ⟨_, _, rfl, .inr ⟨e, rfl⟩⟩
      | ok reg' =>
          dsimp only
          rw [Pacing.tick, hstart, ok_bind]
          cases hfinish : opened.finish around.now with
          | error f => exact .inr ⟨_, _, rfl, .inl ⟨f, rfl⟩⟩
          | ok finished => exact .inl ⟨finished.1, finished.2, reg', rfl, rfl, rfl⟩

theorem note_journal_sensor {s : Scheduler} (around : Surroundings) (x : Snapshot)
    {k : Circuit.Kernel Action} {sensor s' : SensorKernel} (haction : k.action = .sensor sensor)
    (hk : s.circuit.kernels[k.id]? = some { k with action := .sensor s' }) :
    k.note x (journal (s, around)) = s'.pacing.tick around.now >>= fun (slept, p) =>
      .ok ((journal (s, around)).published k (sensor.due (x.intakes k.id)).isNone slept p) := by
  have hpacing : (journal (s, around)).pacings k.id = s'.pacing := by
    unfold journal
    dsimp only
    rw [hk]
    rfl
  rw [Circuit.Kernel.note, haction]
  dsimp only
  rw [hpacing]
  rfl

namespace Represents

variable {c : Circuit Action} {order : List KernelId} {phase : Phase} {x : Snapshot}
  {k : Circuit.Kernel Action}

/-- A sensor whose frame fills its field fails only if its window cannot be noted. -/
theorem leads_call_sensor (h : s.Represents c order phase x around) (hc : c.WellFormed)
    (hk : c.kernels[i]? = some k) {sensor : SensorKernel} (haction : k.action = .sensor sensor) :
    Leads (Scheduler.call i fun inputs c => c.compute inputs) (s, around)
      (fun _ q => k.note x (journal (s, around)) = .ok (journal q))
      (fun _ _ => k.Fills x → ∃ f, k.note x (journal (s, around)) = .error f) := by
  obtain rfl := hc.id i k hk
  obtain ⟨a, r, inputs, reg, henter, hbecomes, -, hr, ht, hholds⟩ :=
    h.enter_single hc hk (t := sensor.fieldType) (by rw [haction]; rfl)
  obtain ⟨a', ha', -⟩ := h.kernels k.id k hk
  obtain ⟨_, hk', haction', -, hout⟩ := enter_eq_ok henter
  obtain rfl := Option.some.inj (ha'.symm.trans hk')
  obtain rfl : a = a' := haction'
  have hreg : s.registers[r]? = some reg := by
    rw [hr] at hout
    exact (List.forall₂_cons.1 hout).1
  rw [haction] at hbecomes
  cases hbecomes with
  | @sensor _ p hperiod hnear hstaged =>
      rw [Circuit.Kernel.Fills, haction, note_journal_sensor around x haction ha']
      rcases computeSensor_tick around sensor (x.intakes k.id) p reg with
        ⟨slept, p', reg', htick, hpublish, hcompute⟩ | ⟨e, call, hcompute, hfails⟩
      · refine .of_ok (call_run (fun inputs c => c.compute inputs) henter hcompute) ?_
        have hpublished := journal_leave_published around ha' rfl hr hreg
          (Register.mark_publish hpublish)
          (.sensor { sensor.atIntake (sensor.next (x.intakes k.id)) with pacing := p' }) slept
        rw [htick, ok_bind]
        exact congrArg Except.ok hpublished.symm
      · refine .of_error (call_run (fun inputs c => c.compute inputs) henter hcompute)
          fun hfills => ?_
        rcases hfails with ⟨f, htick⟩ | ⟨e', hpublish⟩
        · exact ⟨f, by rw [htick]; rfl⟩
        · obtain ⟨reg', hok, -⟩ := Call.publish_eq_ok hholds hfills
          rw [hpublish] at hok
          cases hok

/-- How far a kernel gets: if what it yields fills its field, it fails only if it cannot note it. -/
theorem leads_noted (h : s.Represents c order phase x around) (hc : c.Operable order)
    (hk : c.kernels[i]? = some k) : Leads (Scheduler.runKernel i) (s, around)
      (fun _ q => k.note x (journal (s, around)) = .ok (journal q))
      (fun _ _ => k.Fills x → ∃ f, k.note x (journal (s, around)) = .error f) := by
  obtain ⟨s', h', hsync, -, hrun⟩ := h.exists_synced hc.wellFormed hk
  have hjournal : journal (s', around) = journal (s, around) :=
    journal_eq_of_keeps (keeps_syncKernel k) hsync
  by_cases hkind : k.action.kind = .sensor
  · obtain ⟨sensor, haction⟩ := Action.exists_sensor hkind
    have hsensor := h'.leads_call_sensor hc.wellFormed hk haction
    unfold Leads at hsensor ⊢
    rw [hrun, ← hjournal]
    exact hsensor
  · have hnote : k.note x (journal (s, around)) = .ok (journal (s, around)) := by
      unfold Circuit.Kernel.note
      cases haction : k.action with
      | sensor s => exact absurd (congrArg Action.kind haction) hkind
      | device | constant | actuator | host | recurrence => rfl
    obtain ⟨a, ha, hbecomes⟩ := h'.kernels i k hk
    have hquiet := leads_call_compute around ha (hbecomes.kind ▸ hkind)
    rw [hnote]
    refine ⟨fun _ q hq => ?_, fun e q hq hfills => ?_⟩
    · rw [hrun] at hq
      rw [hquiet.1 () q hq, hjournal]
    · obtain ⟨_, _, hok, -⟩ := h.runKernel_steady hc hk hfills hkind
      rw [hok] at hq
      cases hq

end Represents

end Scheduler

end FieldCircuit
