import FieldCircuit.Proofs.Circuit.Construction
import FieldCircuit.Proofs.Scheduler.Kernels

/-!
# Schedulers at the start

The scheduler of a circuit under construction represents a state of its machine as soon as it is built:
all registers are zero, and every sensor is where it was. At any later point it represents a state of
the machine of the circuit that it then has, whose sensors have moved on.
-/

namespace FieldCircuit

namespace Action.Becomes

variable {i : Intake} {now : Nat} {a b : Action}

theorem kind (h : a.Becomes i now b) : b.kind = a.kind := by
  cases h <;> rfl

theorem outputTypes (h : a.Becomes i now b) : b.outputTypes = a.outputTypes := by
  cases h with
  | device operation _ => exact congrArg (fun o : Operation => [o.output]) operation
  | sensor | constant | actuator | host | recurrence => rfl

theorem suits (h : a.Becomes i now b) {types : List FieldType} (ha : a.Suits types) :
    b.Suits types := by
  cases h with
  | device operation intermediates => exact ⟨operation ▸ ha.1, operation ▸ intermediates⟩
  | sensor | host => trivial
  | constant | actuator | recurrence => exact ha

theorem regular (h : a.Becomes i now b) {types : List FieldType} (ha : a.Regular types) :
    b.Regular types := by
  cases h with
  | device => trivial
  | sensor => exact ha
  | constant | actuator | host | recurrence => exact ha

theorem rebase (h : a.Becomes i now b) : b.Becomes i now b := by
  cases h with
  | device operation intermediates => exact .device rfl (operation ▸ intermediates)
  | @sensor s p period near staged =>
      exact .sensor (s := { s.atIntake i with pacing := p }) rfl near staged
  | constant t values => exact .constant t values
  | actuator a => exact .actuator a
  | host t f => exact .host t f
  | recurrence t values => exact .recurrence t values

theorem intake_eq {s : SensorKernel} (h : a.Becomes i now (.sensor s)) : i = s.intake := by
  cases h
  rfl

end Action.Becomes

theorem Action.becomes_self {types : List FieldType} {a : Action} (hsuits : a.Suits types)
    {i : Intake} (now : Nat) (hsensor : ∀ s, a = .sensor s → s.Rested ∧ i = s.intake) :
    a.Becomes i now a := by
  cases a with
  | device d => exact .device rfl hsuits.2
  | sensor s =>
      obtain ⟨hrested, rfl⟩ := hsensor s rfl
      refine .sensor (s := s) (p := s.pacing) rfl (fun q d _ hd => ?_) fun _ frame hframe => ?_
      · rw [hrested.deadline] at hd
        cases hd
      · change frame ∈ s.staged at hframe
        rw [hrested.staged] at hframe
        cases hframe
  | constant t values => exact .constant t values
  | actuator a => exact .actuator a
  | host t f => exact .host t f
  | recurrence t values => exact .recurrence t values

namespace Scheduler.Represents

variable {c : Circuit Action} {order : List KernelId} {phase : Phase} {x : Snapshot}
  {s : Scheduler} {around : Surroundings}

theorem alike (h : s.Represents c order phase x around) : c.Alike s.circuit := by
  refine ⟨h.size, fun i k hk => ?_, h.wires, h.recurrences⟩
  obtain ⟨a, ha, -⟩ := h.kernels i k hk
  exact ⟨a, ha⟩

theorem type?_eq (h : s.Represents c order phase x around) : s.circuit.type? = c.type? := by
  funext r
  rw [Circuit.type?, Circuit.type?, h.wires]

theorem exists_kernel (h : s.Represents c order phase x around) {i : KernelId}
    {k' : Circuit.Kernel Action} (hk' : s.circuit.kernels[i]? = some k') :
    ∃ k, c.kernels[i]? = some k ∧ k' = { k with action := k'.action } ∧
      k.action.Becomes (x.intakes i) around.now k'.action := by
  obtain ⟨b, hb⟩ := h.alike.symm.kernels i k' hk'
  obtain ⟨a, ha, hbecomes⟩ := h.kernels i _ hb
  have haction : k'.action = a := congrArg Circuit.Kernel.action (Option.some.inj (hk'.symm.trans ha))
  exact ⟨_, hb, rfl, haction ▸ hbecomes⟩

theorem wellFormed (h : s.Represents c order phase x around) (hc : c.WellFormed) :
    s.circuit.WellFormed := by
  refine ⟨h.alike.wired hc.toWired, fun i k' hk' => ?_, ?_⟩
  · obtain ⟨k, hk, heq, hbecomes⟩ := h.exists_kernel hk'
    obtain ⟨hkind, ⟨types, hinputs, hsuits⟩, houtputs⟩ := hc.fits i k hk
    rw [heq]
    refine ⟨hkind.trans hbecomes.kind.symm, ⟨types, ?_, hbecomes.suits hsuits⟩, ?_⟩
    · rw [h.type?_eq]
      exact hinputs
    · rw [h.type?_eq]
      exact houtputs.trans (congrArg (List.map some) hbecomes.outputTypes.symm)
  · rw [h.recurrences, h.type?_eq]
    exact hc.drivers

theorem operable (h : s.Represents c order phase x around) (hc : c.Operable order) :
    s.circuit.Operable order := by
  refine ⟨h.wellFormed hc.wellFormed, h.alike.topological hc.topological, ?_, ?_, ?_⟩
  · intro b hb
    exact hc.bound b (h.recurrences ▸ hb)
  · rw [h.type?_eq]
    exact hc.words
  · rw [h.type?_eq]
    exact hc.bytes

theorem runnable (h : s.Represents c order phase x around) (hc : c.Runnable order) :
    s.circuit.Runnable order := by
  refine ⟨h.operable hc.toOperable, ?_⟩
  intro k' hk' types htypes
  obtain ⟨i, hk'⟩ := Array.getElem?_of_mem hk'
  obtain ⟨k, hk, heq, hbecomes⟩ := h.exists_kernel hk'
  refine hbecomes.regular (hc.regular k (Array.mem_of_getElem? hk) types ?_)
  rw [heq, h.type?_eq] at htypes
  exact htypes

theorem rebase (h : s.Represents c order phase x around) :
    s.Represents s.circuit order phase x around := by
  refine ⟨h.order, h.phase, rfl, fun i k' hk' => ?_, rfl, rfl, ?_, ?_, h.logs⟩
  · obtain ⟨k, -, -, hbecomes⟩ := h.exists_kernel hk'
    exact ⟨k'.action, hk', hbecomes.rebase⟩
  · intro r t ht
    exact h.registers r t (h.type?_eq ▸ ht)
  · rw [h.recurrences]
    exact h.latches.imp fun b l hl => ⟨hl.register, hl.driver, h.type?_eq ▸ hl.staging⟩

theorem tracks (h : s.Represents c order phase x around) (hc : c.WellFormed) :
    x.Tracks s.circuit := by
  intro i k hk sensor hsensor
  obtain ⟨_, -, -, hbecomes⟩ := h.exists_kernel hk
  rw [hsensor] at hbecomes
  rw [(h.wellFormed hc).id i k hk]
  exact hbecomes.intake_eq

end Scheduler.Represents

def Circuit.intakes (c : Circuit Action) (i : KernelId) : Intake :=
  match c.kernels[i]?.map Circuit.Kernel.action with
  | some (.sensor sensor) => sensor.intake
  | _ => ⟨0, none⟩

namespace Scheduler

structure Built (c : Circuit Action) (s : Scheduler) : Prop where
  circuit : s.circuit = c
  order : c.order = .ok s.order
  phase : s.phase = .unreset
  registers : List.Forall₂ (fun w reg => Pair.New w.fieldType reg.pair) c.registers.toList
    s.registers.toList
  latches : List.Forall₂ (Latch.Attends c) c.recurrences s.latches

variable {c : Circuit Action} {s : Scheduler}

theorem type?_of_mem_zip {types : List FieldType}
    (htypes : (c.recurrences.map Circuit.Binding.register).map c.type? = types.map some)
    {b : Circuit.Binding × FieldType} (hb : b ∈ c.recurrences.zip types) :
    c.type? b.1.register = some b.2 := by
  obtain ⟨n, hn, rfl⟩ := List.getElem_of_mem hb
  rw [List.length_zip] at hn
  have hget := congrArg (·[n]?) htypes
  rw [List.getElem_zip]
  simpa [List.getElem?_eq_getElem (show n < c.recurrences.length by omega),
    List.getElem?_eq_getElem (show n < types.length by omega)] using hget

/-- A scheduler is only built when all of its memory could be allocated. -/
theorem built_of_build {env env' : Environment} (henv : env.Sound)
    (hbuild : (build c).run.run env = (.ok s, env')) : Built c s := by
  refine Keeps.of_rethrow hbuild henv (fun e env s => ?_) ?_
  · rw [run_bind]
    rcases (Environment.onBank c.release).run.run env with ⟨_ | _, _⟩ <;> exact fun h => by cases h
  refine (Keeps.lift (p := fun order => c.order = .ok order) fun _ h => h).bind fun order horder => ?_
  refine Keeps.bind (p := fun registers => List.Forall₂
    (fun w reg => Pair.New w.fieldType reg.pair) c.registers.toList registers)
    (Environment.keeps_onBank (Bank.keeps_all ?_ ?_)) fun registers hregisters => ?_
  · exact fun w _ => (Pair.keeps_newPair w.fieldType).bind fun pair hpair => Keeps.pure hpair
  · exact fun w reg hreg => hreg.liesOn.keeps_release
  refine (Keeps.lift fun types htypes => Circuit.types_eq_ok htypes).bind fun types htypes => ?_
  refine Keeps.bind (p := fun latches => List.Forall₂ (fun b l => Latch.Attends c b.1 l ∧
    l.staging.LiesOn) (c.recurrences.zip types) latches) (Keeps.tryCatch
      (Environment.keeps_onBank (Bank.keeps_all ?_ ?_)) fun e => ?_) fun latches hlatches => ?_
  · intro b hb
    refine (Pair.keeps_newPair b.2).bind fun pair hpair => Keeps.pure ⟨⟨rfl, rfl, b.2, ?_, ?_⟩, ?_⟩
    · exact type?_of_mem_zip htypes hb
    · exact hpair.holds.fits
    · exact hpair.liesOn
  · exact fun b l hl => hl.2.keeps_release
  · refine (Environment.keeps_onBank (Keeps.forM fun reg hreg => ?_)).bind fun _ _ => Keeps.throw e
    obtain ⟨w, -, hnew⟩ := forall₂_exists_left hregisters hreg
    exact hnew.liesOn.keeps_release
  · refine Keeps.pure ⟨rfl, horder, rfl, hregisters, ?_⟩
    have hlength : c.recurrences.length = types.length := by
      simpa using congrArg List.length htypes
    have hfirst : (c.recurrences.zip types).map Prod.fst = c.recurrences :=
      List.map_fst_zip (Nat.le_of_eq hlength)
    rw [← hfirst, List.forall₂_map_left_iff]
    exact hlatches.imp fun b l hl => hl.1

namespace Built

variable (h : Built c s)

include h

theorem exists_register {r : RegisterId} {t : FieldType} (ht : c.type? r = some t) :
    ∃ reg, s.registers[r]? = some reg ∧ Pair.New t reg.pair := by
  obtain ⟨w, hw, rfl⟩ := Circuit.type?_eq_some ht
  rw [← Array.getElem?_toList] at hw
  obtain ⟨reg, hreg, hnew⟩ := forall₂_getElem?_left h.registers hw
  exact ⟨reg, Array.getElem?_toList ▸ hreg, hnew⟩

theorem operable (hc : c.WellFormed) (hbound : c.Bound) : c.Operable s.order := by
  obtain ⟨order, horder, htopological⟩ := hc.toWired.exists_order
  obtain rfl := Except.ok.inj (horder.symm.trans h.order)
  refine ⟨hc, htopological, hbound, fun r t ht => ?_, fun r t ht => ?_⟩
  · obtain ⟨reg, -, hnew⟩ := h.exists_register ht
    exact hnew.words
  · obtain ⟨reg, -, hnew⟩ := h.exists_register ht
    exact hnew.bytes

theorem runnable (hc : c.WellFormed) (hbound : c.Bound) (hregular : c.Regular) :
    c.Runnable s.order :=
  ⟨h.operable hc hbound, hregular⟩

/-- A new scheduler represents a state of the machine in which all registers are zero. -/
theorem represents (hc : c.Valid) (around : Surroundings) :
    ∃ x, s.Represents c s.order .unreset x around := by
  refine ⟨⟨fun r => Array.replicate ((c.type? r).elim 0 FieldType.words) 0.0,
    c.intakes, around.logs⟩, rfl, h.phase, ?_, ?_, ?_, ?_, ?_, h.latches, rfl⟩
  · rw [h.circuit]
  · intro i k hk
    rw [h.circuit]
    obtain ⟨types, -, hsuits⟩ := (hc.wellFormed.fits i k hk).inputs
    refine ⟨k.action, hk, Action.becomes_self hsuits around.now fun sensor hsensor => ?_⟩
    refine ⟨hc.rested i k hk sensor hsensor, ?_⟩
    simp only [Circuit.intakes, hk, Option.map_some, hsensor]
  · rw [h.circuit]
  · rw [h.circuit]
  · intro r t ht
    obtain ⟨reg, hreg, hnew⟩ := h.exists_register ht
    refine ⟨reg, hreg, ?_⟩
    simpa only [ht, Option.elim_some] using hnew.holds

end Built

end Scheduler

end FieldCircuit
