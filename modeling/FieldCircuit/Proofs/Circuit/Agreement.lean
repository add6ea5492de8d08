import FieldCircuit.Proofs.Circuit.Machine

/-!
# Machines that agree

Two states of the machine of a circuit agree if they have the same values wherever a kernel can still
look. What operations and host functions have left in their registers does not count before they have
fired, since it is replaced before it is read. After a restart any two states agree if all sensors go
back to their first frame, and the cycles that follow keep the agreement.
-/

namespace FieldCircuit

namespace Circuit

def Rewinds (c : Circuit Action) : Prop :=
  ∀ k ∈ c.kernels, ∀ s, k.action = .sensor s → s.sensor.rewinds = true

def Kernel.Lasting (k : Kernel Action) : Prop :=
  k.action.kind ≠ .device ∧ k.action.kind ≠ .host

/-- The value of the register counts when these kernels have fired in a cycle. -/
def Settled (c : Circuit Action) (done : List KernelId) (r : RegisterId) : Prop :=
  ∃ i k, c.kernels[i]? = some k ∧ r ∈ k.outputs ∧ (i ∈ done ∨ k.Lasting)

end Circuit

/-- The states have the same values where they count, their sensors have come equally far, and the logs
of actuators hold the same frames. -/
structure Snapshot.Agrees (c : Circuit Action) (order done : List KernelId) (x y : Snapshot) :
    Prop where
  values : ∀ r, c.Settled done r → x.values r = y.values r
  intakes : ∀ (i : KernelId) k s, c.kernels[i]? = some k → k.action = .sensor s →
    x.intakes i = y.intakes i
  frames : ∀ log : Nat, c.recorded order log ≠ [] →
    x.logs[log]?.map Log.frames = y.logs[log]?.map Log.frames

namespace Circuit

variable {c : Circuit Action} {order done earlier later : List KernelId} {i : KernelId}
  {k : Kernel Action} {r : RegisterId} {x y : Snapshot}

/-- Kernels that give their registers a value at a reset give them the same one whenever it is. -/
theorem Kernel.values_restart (hfits : c.Fits k) (hlasting : k.Lasting) (hr : r ∈ k.outputs) :
    (k.restart x).values r = (k.restart y).values r := by
  obtain ⟨hdevice, hhost⟩ := hlasting
  unfold Kernel.restart
  cases haction : k.action with
  | constant t values => exact (if_pos hr).trans (if_pos hr).symm
  | recurrence t values => exact (if_pos hr).trans (if_pos hr).symm
  | sensor s => exact (if_pos hr).trans (if_pos hr).symm
  | actuator a =>
      have houtputs := hfits.outputs
      rw [haction] at houtputs
      rw [List.map_eq_nil_iff.1 houtputs] at hr
      cases hr
  | device d => exact absurd (congrArg Action.kind haction) hdevice
  | host t f => exact absurd (congrArg Action.kind haction) hhost

theorem Settled.mono (h : c.Settled done r) (hsubset : ∀ i ∈ done, i ∈ later) :
    c.Settled later r := by
  obtain ⟨i, k, hk, hr, hdone⟩ := h
  exact ⟨i, k, hk, hr, hdone.imp_left (hsubset i)⟩

theorem settled_of_lt (hc : c.WellFormed) (ho : c.Topological order) {r : Nat}
    (hr : r < c.registers.size) : c.Settled order r := by
  obtain ⟨i, hi⟩ : ∃ i, c.producer? r = some i :=
    ⟨_, by rw [producer?, Array.getElem?_eq_getElem hr, Option.map_some]⟩
  obtain ⟨k, hk, hout⟩ := hc.driven r i hi
  exact ⟨i, k, hk, hout, .inl ((ho.complete i).2 (Array.getElem?_eq_some_iff.1 hk).1)⟩

theorem settled_input (hc : c.WellFormed) (ho : c.Topological (done ++ i :: later))
    (hk : c.kernels[i]? = some k) (hr : r ∈ k.inputs) : c.Settled done r := by
  obtain ⟨k', hk', hinputs⟩ := ho.sorted done i later rfl
  obtain rfl : k' = k := Option.some.inj (hk'.symm.trans hk)
  obtain ⟨p, hp, hproducer⟩ := hinputs r hr
  obtain ⟨q, hq, hout⟩ := hc.driven r p hproducer
  exact ⟨p, q, hq, hout, .inl hp⟩

/-- States that are restarted agree. -/
theorem agrees_restart (hc : c.WellFormed) (ho : c.Topological order) (hrewinds : c.Rewinds)
    (hsize : x.logs.size = y.logs.size) :
    Snapshot.Agrees c order [] (c.swept Kernel.restart order x) (c.swept Kernel.restart order y) := by
  refine ⟨?_, ?_, fun log hrecorded => ?_⟩
  · rintro r ⟨i, k, hk, hr, hdone | hlasting⟩
    · cases hdone
    · obtain ⟨x', -, -, -, hx, -⟩ := exists_swept (x := x) Kernel.local_restart hc ho hk
      obtain ⟨y', -, -, -, hy, -⟩ := exists_swept (x := y) Kernel.local_restart hc ho hk
      rw [hx r hr, hy r hr]
      exact k.values_restart (hc.fits i k hk) hlasting hr
  · intro i k s hk haction
    obtain ⟨x', -, -, -, -, hx⟩ := exists_swept (x := x) Kernel.local_restart hc ho hk
    obtain ⟨y', -, -, -, -, hy⟩ := exists_swept (x := y) Kernel.local_restart hc ho hk
    have hmoved : ∀ z : Snapshot, (k.restart z).intakes k.id = ⟨0, none⟩ := by
      intro z
      have hrewind := hrewinds k (Array.mem_of_getElem? hk) s haction
      simp [Kernel.restart, haction, Snapshot.moved, SensorKernel.reset, SensorKernel.atIntake,
        SensorKernel.intake, Sensor.reset, hrewind]
    rw [← hc.id i k hk, hx, hy, hmoved, hmoved]
  · have hcleared : ∀ l : Log,
        (Log.reset^[(c.recorded order log).length] l).frames = #[] := by
      intro l
      obtain ⟨m, hm⟩ := Nat.exists_eq_succ_of_ne_zero (mt List.length_eq_zero_iff.1 hrecorded)
      rw [hm, Function.iterate_succ_apply']
      rfl
    rw [logs_swept_restart, logs_swept_restart, Option.map_map, Option.map_map,
      show Log.frames ∘ Log.reset^[(c.recorded order log).length] = fun _ => #[] from
        funext hcleared]
    by_cases hlog : log < x.logs.size
    · rw [Array.getElem?_eq_getElem hlog, Array.getElem?_eq_getElem (hsize ▸ hlog)]
      rfl
    · rw [Array.getElem?_eq_none (by omega), Array.getElem?_eq_none (by omega)]

end Circuit

namespace Snapshot.Agrees

open Circuit

variable {c : Circuit Action} {order done later : List KernelId} {i : KernelId}
  {k : Circuit.Kernel Action} {x y : Snapshot}

theorem weaken (h : x.Agrees c order done y) (hsubset : ∀ i ∈ later, i ∈ done) :
    x.Agrees c order later y :=
  ⟨fun r hr => h.values r (hr.mono hsubset), h.intakes, h.frames⟩

theorem values_input (h : x.Agrees c order done y) (hc : c.WellFormed)
    (ho : c.Topological (done ++ i :: later)) (hk : c.kernels[i]? = some k) :
    k.inputs.map x.values = k.inputs.map y.values :=
  List.map_congr_left fun r hr => h.values r (settled_input hc ho hk hr)

theorem values_fire (h : x.Agrees c order done y) (hc : c.WellFormed)
    (ho : c.Topological (done ++ i :: later)) (hk : c.kernels[i]? = some k) {r : RegisterId}
    (hr : r ∈ k.outputs) : (k.fire x).values r = (k.fire y).values r := by
  have hinputs := h.values_input hc ho hk
  have hsame : k.Lasting → x.values r = y.values r :=
    fun hlasting => h.values r ⟨i, k, hk, hr, .inr hlasting⟩
  unfold Circuit.Kernel.Lasting at hsame
  unfold Circuit.Kernel.fire
  cases haction : k.action with
  | device d => simp only [put, hr, if_true, hinputs]
  | host t f => simp only [put, hr, if_true, hinputs]
  | sensor s =>
      rw [haction] at hsame
      simp only [hc.id i k hk, h.intakes i k s hk haction]
      cases s.due (y.intakes i) with
      | none => exact hsame ⟨(by rintro ⟨⟩), by rintro ⟨⟩⟩
      | some frame => exact (if_pos hr).trans (if_pos hr).symm
  | constant | actuator | recurrence =>
      rw [haction] at hsame
      exact hsame ⟨(by rintro ⟨⟩), by rintro ⟨⟩⟩

/-- A kernel that fires in both states keeps the agreement, and then its own values count. -/
theorem fire (h : x.Agrees c order done y) (hc : c.WellFormed)
    (ho : c.Topological (done ++ i :: later)) (hk : c.kernels[i]? = some k) :
    (k.fire x).Agrees c order (done ++ [i]) (k.fire y) := by
  refine ⟨?_, ?_, fun log hrecorded => ?_⟩
  · rintro r ⟨j, k', hk', hr', hdone⟩
    by_cases hr : r ∈ k.outputs
    · exact h.values_fire hc ho hk hr
    · rw [Kernel.local_fire.values k x r hr, Kernel.local_fire.values k y r hr]
      refine h.values r ⟨j, k', hk', hr', hdone.imp_left fun hj => ?_⟩
      rcases List.mem_append.1 hj with hj | hj
      · exact hj
      · obtain rfl := List.mem_singleton.1 hj
        exact absurd (Option.some.inj (hk'.symm.trans hk) ▸ hr') hr
  · intro j k' s hk' haction
    have hsame := h.intakes j k' s hk' haction
    by_cases hj : j = k.id
    · obtain rfl : j = i := hj.trans (hc.id i k hk)
      obtain rfl : k' = k := Option.some.inj (hk'.symm.trans hk)
      rw [hj] at hsame ⊢
      simp only [Kernel.fire, haction, hsame, Snapshot.moved, Function.update_self]
    · rw [Kernel.local_fire.intakes k x j hj, Kernel.local_fire.intakes k y j hj, hsame]
  · rw [Kernel.logs_fire, Kernel.logs_fire, Option.map_map, Option.map_map]
    have hframes := h.frames log hrecorded
    cases hr : k.recorded? log with
    | none => exact hframes
    | some r =>
        have hvalue := h.values r (settled_input hc ho hk (hc.mem_inputs_of_recorded? hk hr))
        have hrecord : ∀ z : Snapshot,
            (z.logs[log]?.map fun l => (l.record (z.values r)).frames) =
              (z.logs[log]?.map Log.frames).map (·.push (z.values r)) := by
          intro z
          rw [Option.map_map]
          rfl
        calc x.logs[log]?.map (fun l => (l.record (x.values r)).frames)
            = (x.logs[log]?.map Log.frames).map (·.push (x.values r)) := hrecord x
          _ = (y.logs[log]?.map Log.frames).map (·.push (y.values r)) := by rw [hframes, hvalue]
          _ = y.logs[log]?.map (fun l => (l.record (y.values r)).frames) := (hrecord y).symm

theorem swept (h : x.Agrees c order done y) (hc : c.WellFormed)
    (ho : c.Topological (done ++ later)) :
    (c.swept Kernel.fire later x).Agrees c order (done ++ later)
      (c.swept Kernel.fire later y) := by
  induction later generalizing done x y with
  | nil =>
      rw [List.append_nil]
      exact h
  | cons i later ih =>
      obtain ⟨k, hk, -⟩ := ho.sorted done i later rfl
      have hrest := ih (h.fire hc ho hk) (by simpa using ho)
      rw [swept_cons hk, swept_cons hk]
      simpa using hrest

/-- Values that are handed over at the end of a cycle are the same in both states. -/
theorem latched (h : x.Agrees c order order y) (hc : c.WellFormed) (ho : c.Topological order) :
    (c.latched x).Agrees c order order (c.latched y) := by
  refine ⟨fun r hr => ?_, h.intakes, h.frames⟩
  unfold Circuit.latched
  dsimp only
  cases hd : c.driver? r with
  | none => exact h.values r hr
  | some d =>
      obtain ⟨b, hb, hd⟩ := Option.bind_eq_some_iff.1 hd
      obtain ⟨t, -, ht⟩ := hc.drivers b (List.mem_of_find?_eq_some hb) d hd
      exact h.values d (settled_of_lt hc ho (lt_of_type?_eq_some ht))

/-- A cycle keeps the agreement, and at its end all values count. -/
theorem cycle (h : x.Agrees c order [] y) (hc : c.WellFormed) (ho : c.Topological order) :
    (c.latched (c.swept Kernel.fire order x)).Agrees c order order
      (c.latched (c.swept Kernel.fire order y)) :=
  Agrees.latched (swept h hc ho) hc ho

end Snapshot.Agrees

end FieldCircuit
