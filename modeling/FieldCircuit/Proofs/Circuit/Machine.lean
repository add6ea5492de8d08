import FieldCircuit.Proofs.Circuit.Dataflow
import FieldCircuit.Proofs.Circuit.Order

/-!
# Circuits as machines

Between the scheduler and the dataflow of a circuit stands a machine without memory management: its
state has one value for every register, the position of every sensor and the logs of the actuators. In
a cycle all kernels fire in dependency order, and then the recurrences take the values of their drivers.
The values at the end of the firing, cycle by cycle, are the dataflow.
-/

namespace FieldCircuit

structure Intake where
  position : Nat
  staged : Option (Array Float32)

namespace SensorKernel

def intake (k : SensorKernel) : Intake := ⟨k.sensor.position, k.staged⟩

def atIntake (k : SensorKernel) (i : Intake) : SensorKernel :=
  { k with sensor := { k.sensor with position := i.position }, staged := i.staged }

def due (s : SensorKernel) (i : Intake) : Option (Array Float32) := ((s.atIntake i).fetch).1

def next (s : SensorKernel) (i : Intake) : Intake := ((s.atIntake i).fetch).2.intake

def intakeAfter (s : SensorKernel) : Nat → Intake
  | 0 => ⟨s.sensor.reset.position, none⟩
  | n + 1 => ⟨s.sensor.reset.position + (n + 1), if s.sensor.pipelined then s.frame n else none⟩

theorem due_intakeAfter (s : SensorKernel) (n : Nat) : s.due (s.intakeAfter n) = s.published n ∧
    s.next (s.intakeAfter n) = s.intakeAfter (n + 1) := by
  unfold due next
  cases hp : s.sensor.pipelined with
  | true => cases n with
    | zero => simp [fetch, atIntake, published, intakeAfter, intake, hp, Sensor.next, frame]
    | succ n => simp [fetch, atIntake, published, intakeAfter, intake, hp, Sensor.next, frame,
        Nat.add_assoc]
  | false => cases n with
    | zero => simp [fetch, atIntake, published, intakeAfter, intake, hp, Sensor.next, frame]
    | succ n => simp [fetch, atIntake, published, intakeAfter, intake, hp, Sensor.next, frame,
        Nat.add_assoc]

end SensorKernel

structure Snapshot where
  values : RegisterId → Array Float32
  intakes : KernelId → Intake
  logs : Array Log

namespace Snapshot

def put (x : Snapshot) (outputs : List RegisterId) (value : Array Float32) : Snapshot :=
  { x with values := fun r => if r ∈ outputs then value else x.values r }

def moved (x : Snapshot) (id : KernelId) (i : Intake) : Snapshot :=
  { x with intakes := Function.update x.intakes id i }

/-- The sensors of a circuit have come as far as the state says. -/
def Tracks (x : Snapshot) (c : Circuit Action) : Prop :=
  ∀ (i : KernelId) (k : Circuit.Kernel Action), c.kernels[i]? = some k →
    ∀ s, k.action = .sensor s → x.intakes k.id = s.intake

end Snapshot

def Actuator.taken (frame : Array Float32) (logs : Array Log) : Actuator → Array Log
  | recording log => logs.modify log (·.record frame)
  | discarding => logs

def Actuator.cleared (logs : Array Log) : Actuator → Array Log
  | recording log => logs.modify log Log.reset
  | discarding => logs

namespace Circuit

def Kernel.fire (k : Kernel Action) (x : Snapshot) : Snapshot :=
  match k.action with
  | .device d => x.put k.outputs (d.operation.evaluate (k.inputs.map x.values))
  | .host t f => x.put k.outputs (t.stored (f (k.inputs.map x.values)))
  | .sensor s =>
    ((s.due (x.intakes k.id)).elim x fun frame => x.put k.outputs (s.fieldType.stored frame)).moved
      k.id (s.next (x.intakes k.id))
  | .actuator a => { x with logs := a.taken (x.values (k.inputs.headD 0)) x.logs }
  | .constant .. | .recurrence .. => x

def Kernel.restart (k : Kernel Action) (x : Snapshot) : Snapshot :=
  match k.action with
  | .constant t values => x.put k.outputs (t.stored values)
  | .recurrence t values => x.put k.outputs (t.initial values)
  | .sensor s =>
    (x.put k.outputs (Array.replicate s.fieldType.words 0.0)).moved k.id
      (s.atIntake (x.intakes k.id)).reset.intake
  | .actuator a => { x with logs := a.cleared x.logs }
  | .device _ | .host .. => x

/-- Kernels do something one after the other. -/
def swept (c : Circuit Action) (act : Kernel Action → Snapshot → Snapshot) (order : List KernelId)
    (x : Snapshot) : Snapshot :=
  order.foldl (fun x i => c.kernels[i]?.elim x (act · x)) x

def driver? (c : Circuit Action) (r : RegisterId) : Option RegisterId :=
  (c.recurrences.find? (·.register == r)).bind Binding.driver

/-- All recurrences take the values of their drivers at once. -/
def latched (c : Circuit Action) (x : Snapshot) : Snapshot :=
  { x with values := fun r => (c.driver? r).elim (x.values r) x.values }

def cycled (c : Circuit Action) (order : List KernelId) (x : Snapshot) : Nat → Snapshot
  | 0 => x
  | n + 1 => c.latched (c.swept Kernel.fire order (cycled c order x n))

/-- The values at the end of the firing in each cycle after a restart. -/
def flow (c : Circuit Action) (order : List KernelId) (x : Snapshot) (n : Nat) :
    RegisterId → Array Float32 :=
  (c.swept Kernel.fire order (c.cycled order (c.swept Kernel.restart order x) n)).values

/-- A kernel changes its own registers and its own sensor only. -/
structure Kernel.Local (act : Kernel Action → Snapshot → Snapshot) : Prop where
  values : ∀ (k : Kernel Action) x, ∀ r ∉ k.outputs, (act k x).values r = x.values r
  intakes : ∀ (k : Kernel Action) x, ∀ i ≠ k.id, (act k x).intakes i = x.intakes i

theorem Kernel.local_fire : Kernel.Local Kernel.fire := by
  refine ⟨fun k x r hr => ?_, fun k x i hi => ?_⟩
  · unfold Kernel.fire
    cases k.action with
    | device d => exact if_neg hr
    | host t f => exact if_neg hr
    | sensor s =>
        dsimp only
        cases s.due (x.intakes k.id) with
        | none => rfl
        | some frame => exact if_neg hr
    | actuator a => rfl
    | constant t values => rfl
    | recurrence t values => rfl
  · unfold Kernel.fire
    cases k.action with
    | sensor s =>
        dsimp only
        cases s.due (x.intakes k.id) with
        | none => exact Function.update_of_ne hi ..
        | some frame => exact Function.update_of_ne hi ..
    | device d => rfl
    | host t f => rfl
    | actuator a => rfl
    | constant t values => rfl
    | recurrence t values => rfl

theorem Kernel.fire_eq_self {k : Kernel Action}
    (hkind : k.action.kind = .constant ∨ k.action.kind = .recurrence) (x : Snapshot) :
    k.fire x = x := by
  unfold Kernel.fire
  cases haction : k.action with
  | constant | recurrence => rfl
  | device | sensor | actuator | host =>
      rw [haction] at hkind
      rcases hkind with hkind | hkind <;> cases hkind

section Sensor

variable {k : Kernel Action} {s : SensorKernel} {x : Snapshot} {r : RegisterId}

theorem Kernel.intakes_fire_sensor (haction : k.action = .sensor s) :
    (k.fire x).intakes k.id = s.next (x.intakes k.id) := by
  rw [Kernel.fire, haction]
  exact Function.update_self ..

theorem Kernel.values_fire_sensor (haction : k.action = .sensor s) (hr : r ∈ k.outputs) :
    (k.fire x).values r = (s.due (x.intakes k.id)).elim (x.values r) s.fieldType.stored := by
  rw [Kernel.fire, haction]
  dsimp only
  cases s.due (x.intakes k.id) with
  | none => rfl
  | some frame => exact if_pos hr

theorem Kernel.logs_fire_sensor (haction : k.action = .sensor s) : (k.fire x).logs = x.logs := by
  rw [Kernel.fire, haction]
  dsimp only
  cases s.due (x.intakes k.id) <;> rfl

end Sensor

theorem Kernel.local_restart : Kernel.Local Kernel.restart := by
  refine ⟨fun k x r hr => ?_, fun k x i hi => ?_⟩
  · unfold Kernel.restart
    cases k.action with
    | constant t values => exact if_neg hr
    | recurrence t values => exact if_neg hr
    | sensor s => exact if_neg hr
    | device d => rfl
    | host t f => rfl
    | actuator a => rfl
  · unfold Kernel.restart
    cases k.action with
    | sensor s => exact Function.update_of_ne hi ..
    | device d => rfl
    | host t f => rfl
    | actuator a => rfl
    | constant t values => rfl
    | recurrence t values => rfl

section Swept

variable {c : Circuit Action} {act : Kernel Action → Snapshot → Snapshot} {x : Snapshot}

theorem swept_nil : c.swept act [] x = x := rfl

theorem swept_append (order later : List KernelId) :
    c.swept act (order ++ later) x = c.swept act later (c.swept act order x) :=
  List.foldl_append

theorem swept_cons {i : KernelId} {k : Kernel Action} (hk : c.kernels[i]? = some k)
    (later : List KernelId) : c.swept act (i :: later) x = c.swept act later (act k x) := by
  rw [swept, List.foldl_cons, hk]
  rfl

theorem values_swept_of_notMem (hact : Kernel.Local act) (hc : c.WellFormed)
    {order : List KernelId} {r : RegisterId} (h : ∀ p ∈ order, c.producer? r ≠ some p) :
    (c.swept act order x).values r = x.values r := by
  induction order generalizing x with
  | nil => rfl
  | cons i order ih =>
      have hrest := fun p hp => h p (List.mem_cons_of_mem i hp)
      rw [swept, List.foldl_cons]
      cases hk : c.kernels[i]? with
      | none => exact ih hrest
      | some k =>
          refine (ih (x := act k x) hrest).trans (hact.values k x r fun hr => ?_)
          refine h i (List.mem_cons_self ..) ?_
          exact hc.drives i k hk r hr

theorem intakes_swept_of_notMem (hact : Kernel.Local act) (hc : c.WellFormed)
    {order : List KernelId} {j : KernelId} (h : j ∉ order) :
    (c.swept act order x).intakes j = x.intakes j := by
  induction order generalizing x with
  | nil => rfl
  | cons i order ih =>
      obtain ⟨hne, hrest⟩ := not_or.1 (mt List.mem_cons.2 h)
      rw [swept, List.foldl_cons]
      cases hk : c.kernels[i]? with
      | none => exact ih hrest
      | some k =>
          refine (ih (x := act k x) hrest).trans (hact.intakes k x j ?_)
          rw [hc.id i k hk]
          exact hne

/-- When a kernel acts, its inputs have the values that they keep. -/
theorem values_swept_input (hact : Kernel.Local act) (hc : c.WellFormed)
    {earlier later : List KernelId} {i : KernelId} (ho : c.Topological (earlier ++ i :: later))
    {k : Kernel Action} (hk : c.kernels[i]? = some k) {r : RegisterId} (hr : r ∈ k.inputs) :
    (c.swept act earlier x).values r = (c.swept act (earlier ++ i :: later) x).values r := by
  obtain ⟨k', hk', hinputs⟩ := ho.sorted earlier i later rfl
  obtain rfl : k' = k := Option.some.inj (hk'.symm.trans hk)
  obtain ⟨-, -, hdisjoint⟩ := List.nodup_append.1 ho.nodup
  obtain ⟨p, hp, hproducer⟩ := hinputs r hr
  rw [swept_append]
  refine (values_swept_of_notMem hact hc fun q hq heq => ?_).symm
  exact hdisjoint p hp q hq (Option.some.inj (hproducer.symm.trans heq))

theorem exists_swept (hact : Kernel.Local act) (hc : c.WellFormed) {order : List KernelId}
    (ho : c.Topological order) {i : KernelId} {k : Kernel Action} (hk : c.kernels[i]? = some k) :
    ∃ y, (∀ r ∈ k.inputs, y.values r = (c.swept act order x).values r) ∧
      (∀ r ∈ k.outputs, y.values r = x.values r) ∧ y.intakes k.id = x.intakes k.id ∧
      (∀ r ∈ k.outputs, (c.swept act order x).values r = (act k y).values r) ∧
      (c.swept act order x).intakes k.id = (act k y).intakes k.id := by
  have hmem : i ∈ order := (ho.complete i).2 (Array.getElem?_eq_some_iff.1 hk).1
  obtain ⟨earlier, later, rfl⟩ := List.append_of_mem hmem
  obtain ⟨-, hlater, -⟩ := List.nodup_append.1 ho.nodup
  have hi : i ∉ later := (List.nodup_cons.1 hlater).1
  have hearlier : i ∉ earlier := ho.notMem_earlier
  have hid : k.id = i := hc.id i k hk
  have hdrives : ∀ r ∈ k.outputs, ∀ p, c.producer? r = some p → p = i := by
    intro r hr p hp
    rw [hc.drives i k hk r hr] at hp
    exact (Option.some.inj hp).symm
  refine ⟨c.swept act earlier x, ?_, ?_, ?_, ?_, ?_⟩
  · exact fun r hr => values_swept_input hact hc ho hk hr
  · intro r hr
    refine values_swept_of_notMem hact hc fun q hq heq => hearlier ?_
    exact hdrives r hr q heq ▸ hq
  · rw [hid]
    exact intakes_swept_of_notMem hact hc hearlier
  · intro r hr
    rw [swept_append, swept_cons hk]
    refine values_swept_of_notMem hact hc fun q hq heq => hi ?_
    exact hdrives r hr q heq ▸ hq
  · rw [swept_append, swept_cons hk, hid]
    exact intakes_swept_of_notMem hact hc hi

end Swept

section Cycles

variable {c : Circuit Action} {order : List KernelId} {i j : KernelId} {k k' : Kernel Action}
  {r : RegisterId} {x : Snapshot}

theorem WellFormed.eq_of_mem_outputs (hc : c.WellFormed) (hk : c.kernels[i]? = some k)
    (hk' : c.kernels[j]? = some k') (hr : r ∈ k.outputs) (hr' : r ∈ k'.outputs) : k = k' := by
  have hid : i = j := Option.some.inj
    ((hc.drives i k hk r hr).symm.trans (hc.drives j k' hk' r hr'))
  subst hid
  exact Option.some.inj (hk.symm.trans hk')

theorem WellFormed.driver?_eq_none (hc : c.WellFormed) (hk : c.kernels[i]? = some k)
    (hr : r ∈ k.outputs) (hkind : k.kind ≠ .recurrence) : c.driver? r = none := by
  have hfind : c.recurrences.find? (·.register == r) = none := by
    rw [List.find?_eq_none]
    intro b hb heq
    have hmem : r ∈ c.recurrences.map Binding.register := beq_iff_eq.1 heq ▸ List.mem_map_of_mem hb
    obtain ⟨j, k', hk', hr', hkind'⟩ := (hc.recurrences r).1 hmem
    rw [hc.eq_of_mem_outputs hk hk' hr hr'] at hkind
    exact hkind hkind'
  rw [driver?, hfind]
  rfl

theorem WellFormed.driver?_register (hc : c.WellFormed) {b : Binding} (hb : b ∈ c.recurrences) :
    c.driver? b.register = b.driver := by
  have hfind : c.recurrences.find? (·.register == b.register) = some b := by
    have hnodup := hc.distinct
    generalize c.recurrences = bindings at hb hnodup
    induction bindings with
    | nil => cases hb
    | cons a rest ih =>
        obtain ⟨ha, hrest⟩ := List.nodup_cons.1 hnodup
        rcases List.mem_cons.1 hb with rfl | hb
        · simp
        · have hne : (a.register == b.register) = false := by
            rw [beq_eq_false_iff_ne]
            intro heq
            exact ha (heq ▸ List.mem_map_of_mem hb)
          rw [List.find?_cons, hne]
          exact ih hb hrest
  rw [driver?, hfind]
  rfl

theorem values_latched (hc : c.WellFormed) (hk : c.kernels[i]? = some k) (hr : r ∈ k.outputs)
    (hkind : k.kind ≠ .recurrence) : (c.latched x).values r = x.values r := by
  simp [latched, hc.driver?_eq_none hk hr hkind]

theorem values_swept_fire (hc : c.WellFormed) (hk : c.kernels[i]? = some k) (hr : r ∈ k.outputs)
    (hfire : ∀ y, k.fire y = y) : (c.swept Kernel.fire order x).values r = x.values r := by
  induction order generalizing x with
  | nil => rfl
  | cons j order ih =>
      rw [swept, List.foldl_cons]
      cases hj : c.kernels[j]? with
      | none => exact ih
      | some k' =>
          refine (ih (x := k'.fire x)).trans ?_
          by_cases hr' : r ∈ k'.outputs
          · rw [← hc.eq_of_mem_outputs hk hj hr hr', hfire]
          · exact Kernel.local_fire.values k' x r hr'

theorem values_cycled_constant (hc : c.WellFormed) (ho : c.Topological order)
    (hk : c.kernels[i]? = some k) (hr : r ∈ k.outputs) {t : FieldType} {values : Array Float32}
    (haction : k.action = .constant t values) (n : Nat) :
    (c.cycled order (c.swept Kernel.restart order x) n).values r = t.stored values := by
  have hkind : k.kind ≠ .recurrence := by
    rw [(hc.fits i k hk).kind, haction]
    exact fun h => by cases h
  induction n with
  | zero =>
      obtain ⟨y, -, -, -, hvalue, -⟩ := exists_swept (x := x) Kernel.local_restart hc ho hk
      rw [cycled, hvalue r hr, Kernel.restart, haction]
      exact if_pos hr
  | succ n ih =>
      rw [cycled, values_latched hc hk hr hkind, values_swept_fire hc hk hr, ih]
      intro y
      rw [Kernel.fire, haction]

theorem Kernel.fire_sensor {s : SensorKernel} (haction : k.action = .sensor s) {n : Nat}
    (hx : x.intakes k.id = s.intakeAfter n) : (k.fire x).intakes k.id = s.intakeAfter (n + 1) ∧
      ∀ r ∈ k.outputs, (k.fire x).values r =
        (s.published n).elim (x.values r) s.fieldType.stored := by
  obtain ⟨hdue, hnext⟩ := s.due_intakeAfter n
  refine ⟨?_, fun r hr => ?_⟩
  · rw [Kernel.intakes_fire_sensor haction, hx, hnext]
  · rw [Kernel.values_fire_sensor haction hr, hx, hdue]

/-- A sensor shows what it has published, and has come as far as there were cycles. -/
theorem cycled_sensor (hc : c.WellFormed) (ho : c.Topological order)
    (hk : c.kernels[i]? = some k) (hr : r ∈ k.outputs) {s : SensorKernel}
    (haction : k.action = .sensor s) (hx : x.intakes k.id = s.intake) (n : Nat) :
    (c.cycled order (c.swept Kernel.restart order x) n).values r = s.shown n ∧
      (c.cycled order (c.swept Kernel.restart order x) n).intakes k.id = s.intakeAfter n := by
  have hkind : k.kind ≠ .recurrence := by
    rw [(hc.fits i k hk).kind, haction]
    exact fun h => by cases h
  induction n with
  | zero =>
      obtain ⟨y, -, -, hintake, hvalue, hmoved⟩ :=
        exists_swept (x := x) Kernel.local_restart hc ho hk
      rw [cycled, hvalue r hr, hmoved, Kernel.restart, haction]
      refine ⟨if_pos hr, ?_⟩
      rw [hintake, hx]
      exact Function.update_self ..
  | succ n ih =>
      obtain ⟨y, -, hout, hintake, hvalue, hmoved⟩ := exists_swept
        (x := c.cycled order (c.swept Kernel.restart order x) n) Kernel.local_fire hc ho hk
      obtain ⟨hnext, hshown⟩ := Kernel.fire_sensor haction (hintake.trans ih.2)
      refine ⟨?_, hmoved.trans hnext⟩
      rw [cycled, values_latched hc hk hr hkind, hvalue r hr, hshown r hr, hout r hr, ih.1,
        SensorKernel.shown]
      cases s.published n <;> rfl

/-- The values at the end of every cycle's firing are the dataflow. -/
theorem dataflow_cycled (hc : c.WellFormed) (ho : c.Topological order) (hx : x.Tracks c) :
    c.Dataflow (c.flow order x) := by
  have hat : ∀ k ∈ c.kernels, ∃ i : KernelId, c.kernels[i]? = some k :=
    fun k hk => Array.getElem?_of_mem hk
  refine ⟨?_, ?_, ?_, ?_, ?_, ?_⟩
  · intro k hk r hr t values haction n
    obtain ⟨i, hk⟩ := hat k hk
    rw [flow, values_swept_fire hc hk hr fun y => by rw [Kernel.fire, haction]]
    exact values_cycled_constant hc ho hk hr haction n
  · intro k hk r hr s haction n
    obtain ⟨i, hk⟩ := hat k hk
    have hkind : k.kind ≠ .recurrence := by
      rw [(hc.fits i k hk).kind, haction]
      exact fun h => by cases h
    have hshown := (cycled_sensor hc ho hk hr haction (hx i k hk s haction) (n + 1)).1
    rw [cycled, values_latched hc hk hr hkind] at hshown
    exact hshown
  · intro k hk r hr d haction n
    obtain ⟨i, hk⟩ := hat k hk
    obtain ⟨y, hin, -, -, hvalue, -⟩ := exists_swept
      (x := c.cycled order (c.swept Kernel.restart order x) n) Kernel.local_fire hc ho hk
    unfold flow
    rw [hvalue r hr, Kernel.fire, haction, ← List.map_congr_left hin]
    exact if_pos hr
  · intro k hk r hr t f haction n
    obtain ⟨i, hk⟩ := hat k hk
    obtain ⟨y, hin, -, -, hvalue, -⟩ := exists_swept
      (x := c.cycled order (c.swept Kernel.restart order x) n) Kernel.local_fire hc ho hk
    unfold flow
    rw [hvalue r hr, Kernel.fire, haction, ← List.map_congr_left hin]
    exact if_pos hr
  · intro k hk r hr t values haction
    obtain ⟨i, hk⟩ := hat k hk
    rw [flow, values_swept_fire hc hk hr fun y => by rw [Kernel.fire, haction]]
    obtain ⟨y, -, -, -, hvalue, -⟩ := exists_swept (x := x) Kernel.local_restart hc ho hk
    rw [cycled, hvalue r hr, Kernel.restart, haction]
    exact if_pos hr
  · intro b hb d hd n
    obtain ⟨i, k, hk, hr, hkind⟩ := (hc.recurrences b.register).1 (List.mem_map_of_mem hb)
    rw [(hc.fits i k hk).kind] at hkind
    rw [flow, flow, values_swept_fire hc hk hr (Kernel.fire_eq_self (.inr hkind))]
    simp [cycled, latched, hc.driver?_register hb, hd]

/-- The machine has what the registers show. -/
theorem values_cycled_of_visible (hc : c.WellFormed) (ho : c.Topological order)
    (hx : x.Tracks c) {n : Nat} {value : Array Float32}
    (h : c.visible (c.flow order x) n r = some value) :
    (c.cycled order (c.swept Kernel.restart order x) n).values r = value := by
  obtain ⟨i, hi, h⟩ := Option.bind_eq_some_iff.1 h
  obtain ⟨k, hk, h⟩ := Option.bind_eq_some_iff.1 h
  obtain ⟨k', hk', hr⟩ := hc.driven r i hi
  obtain rfl : k' = k := Option.some.inj (hk'.symm.trans hk)
  have hnext : k'.kind ≠ .recurrence → ∀ n,
      (c.cycled order (c.swept Kernel.restart order x) (n + 1)).values r = c.flow order x n r :=
    fun hkind n => values_latched hc hk hr hkind
  rw [(hc.fits i k' hk).kind] at hnext
  cases haction : k'.action with
  | constant t values =>
      rw [haction] at h
      rw [← Option.some.inj h]
      exact (values_swept_fire hc hk hr fun y => by rw [Kernel.fire, haction]).symm
  | recurrence t values =>
      rw [haction] at h
      rw [← Option.some.inj h]
      exact (values_swept_fire hc hk hr fun y => by rw [Kernel.fire, haction]).symm
  | sensor s =>
      rw [haction] at h
      rw [← Option.some.inj h]
      exact (cycled_sensor hc ho hk hr haction (hx i k' hk s haction) n).1
  | device d =>
      rw [haction] at h hnext
      cases n with
      | zero => cases h
      | succ n => rw [← Option.some.inj h, hnext fun hkind => by cases hkind]
  | host t f =>
      rw [haction] at h hnext
      cases n with
      | zero => cases h
      | succ n => rw [← Option.some.inj h, hnext fun hkind => by cases hkind]
  | actuator a =>
      rw [haction] at h
      cases h

end Cycles

section Logs

variable {c : Circuit Action} {order : List KernelId} {x : Snapshot}

theorem Kernel.logs_fire (k : Kernel Action) (x : Snapshot) (log : Nat) :
    (k.fire x).logs[log]? = x.logs[log]?.map fun l =>
      (k.recorded? log).elim l fun r => l.record (x.values r) := by
  unfold Kernel.fire Kernel.recorded?
  cases haction : k.action with
  | actuator a => cases a with
    | recording m =>
        simp only [Actuator.taken, Array.getElem?_modify]
        by_cases hm : m = log <;> simp [hm]
    | discarding => simp [Actuator.taken]
  | sensor s =>
      dsimp only
      cases s.due (x.intakes k.id) <;> simp [Snapshot.moved, Snapshot.put]
  | device d => simp [Snapshot.put]
  | host t f => simp [Snapshot.put]
  | constant t values => simp
  | recurrence t values => simp

theorem Kernel.logs_restart (k : Kernel Action) (x : Snapshot) (log : Nat) :
    (k.restart x).logs[log]? = x.logs[log]?.map fun l => (k.recorded? log).elim l fun _ => l.reset := by
  unfold Kernel.restart Kernel.recorded?
  cases haction : k.action with
  | actuator a => cases a with
    | recording m =>
        simp only [Actuator.cleared, Array.getElem?_modify]
        by_cases hm : m = log <;> simp [hm]
    | discarding => simp [Actuator.cleared]
  | sensor s => simp [Snapshot.moved, Snapshot.put]
  | device d => simp
  | host t f => simp
  | constant t values => simp [Snapshot.put]
  | recurrence t values => simp [Snapshot.put]

theorem WellFormed.mem_inputs_of_recorded? (hc : c.WellFormed) {i : KernelId} {k : Kernel Action}
    (hk : c.kernels[i]? = some k) {log : Nat} {r : RegisterId} (h : k.recorded? log = some r) :
    r ∈ k.inputs := by
  obtain ⟨types, hinputs, hsuits⟩ := (hc.fits i k hk).inputs
  have hlength : k.inputs.length = types.length := by
    simpa using congrArg List.length hinputs
  unfold Kernel.recorded? at h
  split at h
  · rename_i l haction
    rw [haction] at hsuits
    split at h
    · obtain ⟨r', hr'⟩ := List.length_eq_one_iff.1 (hlength.trans hsuits)
      rw [← Option.some.inj h, hr']
      exact List.mem_singleton_self r'
    · cases h
  · cases h

theorem recorded_cons {i : KernelId} {k : Kernel Action} (hk : c.kernels[i]? = some k)
    (later : List KernelId) (log : Nat) : c.recorded (i :: later) log =
      (k.recorded? log).elim (c.recorded later log) (· :: c.recorded later log) := by
  rw [recorded, List.filterMap_cons, hk, Option.bind_some]
  cases k.recorded? log <;> rfl

theorem logs_swept_fire (hc : c.WellFormed) (ho : c.Topological order) (log : Nat) :
    (c.swept Kernel.fire order x).logs[log]? = x.logs[log]?.map fun l =>
      ((c.recorded order log).map (c.swept Kernel.fire order x).values).foldl Log.record l := by
  -- what remains to be done after some kernels have fired
  have hall : ∀ later earlier, order = earlier ++ later →
      (c.swept Kernel.fire order x).logs[log]? = (c.swept Kernel.fire earlier x).logs[log]?.map
        fun l => ((c.recorded later log).map (c.swept Kernel.fire order x).values).foldl
          Log.record l := by
    intro later
    induction later with
    | nil =>
        intro earlier heq
        rw [heq, List.append_nil]
        simp [recorded]
    | cons i later ih =>
        intro earlier heq
        obtain ⟨k, hk, -⟩ := ho.sorted earlier i later heq
        rw [ih (earlier ++ [i]) (by simp [heq]), swept_append, swept_cons hk,
          swept_nil, Kernel.logs_fire, Option.map_map, recorded_cons hk]
        congr 1
        funext l
        cases hr : k.recorded? log with
        | none => rfl
        | some r =>
            have hinput := values_swept_input (x := x) Kernel.local_fire hc (heq ▸ ho) hk
              (hc.mem_inputs_of_recorded? hk hr)
            rw [← heq] at hinput
            simp [hinput]
  exact hall order [] rfl

theorem logs_swept_restart (log : Nat) : (c.swept Kernel.restart order x).logs[log]? =
    x.logs[log]?.map (Log.reset^[(c.recorded order log).length]) := by
  induction order generalizing x with
  | nil => simp [swept, recorded]
  | cons i order ih =>
      cases hk : c.kernels[i]? with
      | none => simpa [swept, recorded, hk] using ih
      | some k =>
          rw [swept_cons hk, ih, Kernel.logs_restart, Option.map_map, recorded_cons hk]
          congr 1
          funext l
          cases k.recorded? log with
          | none => rfl
          | some r => rfl

theorem frames_foldl_record (frames : List (Array Float32)) (l : Log) :
    (frames.foldl Log.record l).frames = l.frames ++ frames.toArray := by
  induction frames generalizing l with
  | nil => simp
  | cons frame frames ih => simp [ih, Log.record]

/-- A log holds, cycle after cycle, the values of the registers that are recorded in it. -/
theorem logs_cycled (hc : c.WellFormed) (ho : c.Topological order) {log : Nat} {l : Log}
    (hl : x.logs[log]? = some l) (hrecorded : c.recorded order log ≠ []) (n : Nat) :
    ∃ l', (c.cycled order (c.swept Kernel.restart order x) n).logs[log]? = some l' ∧
      l'.frames = ((List.range n).flatMap fun m =>
        (c.recorded order log).map (c.flow order x m)).toArray := by
  induction n with
  | zero =>
      refine ⟨_, by rw [cycled, logs_swept_restart, hl, Option.map_some], ?_⟩
      obtain ⟨m, hm⟩ := Nat.exists_eq_succ_of_ne_zero (mt List.length_eq_zero_iff.1 hrecorded)
      rw [hm, Function.iterate_succ_apply']
      rfl
  | succ n ih =>
      obtain ⟨l', hl', hframes⟩ := ih
      refine ⟨_, by rw [cycled, latched, logs_swept_fire hc ho, hl', Option.map_some], ?_⟩
      rw [frames_foldl_record, hframes, List.range_succ, List.flatMap_append]
      simp [flow]

end Logs

end Circuit

end FieldCircuit
