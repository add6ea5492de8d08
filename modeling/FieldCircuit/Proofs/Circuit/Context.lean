import FieldCircuit.Circuit.Context
import FieldCircuit.Proofs.Circuit.Construction
import FieldCircuit.Proofs.Leading

/-!
# Construction in place is construction

A request that changes the circuit in place replaces it by the circuit that would have been constructed
from it, or leaves it as it was: whatever can be wrong with a request is found before the first change,
and looking up the register of a kernel that has been added cannot fail. So a refused request changes
nothing, and one that is not refused adds one kernel and keeps everything that was there.
-/

namespace FieldCircuit

namespace Circuit

variable {σ : Type}

/-- The circuit `c'` is `c` with the kernel `k`. Registers that were there are as they were, except that
the kernel has become a consumer of those that it reads; registers that were not are driven by it, and
so are recurrences, which are not bound. -/
structure Grows (c : Circuit σ) (k : Kernel σ) (c' : Circuit σ) : Prop where
  kernels : c'.kernels = c.kernels.push k
  id : k.id = c.kernels.size
  kept : ∀ (r : RegisterId) w, c.registers[r]? = some w → c'.registers[r]? = some { w with
    consumers := if r ∈ k.inputs ∧ k.id ∉ w.consumers then w.consumers ++ [k.id] else w.consumers }
  fresh : ∀ (r : RegisterId) w, c.registers.size ≤ r → c'.registers[r]? = some w →
    r ∈ k.outputs ∧ w.id = r ∧ w.producer = k.id ∧ w.consumers = []
  recurrences : ∃ unbound : List Binding, c'.recurrences = c.recurrences ++ unbound ∧
    ∀ b ∈ unbound, b.register ∈ k.outputs ∧ b.driver = none

theorem grows_of_addKernel {c c' : Circuit σ} {opcode : Opcode} {inputs : List RegisterId}
    {outputs : List (String × FieldType)} {action : σ} {id : KernelId}
    (h : c.addKernel opcode inputs outputs action = .ok (id, c')) :
    c.Grows (c.newKernel opcode inputs outputs.length action) c' := by
  obtain ⟨rfl, hkernels, -, -⟩ := addKernel_eq_ok h
  refine ⟨hkernels, rfl, fun r w hw => ?_, fun r w hr hw => ?_, ?_⟩
  · have hr := (Array.getElem?_eq_some_iff.1 hw).1
    rw [getElem?_addKernel_of_lt h hr, hw, Option.map_some, newKernel, Wire.addConsumer]
    by_cases hread : r ∈ inputs <;> by_cases hlisted : c.kernels.size ∈ w.consumers <;>
      simp [hread, hlisted]
  · rw [getElem?_addKernel_fresh h hr] at hw
    obtain ⟨o, ho, rfl⟩ := Option.map_eq_some_iff.1 hw
    refine ⟨mem_outputs_newKernel.2 ⟨hr, ?_⟩, rfl, rfl, rfl⟩
    exact (List.getElem?_eq_some_iff.1 ho).1
  · rcases recurrences_addKernel h with ⟨-, heq⟩ | ⟨-, heq⟩
    · refine ⟨_, heq, fun b hb => ?_⟩
      obtain ⟨r, hr, rfl⟩ := List.mem_map.1 hb
      exact ⟨hr, rfl⟩
    · exact ⟨[], by rw [heq, List.append_nil], fun b hb => by cases hb⟩

def Adds (c c' : Circuit σ) : Prop :=
  ∃ opcode inputs outputs action id, c.addKernel opcode inputs outputs action = .ok (id, c')

theorem Adds.grows {c c' : Circuit σ} (h : c.Adds c') : ∃ k, c.Grows k c' := by
  obtain ⟨_, _, _, _, _, hadd⟩ := h
  exact ⟨_, grows_of_addKernel hadd⟩

theorem Wired.adds {c c' : Circuit σ} (h : c.Wired) (hadds : c.Adds c') : c'.Wired := by
  obtain ⟨_, _, _, _, _, hadd⟩ := hadds
  exact h.addKernel hadd

/-- Binding the recurrence that is found for a register binds all recurrences of the register, of which
there is one. -/
theorem replace_find? {l : List Binding} (h : (l.map Binding.register).Nodup) {r : RegisterId}
    {b : Binding} (hfind : l.find? (·.register == r) = some b) (driver : Option RegisterId) :
    l.replace b { b with driver } =
      l.map fun x => if x.register = r then { x with driver } else x := by
  induction l with
  | nil => rfl
  | cons x l ih =>
      obtain ⟨hx, hl⟩ := List.nodup_cons.1 h
      by_cases hr : x.register = r
      · rw [List.find?_cons_of_pos (by simpa using hr)] at hfind
        obtain rfl := Option.some.inj hfind
        have hothers : (l.map fun y => if y.register = r then { y with driver } else y) = l := by
          conv_rhs => rw [← List.map_id l]
          refine List.map_congr_left fun y hy => if_neg fun hyr => hx ?_
          exact hr.trans hyr.symm ▸ List.mem_map_of_mem hy
        rw [List.replace_cons_self, List.map_cons, if_pos hr, hothers]
      · rw [List.find?_cons_of_neg (by simpa using hr)] at hfind
        have hne : x ≠ b := by
          rintro rfl
          exact hr (by simpa using List.find?_some hfind)
        rw [List.replace_cons, beq_false_of_ne hne.symm, List.map_cons, if_neg hr, ih hl hfind]

/-- A kernel that has been added is found, and drives a register if its action has an output. -/
theorem exists_output_of_add {c c' : Circuit Action} {opcode : Opcode} {inputs : List RegisterId}
    {name : Option String} {action : Action} {id : KernelId}
    (h : c.add opcode inputs name action = .ok (id, c')) (hne : action.outputTypes ≠ []) :
    ∃ k r rest, c'.kernel id = .ok k ∧ k.outputs = r :: rest := by
  obtain ⟨rfl, hkernels, -, -⟩ := addKernel_eq_ok h
  generalize hn : (List.map _ _).length = n at hkernels
  have hpos : 0 < n := by
    rw [← hn, List.length_map, List.length_zipIdx]
    exact List.length_pos_iff.2 hne
  obtain ⟨r, rest, houtputs⟩ := List.exists_cons_of_length_pos
    (l := (c.newKernel opcode inputs n action).outputs) (by simpa [newKernel] using hpos)
  exact ⟨_, r, rest, by rw [kernel, hkernels, Array.getElem?_push_size], houtputs⟩

theorem adds_of_add {c c' : Circuit Action} {opcode : Opcode} {inputs : List RegisterId}
    {name : Option String} {action : Action} {id : KernelId}
    (h : c.add opcode inputs name action = .ok (id, c')) : c.Adds c' :=
  ⟨_, _, _, _, _, h⟩

theorem adds_of_addDriver {c c' : Circuit Action} {opcode : Opcode} {inputs : List RegisterId}
    {name : Option String} {action : Action} {r : RegisterId}
    (h : c.addDriver opcode inputs name action = .ok (r, c')) : c.Adds c' := by
  obtain ⟨id, hadd⟩ := addDriver_eq_ok h
  exact adds_of_add hadd

end Circuit

theorem Action.outputTypes_of_ofValues {name : String} {t : FieldType} {values : Array Float32}
    {a : Action} (h : Action.ofValues name t values = .ok a) : a.outputTypes = [t] := by
  obtain ⟨expected, -, h⟩ := bind_eq_ok_iff.1 h
  by_cases hsize : values.size = expected
  · rw [if_neg (not_not.2 hsize)] at h
    rw [← Except.ok.inj h]
    rfl
  · rw [if_pos hsize] at h
    cases h

namespace Context

variable {α β : Type}

section Running

theorem ext {x y : ContextM α} (h : ∀ s, x.run.run s = y.run.run s) : x = y := funext h

theorem run_ask (f : Circuit Action → Except CircuitError α) (s : Context) :
    (ask f).run.run s = (f s.circuit, s) := by
  change (liftM (f s.circuit) : ContextM α).run.run s = _
  cases f s.circuit <;> rfl

theorem run_change (f : Circuit Action → Circuit Action) (s : Context) :
    (change f).run.run s = (.ok (), { s with circuit := f s.circuit }) := rfl

theorem run_onEnvironment (x : EnvironmentM α) (s : Context) : (onEnvironment x).run.run s =
    ((x.run.run s.environment).1, { s with environment := (x.run.run s.environment).2 }) := rfl

theorem run_commit (f : Circuit Action → EnvironmentM (α × Circuit Action)) (s : Context) :
    (commit f).run.run s = match (f s.circuit).run.run s.environment with
      | (.ok (a, c), env) => (.ok a, ⟨env, c⟩)
      | (.error e, env) => (.error e, ⟨env, s.circuit⟩) := by
  change (onEnvironment (f s.circuit) >>= fun x =>
    (change fun _ => x.2) >>= fun _ => pure x.1).run.run s = _
  rw [run_bind, run_onEnvironment]
  generalize (f s.circuit).run.run s.environment = result
  rcases result with ⟨_ | ⟨a, c⟩, env⟩ <;> rfl

theorem ask_bind (g : Circuit Action → Except CircuitError α)
    (f : α → Circuit Action → EnvironmentM (β × Circuit Action)) :
    (ask g >>= fun a => commit (f a)) = commit fun c => liftM (g c) >>= fun a => f a c := by
  refine ext fun s => ?_
  rw [run_bind, run_ask, run_commit]
  cases g s.circuit with
  | error e => rfl
  | ok a => exact run_commit (f a) s

/-- Preparing something in the environment before a construction is part of the construction. -/
theorem onEnvironment_bind (x : EnvironmentM α)
    (f : α → Circuit Action → EnvironmentM (β × Circuit Action)) :
    (onEnvironment x >>= fun a => commit (f a)) = commit fun c => x >>= fun a => f a c := by
  refine ext fun s => ?_
  rw [run_bind, run_commit, run_bind, run_onEnvironment]
  generalize x.run.run s.environment = result
  rcases result with ⟨_ | a, env⟩
  · rfl
  · exact run_commit (f a) _

theorem lift_bind {x : Except CircuitError α} {f : α → ContextM β}
    {g : α → Circuit Action → EnvironmentM (β × Circuit Action)}
    (h : ∀ a, x = .ok a → f a = commit (g a)) :
    (liftM x >>= f) = commit fun c => liftM x >>= fun a => g a c := by
  cases x with
  | error e => rfl
  | ok a => exact h a rfl

theorem lift_bind_lift {x : Except CircuitError α} {f : α → ContextM β}
    {g : α → Circuit Action → Except CircuitError (β × Circuit Action)}
    (h : ∀ a, x = .ok a → f a = commit fun c => liftM (g a c)) :
    (liftM x >>= f) = commit fun c => liftM (x >>= fun a => g a c) := by
  cases x with
  | error e => rfl
  | ok a => exact h a rfl

theorem commit_map (f : Circuit Action → EnvironmentM (α × Circuit Action)) (g : α → β) :
    (do return g (← commit f) : ContextM β) = commit fun c => do
      let (a, c) ← f c
      return (g a, c) := by
  refine ext fun s => ?_
  rw [run_bind, run_commit, run_commit, run_bind]
  generalize (f s.circuit).run.run s.environment = result
  rcases result with ⟨_ | ⟨a, c⟩, env⟩ <;> rfl

end Running

section Kernels

variable {opcode : Opcode} {inputs : List RegisterId} {outputs : List (String × FieldType)}
  {name : Option String} {action : Action} {id : KernelId}

theorem run_forM_ask {l : List β} (f : β → Circuit Action → Except CircuitError Unit) (s : Context) :
    (l.forM fun b => ask (f b)).run.run s = (l.forM fun b => f b s.circuit, s) := by
  induction l with
  | nil => rfl
  | cons b l ih =>
      change (ask (f b) >>= fun _ => l.forM fun b => ask (f b)).run.run s =
        (f b s.circuit >>= fun _ => l.forM fun b => f b s.circuit, s)
      rw [run_bind, run_ask]
      cases f b s.circuit with
      | error e => rfl
      | ok _ => exact ih

theorem run_forM_change {l : List β} (f : β → Circuit Action → Circuit Action) (s : Context) :
    (l.forM fun b => change (f b)).run.run s =
      (.ok (), { s with circuit := l.foldl (fun c b => f b c) s.circuit }) := by
  induction l generalizing s with
  | nil => rfl
  | cons b l ih => exact ih _

theorem run_addConsumers (id : KernelId) (inputs : List RegisterId) (s : Context) :
    (inputs.forM (addConsumer id)).run.run s = (.ok (), { s with circuit := { s.circuit with
      registers := Circuit.consume s.circuit.registers inputs id } }) := by
  refine (run_forM_change _ s).trans ?_
  congr 2
  generalize s.circuit = c
  induction inputs generalizing c with
  | nil => rfl
  | cons i inputs ih => exact ih _

theorem run_addRegisters (id : KernelId) (outputs : List (String × FieldType)) (s : Context) :
    (outputs.mapM fun (name, t) => addRegister id name t).run.run s =
      (.ok ((List.range outputs.length).map (s.circuit.registers.size + ·)),
        { s with circuit := { s.circuit with
          registers := Circuit.produce s.circuit.registers outputs id } }) := by
  induction outputs generalizing s with
  | nil => rfl
  | cons o outputs ih =>
      rw [List.mapM_cons, run_bind]
      change ((outputs.mapM fun (name, t) => addRegister id name t) >>= fun rest =>
        pure (s.circuit.registers.size :: rest)).run.run _ = _
      rw [run_bind, ih, List.length_cons, List.range_succ_eq_map, List.map_cons, List.map_map]
      have hshift : (s.circuit.registers.size + 1 + · : Nat → Nat) =
          (s.circuit.registers.size + ·) ∘ Nat.succ :=
        funext fun x => Nat.add_right_comm _ 1 x
      simp only [Array.size_push, hshift]
      rfl

theorem run_addRecurrences (registers : List RegisterId) (s : Context) :
    (registers.forM addRecurrence).run.run s = (.ok (), { s with circuit := { s.circuit with
      recurrences := s.circuit.recurrences ++ registers.map (⟨·, none⟩) } }) := by
  refine (run_forM_change _ s).trans ?_
  congr 2
  generalize s.circuit = c
  induction registers generalizing c with
  | nil => simp
  | cons r registers ih =>
      rw [List.foldl_cons, ih]
      simp

/-- A kernel is added in place as it is added to a circuit. -/
theorem addKernel_eq : addKernel opcode inputs outputs action =
    commit fun c => liftM (c.addKernel opcode inputs outputs action) := by
  refine ext fun s => ?_
  rw [run_commit, addKernel, run_bind, run_forM_ask, Circuit.addKernel]
  -- Only an input can be missing, and all of them are looked up before the first change.
  cases inputs.forM fun input => discard (s.circuit.register input) with
  | error e => rfl
  | ok _ =>
      dsimp only
      rw [run_bind, run_get]
      dsimp only
      rw [run_bind, run_addConsumers]
      dsimp only
      rw [run_bind, run_addRegisters, ok_bind]
      dsimp only
      rw [Circuit.size_consume]
      by_cases hkind : opcode.kind = .recurrence
      · simp only [if_pos hkind]
        rw [run_bind, run_addRecurrences]
        dsimp only
        rw [run_bind, run_change]
        simp only [hkind]
        rfl
      · simp only [if_neg hkind]
        rw [run_bind, run_change]
        simp only [List.append_nil]
        rfl

theorem add_eq : add opcode inputs name action =
    commit fun c => liftM (c.add opcode inputs name action) := by
  refine ext fun s => ?_
  rw [add, run_bind, run_get]
  dsimp only
  rw [addKernel_eq, run_commit, run_commit, Circuit.add]

/-- Looking up the register of a kernel that has been added cannot fail. -/
theorem addDriver_eq (h : action.outputTypes ≠ []) : addDriver opcode inputs name action =
    commit fun c => liftM (c.addDriver opcode inputs name action) := by
  refine ext fun s => ?_
  rw [addDriver, add_eq, run_bind, run_commit, run_commit, Circuit.addDriver]
  cases hadd : s.circuit.add opcode inputs name action with
  | error e => rfl
  | ok result =>
      -- The kernel is in the circuit by now, so that a failure from here on would leave it there.
      obtain ⟨id, c⟩ := result
      obtain ⟨k, r, rest, hk, houtputs⟩ := Circuit.exists_output_of_add hadd h
      simp only [ok_bind, hk, houtputs]
      change (output id).run.run ⟨s.environment, c⟩ = (.ok r, ⟨s.environment, c⟩)
      rw [output, run_bind, run_ask]
      simp only [hk, houtputs]
      rfl

end Kernels

section Calls

variable {label : String} {t : FieldType} {inputs : List RegisterId}

theorem constant_eq {values : Array Float32} : constant label t values =
    commit fun c => liftM (c.constant label t values) :=
  lift_bind_lift fun a ha => addDriver_eq (by simp [Action.outputTypes_of_ofValues ha])

theorem sensor_eq {x : Sensor} : sensor label t x =
    commit fun c => liftM (c.sensor label t x) :=
  lift_bind_lift fun k _ => addDriver_eq (List.cons_ne_nil k.fieldType [])

theorem actuator_eq {input : RegisterId} {a : Actuator} : actuator label input a =
    commit fun c => liftM (c.actuator label input a) :=
  add_eq

theorem host_eq {function : HostFunction} : host label inputs t function =
    commit fun c => liftM (c.host label inputs t function) :=
  addDriver_eq (List.cons_ne_nil t [])

theorem recurrence_eq {initial : Option (Array Float32)} : recurrence label t initial =
    commit fun c => liftM (c.recurrence label t initial) := by
  have hadd : addDriver .recurrence [] (some label) (.recurrence t initial) = _ :=
    addDriver_eq (List.cons_ne_nil t [])
  unfold recurrence Circuit.recurrence
  cases initial with
  | none => exact hadd
  | some values =>
      refine lift_bind_lift fun expected _ => ?_
      by_cases hsize : values.size = expected
      · simp only [if_neg (not_not.2 hsize)]
        exact hadd
      · simp only [if_pos hsize]
        rfl

theorem operation_eq {name : Option String} {opcode : Opcode} :
    operation name opcode inputs = commit (·.operation name opcode inputs) := by
  have hadd : ∀ k, addDriver opcode inputs name (.device k) = _ := fun k =>
    addDriver_eq (List.cons_ne_nil k.operation.output [])
  simp only [operation, hadd, onEnvironment_bind, ask_bind]
  rfl

theorem copyKernel_eq {id : KernelId} : copyKernel id inputs = commit (·.copyKernel id inputs) := by
  simp only [copyKernel, add_eq, onEnvironment_bind, ask_bind]
  rfl

/-- A recurrence is bound in place as it is bound in a circuit, if no register is listed twice among
the recurrences. -/
theorem run_bindRecurrence {recurrence driver : RegisterId} {s : Context}
    (h : (s.circuit.recurrences.map Circuit.Binding.register).Nodup) :
    (bind recurrence driver).run.run s = match s.circuit.bind recurrence driver with
      | .ok c => (.ok (), { s with circuit := c })
      | .error e => (.error e, s) := by
  rw [bind, run_bind, run_ask, Circuit.bind]
  cases s.circuit.register recurrence with
  | error e => rfl
  | ok target =>
      dsimp only
      rw [run_bind, run_ask, ok_bind]
      cases s.circuit.register driver with
      | error e => rfl
      | ok source =>
          dsimp only
          rw [ok_bind]
          by_cases hself : recurrence = driver
          · rw [if_pos hself, if_pos hself]
            rfl
          by_cases htype : target.fieldType = source.fieldType
          · rw [if_neg hself, if_neg hself, if_neg (not_not.2 htype), if_neg (not_not.2 htype),
              run_bind, run_get]
            dsimp only
            cases hfind : s.circuit.recurrences.find? (·.register == recurrence) with
            | none => rfl
            | some b =>
                by_cases hbound : b.driver.isSome = true
                · simp only [if_pos hbound]
                  rfl
                · simp only [if_neg hbound]
                  rw [run_change, Circuit.replace_find? h hfind]
                  rfl
          · rw [if_neg hself, if_neg hself, if_pos htype, if_pos htype]
            rfl

theorem restoreConstant_eq {checkpoint : Checkpoint} :
    restoreConstant checkpoint = commit (Restorer.constant checkpoint · inputs) := by
  unfold restoreConstant Restorer.constant
  refine lift_bind fun text _ => lift_bind fun field _ => lift_bind fun text' _ =>
    lift_bind fun tensor _ => lift_bind fun name _ => ?_
  cases Element.ofName? name with
  | none => rfl
  | some element =>
      refine lift_bind fun t' _ => lift_bind fun values _ => ?_
      simp only [constant_eq]
      exact commit_map _ _

theorem restoreDevice_eq {checkpoint : Checkpoint} :
    restoreDevice checkpoint inputs = commit (Restorer.device checkpoint · inputs) := by
  unfold restoreDevice Restorer.device
  refine lift_bind fun text _ => lift_bind fun opcode _ => ?_
  rw [operation_eq]
  exact commit_map _ _

theorem restore_eq {checkpoint : Checkpoint} : restore checkpoint inputs =
    commit (RestoreRegistry.builtin.restore checkpoint · inputs) := by
  unfold restore RestoreRegistry.restore
  refine lift_bind fun tag _ => ?_
  by_cases hconstant : tag = constantTag
  · simp only [hconstant]
    exact lift_bind fun major _ => lift_bind fun minor _ => lift_bind fun _ _ => restoreConstant_eq
  by_cases hdevice : tag = deviceTag
  · simp only [hdevice]
    exact lift_bind fun major _ => lift_bind fun minor _ => lift_bind fun _ _ => restoreDevice_eq
  · have hentries : RestoreRegistry.builtin.entries =
        [(deviceTag, storedVersion, .device), (constantTag, storedVersion, .constant)] := rfl
    have hlookup : RestoreRegistry.builtin.entries.lookup tag = none := by
      rw [hentries, List.lookup_cons, beq_false_of_ne hdevice, List.lookup_cons,
        beq_false_of_ne hconstant, List.lookup_nil]
    simp only [hlookup, if_pos (And.intro hconstant hdevice)]
    rfl

end Calls

end Context

namespace Circuit

variable {c c' : Circuit Action} {inputs : List RegisterId}

/-! Requests draw on the environment only to make kernels for the accelerator. -/

variable {bad : CircuitError → Prop} {inv : Environment → Prop}
  (hinv : ∀ o types, KeepsUnless bad inv (DeviceKernel.of o types) fun _ => True)

include hinv

theorem keeps_adds_operation {name : Option String} {opcode : Opcode} :
    KeepsUnless bad inv (c.operation name opcode inputs) fun x => c.Adds x.2 :=
  KeepsUnless.lift_bind fun types => (hinv opcode types).bind fun _ _ =>
    (Keeps.lift fun _ hok => adds_of_addDriver hok).unless

theorem keeps_environment_copy (a : Action) (types : List FieldType) :
    KeepsUnless bad inv (a.copy types) fun _ => True := by
  cases a with
  | device k => exact (hinv k.opcode types).bind fun _ _ => KeepsUnless.pure trivial
  | sensor _ | actuator _ => exact (Keeps.throw _).unless
  | constant _ _ | host _ _ | recurrence _ _ => exact KeepsUnless.pure trivial

namespace Request

omit hinv in
def binds : Request → Bool
  | bind .. => true
  | _ => false

theorem keeps_adds_perform {r : Request} (hr : r.binds = false) :
    KeepsUnless bad inv (r.perform c) c.Adds := by
  cases r with
  | constant name t values =>
      exact (Keeps.lift_snd fun _ c' hok => adds_of_addDriver (constant_eq_ok_iff.1 hok).2).unless
  | sensor name t s =>
      refine (Keeps.lift_snd fun _ c' hok => ?_).unless
      obtain ⟨id, k, -, hadd⟩ := sensor_eq_ok hok
      exact adds_of_add hadd
  | host name inputs output function =>
      exact (Keeps.lift_snd fun _ c' hok => adds_of_addDriver hok).unless
  | operation name opcode inputs =>
      exact (keeps_adds_operation hinv).bind fun _ hadds => KeepsUnless.pure hadds
  | actuator name input a =>
      exact (Keeps.lift_snd fun _ c' hok => adds_of_add hok).unless
  | recurrence name t initial =>
      refine (Keeps.lift_snd fun _ c' hok => ?_).unless
      obtain ⟨id, -, hadd⟩ := recurrence_eq_ok hok
      exact adds_of_add hadd
  | copyKernel kernel inputs =>
      refine KeepsUnless.bind (p := fun x => c.Adds x.2) ?_ fun _ hadds => KeepsUnless.pure hadds
      exact KeepsUnless.lift_bind fun types => KeepsUnless.lift_bind fun k =>
        (keeps_environment_copy hinv k.action types).bind fun _ _ =>
        (Keeps.lift fun _ hok => adds_of_add hok).unless
  | bind target driver => cases hr

end Request

end Circuit

section Restoring

variable {c : Circuit Action} {checkpoint : Checkpoint} {inputs : List RegisterId}
  {bad : CircuitError → Prop} {inv : Environment → Prop}
  (hinv : ∀ o types, KeepsUnless bad inv (DeviceKernel.of o types) fun _ => True)

theorem Restorer.keeps_adds_constant :
    Keeps inv (Restorer.constant checkpoint c inputs) fun x => c.Adds x.2 := by
  refine Keeps.lift_bind fun text => Keeps.lift_bind fun field => Keeps.lift_bind fun text' =>
    Keeps.lift_bind fun tensor => Keeps.lift_bind fun name => ?_
  cases Element.ofName? name with
  | none => exact Keeps.throw _
  | some element =>
      refine Keeps.lift_bind fun t => Keeps.lift_bind fun values => ?_
      refine (Keeps.lift fun x hok => ?_).bind fun x hx => Keeps.pure hx
      exact Circuit.adds_of_addDriver (Circuit.constant_eq_ok_iff.1 hok).2

include hinv in
theorem Restorer.keeps_adds_device :
    KeepsUnless bad inv (Restorer.device checkpoint c inputs) fun x => c.Adds x.2 :=
  KeepsUnless.lift_bind fun _ => KeepsUnless.lift_bind fun _ =>
    (Circuit.keeps_adds_operation hinv).bind fun _ hadds => KeepsUnless.pure hadds

theorem RestoreRegistry.builtin_of_lookup {tag : String} {version : Version} {restorer : Restorer}
    (h : builtin.entries.lookup tag = some (version, restorer)) : version = storedVersion ∧
      (tag = deviceTag ∧ restorer = .device ∨ tag = constantTag ∧ restorer = .constant) := by
  have hmem : (tag, version, restorer) ∈
      [(deviceTag, storedVersion, Restorer.device), (constantTag, storedVersion, Restorer.constant)] :=
    mem_of_lookup h
  rcases List.mem_pair.1 hmem with heq | heq
  · obtain ⟨rfl, rfl, rfl⟩ := heq
    exact ⟨rfl, .inl ⟨rfl, rfl⟩⟩
  · obtain ⟨rfl, rfl, rfl⟩ := heq
    exact ⟨rfl, .inr ⟨rfl, rfl⟩⟩

include hinv in
theorem RestoreRegistry.keeps_adds_restore :
    KeepsUnless bad inv (builtin.restore checkpoint c inputs) fun x => c.Adds x.2 := by
  refine KeepsUnless.lift_bind fun tag => ?_
  cases hlookup : builtin.entries.lookup tag with
  | none => exact (Keeps.throw _).unless
  | some entry =>
      obtain ⟨version, restorer⟩ := entry
      refine KeepsUnless.lift_bind fun major => KeepsUnless.lift_bind fun minor =>
        KeepsUnless.lift_bind fun _ => ?_
      obtain ⟨-, ⟨-, rfl⟩ | ⟨-, rfl⟩⟩ := builtin_of_lookup hlookup
      · exact Restorer.keeps_adds_device hinv
      · exact Restorer.keeps_adds_constant.unless

end Restoring

namespace Context

inductive Request
  | construct (r : Circuit.Request)
  /-- A kernel that can be saved is restored. -/
  | restore (checkpoint : Checkpoint) (inputs : List RegisterId)

namespace Request

def binds : Request → Bool
  | construct r => r.binds
  | restore .. => false

def perform : Request → ContextM Unit
  | construct (.constant name t values) => discard (constant name t values)
  | construct (.sensor name t s) => discard (sensor name t s)
  | construct (.host name inputs output function) => discard (host name inputs output function)
  | construct (.operation name opcode inputs) => discard (operation name opcode inputs)
  | construct (.actuator name input a) => discard (actuator name input a)
  | construct (.recurrence name t initial) => discard (recurrence name t initial)
  | construct (.copyKernel kernel inputs) => discard (copyKernel kernel inputs)
  | construct (.bind target driver) => bind target driver
  | restore checkpoint inputs => discard (Context.restore checkpoint inputs)

def apply (s : Context) (r : Request) : Context := (r.perform.run.run s).2

theorem discard_commit {α : Type} (f : Circuit Action → EnvironmentM (α × Circuit Action)) :
    (discard (commit f) : ContextM Unit) = commit fun c => do return ((), (← f c).2) := by
  rw [discard, map_const, Function.comp_apply, map_eq_pure_bind]
  exact commit_map f fun _ => ()

/-- A request that does not bind a recurrence performs the construction that it asks for. -/
theorem perform_construct {r : Circuit.Request} (hr : r.binds = false) :
    (construct r).perform = commit fun c => do return ((), ← r.perform c) := by
  cases r with
  | bind target driver => cases hr
  | constant _ _ _ | sensor _ _ _ | host _ _ _ _ | operation _ _ _ | actuator _ _ _ | recurrence _ _ _
  | copyKernel _ _ =>
      simp only [perform, constant_eq, sensor_eq, host_eq, operation_eq, actuator_eq, recurrence_eq,
        copyKernel_eq, discard_commit, Circuit.Request.perform, bind_assoc, pure_bind]

/-- A construction that is committed leads to the circuit that it constructs. If it fails, the circuit is
as before. -/
theorem leads_commit {α : Type} {f : Circuit Action → EnvironmentM (α × Circuit Action)} {s : Context}
    (post : Circuit Action → Environment → Prop) {fail : CircuitError → Environment → Prop}
    (h : Leads (f s.circuit) s.environment (fun x env => post x.2 env) fail) :
    Leads (commit f) s (fun _ s' => post s'.circuit s'.environment)
      fun e s' => s'.circuit = s.circuit ∧ fail e s'.environment := by
  obtain ⟨hok, herror⟩ := h
  unfold Leads
  rw [run_commit]
  generalize (f s.circuit).run.run s.environment = result at hok herror
  obtain ⟨_ | ⟨a, c⟩, env⟩ := result
  · refine ⟨fun _ _ hrun => (by cases hrun), ?_⟩
    rintro _ _ ⟨⟩
    exact ⟨rfl, herror _ env rfl⟩
  · refine ⟨?_, fun _ _ hrun => by cases hrun⟩
    rintro _ _ ⟨⟩
    exact hok _ env rfl

theorem leads_ask {α β : Type} {f : Circuit Action → Except CircuitError α} {x : α → ContextM β}
    {s : Context} {post : β → Context → Prop} {fail : CircuitError → Context → Prop}
    (hx : ∀ a, Leads (x a) s post fail) (hfail : ∀ e, fail e s) : Leads (ask f >>= x) s post fail := by
  unfold Leads
  rw [run_bind, run_ask]
  cases f s.circuit with
  | ok a => exact hx a
  | error e => exact Leads.throw (hfail e)

/-- A recurrence that cannot be bound changes nothing, and binding one changes the circuit only. -/
theorem leads_bind (recurrence driver : RegisterId) (s : Context) :
    Leads (bind recurrence driver) s (fun _ s' => s'.environment = s.environment)
      fun _ s' => s' = s := by
  refine leads_ask (fun target => leads_ask (fun source => ?_) fun _ => rfl) fun _ => rfl
  by_cases hself : recurrence = driver
  · rw [if_pos hself]
    exact .of_error rfl rfl
  rw [if_neg hself]
  by_cases htype : target.fieldType = source.fieldType
  · rw [if_neg (not_not.2 htype)]
    refine .bind_get ?_
    cases s.circuit.recurrences.find? (·.register == recurrence) with
    | none => exact .throw rfl
    | some b =>
        by_cases hbound : b.driver.isSome = true
        · simp only [if_pos hbound]
          exact .of_error rfl rfl
        · simp only [if_neg hbound]
          exact .of_ok rfl rfl
  · rw [if_pos htype]
    exact .of_error rfl rfl

/-- A request that is not refused adds a kernel, unless it binds a recurrence, and one that is refused
leaves the circuit as it was. Neither breaks what making kernels keeps of the environment. -/
theorem leads_perform {bad : CircuitError → Prop} {inv : Environment → Prop}
    (hinv : ∀ o types, KeepsUnless bad inv (DeviceKernel.of o types) fun _ => True) (r : Request)
    {s : Context} (hs : inv s.environment) : Leads r.perform s
      (fun _ s' => (r.binds = false → s.circuit.Adds s'.circuit) ∧ inv s'.environment)
      fun e s' => s'.circuit = s.circuit ∧ (¬bad e → inv s'.environment) := by
  have hcommit : ∀ {α : Type} {f : Circuit Action → EnvironmentM (α × Circuit Action)},
      KeepsUnless bad inv (f s.circuit) (fun x => s.circuit.Adds x.2) → Leads (commit f) s
        (fun _ s' => (r.binds = false → s.circuit.Adds s'.circuit) ∧ inv s'.environment)
        fun e s' => s'.circuit = s.circuit ∧ (¬bad e → inv s'.environment) := fun h =>
    (leads_commit (fun c env => s.circuit.Adds c ∧ inv env) (h _ hs)).mono
      (fun _ _ h => ⟨fun _ => h.1, h.2⟩) fun _ _ h => h
  cases r with
  | restore checkpoint inputs =>
      rw [perform, restore_eq, discard_commit]
      exact hcommit ((RestoreRegistry.keeps_adds_restore hinv).bind
        fun _ hadds => KeepsUnless.pure hadds)
  | construct r =>
      cases hr : r.binds with
      | false =>
          rw [perform_construct hr]
          exact hcommit ((Circuit.Request.keeps_adds_perform hinv hr).bind
            fun _ hadds => KeepsUnless.pure hadds)
      | true =>
          cases r with
          | bind target driver =>
              refine (leads_bind target driver s).mono (fun _ _ henv => ?_) fun _ _ heq => ?_
              · exact ⟨fun hbinds => by (cases hbinds), henv ▸ hs⟩
              · rw [heq]
                exact ⟨rfl, fun _ => hs⟩
          | _ => cases hr

/-- Every request to every context, if it is refused, leaves the circuit exactly as it was; and if it is not
refused and does not bind a recurrence, the circuit grows by one kernel. -/
theorem keeps_or_grows (r : Request) (s : Context) :
    Leads r.perform s (fun _ s' => r.binds = false → ∃ k, s.circuit.Grows k s'.circuit)
      fun _ s' => s'.circuit = s.circuit :=
  (leads_perform (fun _ _ => KeepsUnless.anything _) r trivial).mono
    (fun _ _ hadds hbinds => (hadds.1 hbinds).grows) fun _ _ heq => heq.1

/-- Requests that are made one after the other, none of which has left the range that the library computes
in: there is nothing to go on with after a fault. -/
def Course (s : Context) : List Request → Prop
  | [] => True
  | r :: later => (∀ e, (r.perform.run.run s).1 = .error e → e.isFault = false) ∧ Course (apply s r) later

/-- What making kernels keeps of the environment, unless it faults, requests keep. -/
theorem foldl_apply {inv : Environment → Prop}
    (hinv : ∀ o types, KeepsUnless (·.isFault = true) inv (DeviceKernel.of o types) fun _ => True)
    {requests : List Request} {s : Context} (hcourse : Course s requests) (hs : inv s.environment) :
    inv (requests.foldl apply s).environment := by
  induction requests generalizing s with
  | nil => exact hs
  | cons r later ih =>
      obtain ⟨hfine, hlater⟩ := hcourse
      have hleads := leads_perform hinv r hs
      have hboth : Leads r.perform s (fun _ s' => inv s'.environment) fun _ s' => inv s'.environment := by
        refine ⟨fun a s' hrun => (hleads.1 a s' hrun).2, fun e s' hrun => (hleads.2 e s' hrun).2 ?_⟩
        rw [hfine e (by rw [hrun])]
        exact Bool.false_ne_true
      exact ih hlater hboth.of_both

/-- A request in place leads to the circuit and to the environment that the request leads to. -/
theorem apply_construct {s : Context} (h : s.circuit.Wired) (r : Circuit.Request) :
    apply s (construct r) = ⟨(r.apply (s.circuit, s.environment)).2,
      (r.apply (s.circuit, s.environment)).1⟩ := by
  unfold apply Circuit.Request.apply
  cases hr : r.binds with
  | false =>
      rw [perform_construct hr, run_commit, run_bind]
      generalize (r.perform s.circuit).run.run s.environment = result
      rcases result with ⟨_ | c, env⟩ <;> rfl
  | true =>
      cases r with
      | bind target driver =>
          rw [perform, run_bindRecurrence h.distinct, Circuit.Request.perform]
          cases s.circuit.bind target driver <;> rfl
      | _ => cases hr

end Request

end Context

namespace Circuit

theorem Wired.apply_request {c : Circuit Action} (h : c.Wired) (env : Environment) (r : Request) :
    (r.apply (c, env)).1.Wired := by
  -- Nothing that wiring depends on is kept in the environment, so that any invariant of it will do.
  cases hr : r.binds with
  | false =>
      have hadds :=
        (Request.keeps_adds_perform (c := c) (fun _ _ => KeepsUnless.anything _) hr env trivial).1
      unfold Request.apply
      generalize (r.perform c).run.run env = result at hadds
      obtain ⟨_ | c', env'⟩ := result
      · exact h
      · exact h.adds (hadds c' env' rfl).1
  | true =>
      cases r with
      | bind target driver =>
          unfold Request.apply
          rw [Request.perform]
          cases hbind : c.bind target driver with
          | error e => exact h
          | ok c' => exact h.bind hbind
      | _ => cases hr

end Circuit

/-- Requests in place, each whether or not it is refused, construct the circuit that the requests
construct. -/
theorem Context.foldl_apply_new (env : Environment) (requests : List Circuit.Request) :
    (requests.map Request.construct).foldl Request.apply (.new env) =
      ⟨(Circuit.construct env requests).2, (Circuit.construct env requests).1⟩ := by
  have hall : ∀ (requests : List Circuit.Request) (s : Context), s.circuit.Wired →
      (requests.map Request.construct).foldl Request.apply s =
        ⟨(requests.foldl Circuit.Request.apply (s.circuit, s.environment)).2,
          (requests.foldl Circuit.Request.apply (s.circuit, s.environment)).1⟩ := by
    intro requests
    induction requests with
    | nil => exact fun _ _ => rfl
    | cons r requests ih =>
        intro s hs
        rw [List.map_cons, List.foldl_cons, List.foldl_cons, Request.apply_construct hs,
          ih _ (hs.apply_request s.environment r)]
  exact hall requests (.new env) Circuit.wired_empty

end FieldCircuit
