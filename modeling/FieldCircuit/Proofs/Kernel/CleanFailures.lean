import FieldCircuit.Proofs.Kernel.Execution
import FieldCircuit.Proofs.Kernel.Refusals

/-!
# Clean failures

Launches keep the shape of memory, so whether a stage of an operation is refused is settled before
the first stage runs. A synthesized operation fails at its first stage that is refused, on memory as
the stages before it have left it.
-/

namespace FieldCircuit

variable {α : Type}

namespace Operation

variable {ar : Arithmetic α} {b : Bindings}

theorem runStages_cons_ok {s : Stage} {memory next : Array (LaunchBuffer α)}
    (h : s.launch ar b memory = .ok next) (rest : List Stage) :
    runStages ar b (s :: rest) memory = runStages ar b rest next := by
  rw [runStages, h]

theorem runStages_cons_error {s : Stage} {memory : Array (LaunchBuffer α)} {e : KernelError}
    (h : s.launch ar b memory = .error e) (rest : List Stage) :
    runStages ar b (s :: rest) memory = (.error e, memory) := by
  rw [runStages, h]

theorem runStages_shape {stages : List Stage} {memory memory' : Array (LaunchBuffer α)}
    {result : Except KernelError Unit} (h : runStages ar b stages memory = (result, memory')) :
    memory'.map LaunchBuffer.shape = memory.map LaunchBuffer.shape := by
  induction stages generalizing memory with
  | nil => rw [(Prod.mk.inj h).2]
  | cons s rest ih =>
      cases hlaunch : s.launch ar b memory with
      | ok next =>
          rw [runStages_cons_ok hlaunch] at h
          rw [ih h, Stage.launch_shape hlaunch]
      | error e =>
          rw [runStages_cons_error hlaunch] at h
          rw [(Prod.mk.inj h).2]

/-- Stages fail exactly if the first ones have run and the launch of the next one fails on the
memory that they have left. -/
theorem runStages_eq_error_iff {stages : List Stage} {memory memory' : Array (LaunchBuffer α)}
    {e : KernelError} :
    runStages ar b stages memory = (.error e, memory') ↔
      ∃ done s later, stages = done ++ s :: later ∧
        runStages ar b done memory = (.ok (), memory') ∧ s.launch ar b memory' = .error e := by
  constructor
  · intro h
    induction stages generalizing memory with
    | nil => cases h
    | cons s rest ih =>
        cases hlaunch : s.launch ar b memory with
        | ok next =>
            rw [runStages_cons_ok hlaunch] at h
            obtain ⟨done, s', later, rfl, hdone, hrefused⟩ := ih h
            exact ⟨s :: done, s', later, rfl, (runStages_cons_ok hlaunch _).trans hdone, hrefused⟩
        | error e' =>
            rw [runStages_cons_error hlaunch] at h
            cases h
            exact ⟨[], s, rest, rfl, rfl, hlaunch⟩
  · rintro ⟨done, s, later, rfl, hdone, hrefused⟩
    induction done generalizing memory with
    | nil =>
        cases hdone
        exact runStages_cons_error hrefused later
    | cons s' done ih =>
        cases hlaunch : s'.launch ar b memory with
        | ok next =>
            rw [runStages_cons_ok hlaunch] at hdone
            exact (runStages_cons_ok hlaunch _).trans (ih hdone)
        | error e' => cases (runStages_cons_error hlaunch done).symm.trans hdone

end Operation

namespace Synthesis

theorem prepare_takes {o : Opcode} {inputs : List FieldType} {caps : Capabilities} {op : Operation}
    (h : prepare o inputs caps = .ok (.built op)) :
    ∃ s, op.stages = [s] ∧ s.Takes (operandSlots inputs) (.output 0, op.output.words) := by
  cases o with
  | unary _ | scale _ | offset _ | binary _ | complexBinary _ =>
      obtain ⟨op', hop, heq⟩ := map_eq_ok_iff.1 h
      cases heq
      obtain ⟨output, p, s, -, -, rfl, hstage⟩ := Pointwise.synthesize_eq_ok hop
      exact ⟨s, rfl, hstage.takes⟩
  | tensorReduce =>
      obtain ⟨op', hop, heq⟩ := map_eq_ok_iff.1 h
      cases heq
      obtain ⟨input, output, s, rfl, -, rfl, hstage⟩ := TensorSum.synthesize_eq_ok hop
      exact ⟨s, rfl, hstage.takes⟩
  | convolve border =>
      obtain ⟨op', hop, heq⟩ := map_eq_ok_iff.1 h
      cases heq
      obtain ⟨image, kernel, output, s, rfl, -, rfl, hstage⟩ := Convolution.synthesize_eq_ok hop
      exact ⟨s, rfl, hstage.takes⟩
  | fieldReduce _ =>
      obtain ⟨_, -, h⟩ := bind_eq_ok_iff.1 h
      obtain ⟨_, -, h⟩ := bind_eq_ok_iff.1 h
      cases h
  | filterAdjoint _ =>
      obtain ⟨_, -, h⟩ := bind_eq_ok_iff.1 h
      obtain ⟨_, -, h⟩ := bind_eq_ok_iff.1 h
      obtain ⟨_, -, h⟩ := bind_eq_ok_iff.1 h
      cases h
  | fft _ =>
      obtain ⟨_, -, h⟩ := bind_eq_ok_iff.1 h
      cases h
  | constant | sensor _ | actuator _ | host _ | recurrence => cases h

/-- A synthesized operation is sound if the words that one of its stages asks for are signed machine
sizes. Only convolutions need that, and they read all their operands in one stage. -/
theorem sound_of_stage {o : Opcode} {inputs : List FieldType} {caps : Capabilities} {op : Operation}
    (hop : synthesize o inputs caps = .ok op) {s : Stage} (hs : s ∈ op.stages)
    (hwords : ∀ a ∈ s.arguments, a.words < signedBound) : op.Sound inputs := by
  obtain ⟨request, hrequest, hbuild⟩ := bind_eq_ok_iff.1 hop
  cases request with
  | planned recipe =>
      have hready := prepare_ready hrequest
      exact hready.1 ▸ Recipe.build_sound hready.2 hbuild
  | built operation =>
      cases hbuild
      refine prepare_ready hrequest fun t ht e he => ?_
      obtain ⟨s', hstages, htakes⟩ := prepare_takes hrequest
      obtain rfl : s = s' := by simpa [hstages] using hs
      obtain ⟨i, hi⟩ := List.getElem?_of_mem ht
      have hoperand : (Slot.input i, t.words) ∈ operandSlots inputs :=
        List.mem_map.2 ⟨(t, i), List.mem_zipIdx_iff_getElem?.2 hi, rfl⟩
      have hmem : (Slot.input i, t.words, false) ∈
          s.arguments.map fun a => (a.slot, a.words, a.isOutput) := by
        rw [show s.arguments.map _ = _ from htakes]
        exact List.mem_append_left _ (List.mem_map.2 ⟨_, hoperand, rfl⟩)
      obtain ⟨a, ha, heq⟩ := List.mem_map.1 hmem
      have hlength : a.words = t.words := (Prod.mk.inj (Prod.mk.inj heq).2).1
      have hlt := hwords a ha
      have hextent := FieldType.extent_le_words he
      omega

/-- The stages of a synthesized operation can be launched on allocated buffers that admit them. -/
theorem launchable_of_admits {o : Opcode} {inputs : List FieldType} {caps : Capabilities}
    {op : Operation} (hop : synthesize o inputs caps = .ok op) {s : Stage} (hs : s ∈ op.stages)
    {b : Bindings} {buffers : Array Buffer} (hallocated : ∀ buffer ∈ buffers, buffer.Allocated)
    (hadmits : b.Admits buffers s.arguments) : s.Launchable := by
  refine SoundStages.launchable (sound_of_stage hop hs fun a ha => ?_) hs
  obtain ⟨position, buffer, -, hat, hlength, hside⟩ := hadmits.proper a ha
  exact hlength ▸ (hallocated buffer (Array.mem_of_getElem? hat)).length_lt hside

end Synthesis

namespace Operation

/-- The buffers after memory that started out as theirs has become this. -/
def written (buffers : Array Buffer) (memory : Array (LaunchBuffer Float32)) : Array Buffer :=
  (buffers.zip memory).map fun (buffer, l) => buffer.afterLaunch l

theorem written_self {buffers : Array Buffer} (h : ∀ buffer ∈ buffers, buffer.Allocated) :
    written buffers (buffers.map Buffer.toLaunch) = buffers := by
  apply Array.ext_getElem?
  intro i
  rw [written, Array.getElem?_map, Array.zip, Array.getElem?_zipWith, Array.getElem?_map]
  cases hat : buffers[i]? with
  | none => rfl
  | some buffer =>
      exact congrArg some (h buffer (Array.mem_of_getElem? hat)).afterLaunch_toLaunch

variable {op : Operation} {b : Bindings} {buffers after : Array Buffer}

theorem executeOn_of_count_ne (h : b.intermediates.length ≠ op.intermediates.length)
    (hallocated : ∀ buffer ∈ buffers, buffer.Allocated) :
    op.executeOn b buffers = (.error (.launch op.name
      (.intermediateCount op.intermediates.length b.intermediates.length)), buffers) := by
  rw [executeOn, execute, if_pos h]
  exact Prod.ext rfl (written_self hallocated)

theorem executeOn_eq_iff (op : Operation) (h : b.intermediates.length = op.intermediates.length)
    {result : Except KernelError Unit} :
    op.executeOn b buffers = (result, after) ↔
      ∃ memory, runStages .single b op.stages (buffers.map Buffer.toLaunch) = (result, memory) ∧
        written buffers memory = after := by
  rw [executeOn, execute, if_neg (not_not.2 h)]
  constructor
  · intro heq
    exact ⟨_, Prod.ext (Prod.mk.inj heq).1 rfl, (Prod.mk.inj heq).2⟩
  · rintro ⟨memory, hmemory, rfl⟩
    rw [hmemory]
    rfl

structure FailsCleanly (op : Operation) (b : Bindings) (buffers : Array Buffer) : Prop where
  /-- A stage is launched exactly if its arguments are proper and no two of them clash. -/
  launched : ∀ s ∈ op.stages,
    (∃ memory, s.launch .single b (buffers.map Buffer.toLaunch) = .ok memory) ↔
      b.Admits buffers s.arguments
  /-- Otherwise the first argument that is refused decides on the error. -/
  refused : ∀ s ∈ op.stages, ∀ e,
    s.launch .single b (buffers.map Buffer.toLaunch) = .error e ↔ s.Refused b buffers e
  /-- A refused stage changes no buffer. -/
  unchanged : ∀ s ∈ op.stages, ∀ e, s.Refused b buffers e →
    b.intermediates.length = op.intermediates.length →
    { op with stages := [s] }.executeOn b buffers = (.error e, buffers)
  /-- An operation that is bound to a wrong number of shared buffers changes no buffer. -/
  miscounted : b.intermediates.length ≠ op.intermediates.length →
    op.executeOn b buffers = (.error (.launch op.name
      (.intermediateCount op.intermediates.length b.intermediates.length)), buffers)
  /-- An operation fails at a stage that is refused, and leaves what the stages before it leave. -/
  failed : b.intermediates.length = op.intermediates.length → ∀ e after,
    op.executeOn b buffers = (.error e, after) ↔
      ∃ done s later, op.stages = done ++ s :: later ∧
        { op with stages := done }.executeOn b buffers = (.ok (), after) ∧ s.Refused b buffers e
  /-- An operation of one stage that fails changes no buffer. -/
  single : ∀ s, op.stages = [s] → ∀ e after,
    op.executeOn b buffers = (.error e, after) → after = buffers

variable (hallocated : ∀ buffer ∈ buffers, buffer.Allocated)

include hallocated

/-- A refused stage on its own changes no buffer. -/
theorem executeOn_refused (h : b.intermediates.length = op.intermediates.length) {s : Stage}
    {e : KernelError} (hrefused : s.Refused b buffers e) :
    { op with stages := [s] }.executeOn b buffers = (.error e, buffers) := by
  rw [executeOn_eq_iff { op with stages := [s] } h]
  exact ⟨_, runStages_cons_error (hrefused.launch_eq rfl _) [], written_self hallocated⟩

/-- An execution fails exactly at a refused stage, after the stages before it have been executed.
The launches of these change neither lengths nor sides, so the refusal can be told from the buffers
at the start. -/
theorem executeOn_eq_error_iff (hb : b.Within buffers)
    (hlaunchable : ∀ s ∈ op.stages, b.Admits buffers s.arguments → s.Launchable)
    (h : b.intermediates.length = op.intermediates.length) {e : KernelError} :
    op.executeOn b buffers = (.error e, after) ↔
      ∃ done s later, op.stages = done ++ s :: later ∧
        { op with stages := done }.executeOn b buffers = (.ok (), after) ∧
          s.Refused b buffers e := by
  have hlaunch : ∀ {done s later memory}, op.stages = done ++ s :: later →
      runStages .single b done (buffers.map Buffer.toLaunch) = (.ok (), memory) →
      (s.launch .single b memory = .error e ↔ s.Refused b buffers e) := by
    intro done s later memory hsplit hdone
    exact Stage.launch_eq_error_iff hb hallocated (hlaunchable s (by simp [hsplit]))
      (runStages_shape hdone)
  rw [executeOn_eq_iff op h]
  constructor
  · rintro ⟨memory, hmemory, rfl⟩
    obtain ⟨done, s, later, hsplit, hdone, herror⟩ := runStages_eq_error_iff.1 hmemory
    exact ⟨done, s, later, hsplit,
      (executeOn_eq_iff { op with stages := done } h).2 ⟨memory, hdone, rfl⟩,
      (hlaunch hsplit hdone).1 herror⟩
  · rintro ⟨done, s, later, hsplit, hexecute, hrefused⟩
    obtain ⟨memory, hdone, rfl⟩ := (executeOn_eq_iff { op with stages := done } h).1 hexecute
    exact ⟨memory, runStages_eq_error_iff.2
      ⟨done, s, later, hsplit, hdone, (hlaunch hsplit hdone).2 hrefused⟩, rfl⟩

/-- An operation of one stage that fails changes no buffer. -/
theorem eq_of_executeOn_single {s : Stage} (hs : op.stages = [s]) {e : KernelError}
    (h : op.executeOn b buffers = (.error e, after)) : after = buffers := by
  by_cases hcount : b.intermediates.length = op.intermediates.length
  · obtain ⟨memory, hmemory, rfl⟩ := (executeOn_eq_iff op hcount).1 h
    obtain ⟨done, s', later, hsplit, hdone, -⟩ := runStages_eq_error_iff.1 hmemory
    cases done with
    | nil =>
        cases hdone
        exact written_self hallocated
    | cons first done => simp [hs] at hsplit
  · rw [executeOn_of_count_ne hcount hallocated] at h
    exact (Prod.mk.inj h).2.symm

end Operation

theorem Buffer.allocated_zeros {n : Nat} (h : n * 4 < sizeBound) : (Buffer.zeros n).Allocated := by
  refine ⟨fun data hdata => ?_, ?_⟩
  · cases hdata
    exact Nat.le_of_eq (Array.size_replicate ..).symm
  · rwa [Buffer.zeros, Contents.size, Array.size_replicate]

theorem Argument.proper_zeros {b : Bindings} {a : Argument} {count position : Nat}
    (hget : b.get? a.slot = some position) (hlt : position < count) :
    a.Proper b (Array.replicate count (.zeros a.words)) :=
  ⟨position, .zeros a.words, hget, by simp [hlt], rfl, rfl⟩

theorem Stage.Takes.pair {s : Stage} {slot target : Slot} {n m : Nat}
    (h : s.Takes [(slot, n)] (target, m)) :
    ∃ x y, s.arguments = [x, y] ∧ x.slot = slot ∧ x.words = n ∧ y.slot = target ∧ y.words = m ∧
      y.isOutput = true := by
  obtain ⟨x, rest, hargs, hx, hrest⟩ := List.map_eq_cons_iff.1 h
  obtain ⟨y, rest, rfl, hy, hrest⟩ := List.map_eq_cons_iff.1 hrest
  obtain rfl := List.map_eq_nil_iff.1 hrest
  simp only [Prod.mk.injEq] at hx hy
  exact ⟨x, y, hargs, hx.1, hx.2.1, hy⟩

/-- Synthesized operations fail cleanly. On allocated buffers of any lengths and sides, bound in any
way, shared or not, a stage is launched exactly if every argument is bound to an accelerator buffer
of its length and no argument that is written shares memory with another one. Otherwise the first
argument in order that is refused decides on the error, and the execution leaves what the stages
before the refused one leave, which is nothing new if there is only one stage. -/
theorem synthesized_fails_cleanly {o : Opcode} {inputs : List FieldType} {caps : Capabilities}
    {op : Operation} (hop : Synthesis.synthesize o inputs caps = .ok op) {b : Bindings}
    {buffers : Array Buffer} (hb : b.Within buffers)
    (hallocated : ∀ buffer ∈ buffers, buffer.Allocated) : op.FailsCleanly b buffers := by
  have hlaunchable : ∀ s ∈ op.stages, b.Admits buffers s.arguments → s.Launchable :=
    fun s hs => Synthesis.launchable_of_admits hop hs hallocated
  exact
    { launched := fun s hs => Stage.launch_succeeds_iff hb hallocated (hlaunchable s hs) rfl
      refused := fun s hs e => Stage.launch_eq_error_iff hb hallocated (hlaunchable s hs) rfl
      unchanged := fun s _ e hrefused hcount =>
        Operation.executeOn_refused hallocated hcount hrefused
      miscounted := fun hcount => Operation.executeOn_of_count_ne hcount hallocated
      failed := fun hcount e after =>
        Operation.executeOn_eq_error_iff hallocated hb hlaunchable hcount
      single := fun s hs e after h => Operation.eq_of_executeOn_single hallocated hs h }

/-- The second pass over a plane of four rows and two columns is refused if both shared buffers are
one: it would read and write the same memory. The first pass has been run. -/
theorem synthesized_fails_cleanly_four_by_two :
    ∃ (op : Operation) (s : Stage) (after : Array Buffer),
      Synthesis.synthesize (.fft .forward) [.fourByTwo] .standard = .ok op ∧
      op.stages.length = 3 ∧ op.stages.head? = some s ∧
      { op with stages := [s] }.executeOn ⟨[3], [0], [1, 1]⟩ (Array.replicate 4 (.zeros 16)) =
        (.ok (), after) ∧
      op.executeOn ⟨[3], [0], [1, 1]⟩ (Array.replicate 4 (.zeros 16)) =
        (.error (.device (.borrowed .write)), after) := by
  have htype : Synthesis.Fourier.outputType [.fourByTwo] = .ok .fourByTwo := rfl
  obtain ⟨-, htrans⟩ := Synthesis.Fourier.outputType_eq_ok htype
  obtain ⟨op, hbuild⟩ := htrans.build_exists (by decide) .forward .standard
  have hop : Synthesis.synthesize (.fft .forward) [.fourByTwo] .standard = .ok op :=
    (Synthesis.Fourier.synthesize_fft htype _).trans hbuild
  obtain ⟨-, hinter, hpasses⟩ := Synthesis.Fourier.build_eq_ok hbuild
  have hcount : [1, 1].length = op.intermediates.length := by rw [hinter]; decide
  -- three passes, of which the first two matter
  have hlength : (FourierPass.plan .fourByTwo .forward).length = 3 := by decide
  obtain ⟨f, g, h, hplan⟩ := List.length_eq_three.1 hlength
  rw [hplan] at hpasses
  simp only [List.zipIdx_cons, List.zipIdx_nil, List.forall₂_cons_left_iff,
    List.forall₂_nil_left_iff] at hpasses
  obtain ⟨s, _, hfirst, ⟨s', _, hsecond, ⟨s'', _, -, rfl, rfl⟩, rfl⟩, hstages⟩ := hpasses
  obtain ⟨x, y, hargs, hx, hxwords, hy, hywords, -⟩ := hfirst.takes.pair
  obtain ⟨x', y', hargs', hx', hxwords', hy', hywords', hwritten⟩ := hsecond.takes.pair
  have hproper : ∀ {a : Argument} {slot : Slot} (position : Nat), a.slot = slot → a.words = 16 →
      Bindings.get? ⟨[3], [0], [1, 1]⟩ slot = some position → position < 4 →
      a.Proper ⟨[3], [0], [1, 1]⟩ (Array.replicate 4 (.zeros 16)) :=
    fun position hslot hwords hget hlt => hwords ▸ Argument.proper_zeros (hslot ▸ hget) hlt
  have hadmits :
      Bindings.Admits ⟨[3], [0], [1, 1]⟩ (Array.replicate 4 (.zeros 16)) s.arguments := by
    rw [hargs]
    refine (Bindings.Admits.nil.concat (hproper 3 hx hxwords rfl (by decide)) (by simp)).concat
      (hproper 1 hy hywords rfl (by decide)) fun other hother hclashes => ?_
    obtain rfl : other = x := by simpa using hother
    have hsame := hclashes.2
    rw [hx, hy] at hsame
    cases hsame
  have hrefused : s'.Refused ⟨[3], [0], [1, 1]⟩ (Array.replicate 4 (.zeros 16))
      (.device (.borrowed .write)) := by
    have haccess : y'.access = .write := by rw [Argument.access, hwritten, if_pos rfl]
    refine ⟨[x'], y', [], hargs',
      Bindings.Admits.nil.concat (hproper 1 hx' hxwords' rfl (by decide)) (by simp), ?_⟩
    rw [← haccess]
    refine .shared (hproper 1 hy' hywords' rfl (by decide)) (List.mem_singleton_self x')
      ⟨.inr hwritten, ?_⟩
    rw [hx', hy']
    rfl
  have hwithin : Bindings.Within ⟨[3], [0], [1, 1]⟩ (Array.replicate 4 (Buffer.zeros 16)) := by
    intro slot position hslot
    rw [Array.size_replicate]
    cases slot <;> have hmem := List.mem_of_getElem? hslot <;> simp at hmem <;> omega
  have hallocated : ∀ buffer ∈ Array.replicate 4 (Buffer.zeros 16), buffer.Allocated := by
    intro buffer hbuffer
    obtain rfl : buffer = _ := by simpa using hbuffer
    exact Buffer.allocated_zeros (by decide)
  have hclean := synthesized_fails_cleanly hop hwithin hallocated
  obtain ⟨memory, hmemory⟩ := (hclean.launched s (by simp [hstages])).2 hadmits
  have hexecute := (Operation.executeOn_eq_iff { op with stages := [s] } hcount).2
    ⟨memory, Operation.runStages_cons_ok hmemory [], rfl⟩
  exact ⟨op, s, _, hop, by simp [hstages], by simp [hstages], hexecute,
    (hclean.failed hcount _ _).2 ⟨[s], s', [s''], hstages, hexecute, hrefused⟩⟩

end FieldCircuit
