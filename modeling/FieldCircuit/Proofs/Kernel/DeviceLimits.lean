import FieldCircuit.Proofs.FieldReduction
import FieldCircuit.Proofs.Launch.Visits

/-!
# Kernels respect the device

Every stage that is synthesized has a launch that the device allows, and no more local memory than the
device has. Launches over fields are shrunk to the device; reducing workgroups start from a power of
two that the device allows and only get smaller, and their local memory is checked before they are
taken.
-/

namespace FieldCircuit

theorem threadLimit_le (caps : Capabilities) : threadLimit caps ≤ Nat.max caps.maxWorkgroup 1 := by
  have hmin : Nat.min caps.maxWorkgroup maxReductionThreads ≤ caps.maxWorkgroup :=
    Nat.min_le_left _ _
  have hmax : caps.maxWorkgroup ≤ Nat.max caps.maxWorkgroup 1 := Nat.le_max_left _ _
  rw [threadLimit]
  by_cases hzero : Nat.min caps.maxWorkgroup maxReductionThreads = 0
  · rw [hzero]
    exact Nat.le_max_right _ _
  · exact Nat.le_trans (floorPowerOfTwo_le (Nat.pos_of_ne_zero hzero)) (Nat.le_trans hmin hmax)

namespace TilePlan

/-- A plan has a power of two of threads that the device allows, and fits its local memory. -/
theorem search_allowed {rows columns size : Nat} {caps : Capabilities} {p : TilePlan}
    (h : search rows columns size caps = .ok p) :
    (∃ k, p.threads = 2 ^ k) ∧ p.threads ≤ Nat.max caps.maxWorkgroup 1 ∧
      p.localBytes ≤ caps.localMemory := by
  obtain ⟨k, -, hstart⟩ := threadLimit_eq caps
  rw [search, hstart] at h
  obtain ⟨i, hp, -, hmemory, -, hle⟩ := searchFrom_eq_ok _ h
  have hthreads : p.threads = 2 ^ i := by rw [hp]; rfl
  refine ⟨⟨i, hthreads⟩, ?_, hmemory⟩
  calc p.threads = 2 ^ i := hthreads
    _ ≤ 2 ^ k := Nat.pow_le_pow_right (by decide) hle
    _ = threadLimit caps := hstart.symm
    _ ≤ Nat.max caps.maxWorkgroup 1 := threadLimit_le caps

end TilePlan

structure Stage.Allowed (s : Stage) (caps : Capabilities) : Prop where
  launch : s.workgroup.Allowed caps
  memory : s.localBytes ≤ caps.localMemory

def Operation.Allowed (op : Operation) (caps : Capabilities) : Prop :=
  ∀ s ∈ op.stages, s.Allowed caps

theorem Operation.allowed_single {s : Stage} {caps : Capabilities} (h : s.Allowed caps)
    (output : FieldType) : (Operation.single s output).Allowed caps := by
  intro s' hs'
  rw [List.mem_singleton.1 hs']
  exact h

theorem Stage.allowed_of_covering {s : Stage} {extents : List Nat} {caps : Capabilities}
    (h : WorkGroup.covering extents caps = .ok s.workgroup) (hbytes : s.localBytes = 0) :
    s.Allowed caps :=
  ⟨WorkGroup.covering_allowed h, by rw [hbytes]; exact Nat.zero_le _⟩

/-- A stage without local memory is allowed if its launch is one that addressing selects. -/
theorem Stage.allowed_of_select {s : Stage} {cls : OpClass} {inputs : List FieldType}
    {output : FieldType} {caps : Capabilities} {mode : AddressingMode}
    (h : Addressing.select cls inputs output caps = .ok (mode, s.workgroup))
    (hbytes : s.localBytes = 0) : s.Allowed caps :=
  allowed_of_covering (Addressing.workGroup?_eq_ok (Addressing.select_eq_ok h)) hbytes

namespace Synthesis

variable {caps : Capabilities} {op : Operation} {s : Stage}

theorem Pointwise.allowed {o : Opcode} {inputs : List FieldType}
    (h : Pointwise.synthesize o inputs caps = .ok op) : op.Allowed caps := by
  unfold Pointwise.synthesize at h
  obtain ⟨output, _, h⟩ := bind_eq_ok_iff.1 h
  obtain ⟨_, _, h⟩ := bind_eq_ok_iff.1 h
  obtain ⟨⟨mode, w⟩, hselect, h⟩ := bind_eq_ok_iff.1 h
  obtain ⟨_, _, h⟩ := bind_eq_ok_iff.1 h
  obtain ⟨_, _, h⟩ := bind_eq_ok_iff.1 h
  obtain ⟨_, _, hop⟩ := bind_eq_ok_iff.1 h
  rw [← Except.ok.inj hop]
  exact Operation.allowed_single (Stage.allowed_of_select hselect rfl) output

theorem TensorSum.allowed {inputs : List FieldType}
    (h : TensorSum.synthesize inputs caps = .ok op) : op.Allowed caps := by
  unfold TensorSum.synthesize at h
  obtain ⟨output, _, h⟩ := bind_eq_ok_iff.1 h
  obtain ⟨_, _, h⟩ := bind_eq_ok_iff.1 h
  obtain ⟨⟨mode, w⟩, hselect, h⟩ := bind_eq_ok_iff.1 h
  obtain ⟨_, _, h⟩ := bind_eq_ok_iff.1 h
  obtain ⟨_, _, hop⟩ := bind_eq_ok_iff.1 h
  rw [← Except.ok.inj hop]
  exact Operation.allowed_single (Stage.allowed_of_select hselect rfl) output

theorem Convolution.allowed {border : Border} {inputs : List FieldType}
    (h : Convolution.synthesize border inputs caps = .ok op) : op.Allowed caps := by
  unfold Convolution.synthesize at h
  obtain ⟨output, _, h⟩ := bind_eq_ok_iff.1 h
  obtain ⟨_, _, h⟩ := bind_eq_ok_iff.1 h
  obtain ⟨_, _, h⟩ := bind_eq_ok_iff.1 h
  obtain ⟨⟨mode, w⟩, hselect, h⟩ := bind_eq_ok_iff.1 h
  obtain ⟨_, _, h⟩ := bind_eq_ok_iff.1 h
  obtain ⟨_, _, h⟩ := bind_eq_ok_iff.1 h
  obtain ⟨_, _, hop⟩ := bind_eq_ok_iff.1 h
  rw [← Except.ok.inj hop]
  exact Operation.allowed_single (Stage.allowed_of_select hselect rfl) output

namespace Reduction

/-- The threads of a tree are a power of two that the device allows, with a word of local memory
each. -/
theorem threadsFor_allowed {items threads : Nat} (h : threadsFor items caps = .ok threads) :
    (∃ k, threads = 2 ^ k) ∧ threads ≤ Nat.max caps.maxWorkgroup 1 ∧
      threads * wordBytes ≤ caps.localMemory := by
  obtain ⟨rfl, hmemory⟩ := threadsFor_eq_ok h
  exact ⟨threadCount_eq items caps, (Nat.min_le_right _ _).trans (threadLimit_le caps), hmemory⟩

theorem blockStage_allowed {name : String} {reduce : ReduceOp} {groups width words : Nat}
    (h : blockStage name reduce groups width words caps = .ok s) : s.Allowed caps := by
  simp only [blockStage, bind_eq_ok_iff, liftFault_eq_ok_iff] at h
  obtain ⟨threads, hthreads, _, _, _, _, w, hw, hs⟩ := h
  obtain ⟨hpower, hle, hmemory⟩ := threadsFor_allowed hthreads
  rw [← Except.ok.inj hs]
  exact ⟨WorkGroup.ofGrid_allowed hw hpower hle, hmemory⟩

theorem planeStage_allowed {name : String} {reduce : ReduceOp} {input output : FieldType}
    {items threads groups : Nat} (hthreads : threadsFor items caps = .ok threads)
    (h : planeStage name reduce input output threads groups = .ok s) : s.Allowed caps := by
  simp only [planeStage, bind_eq_ok_iff, liftFault_eq_ok_iff] at h
  obtain ⟨_, _, _, _, _, _, _, _, w, hw, hs⟩ := h
  obtain ⟨hpower, hle, hmemory⟩ := threadsFor_allowed hthreads
  rw [← Except.ok.inj hs]
  exact ⟨WorkGroup.ofGrid_allowed hw hpower hle, hmemory⟩

theorem allowed {reduce : ReduceOp} {input output : FieldType}
    (h : build reduce input output caps = .ok op) : op.Allowed caps := by
  simp only [build, bind_eq_ok_iff] at h
  obtain ⟨_, _, _, _, threads, hthreads, _, _, first, hfirst, h⟩ := h
  have hallowed := planeStage_allowed hthreads hfirst
  split at h
  · obtain ⟨finish, hfinish, hop⟩ := bind_eq_ok_iff.1 h
    rw [← Except.ok.inj hop]
    exact List.forall_mem_cons.2 ⟨hallowed, List.forall_mem_singleton.2 (blockStage_allowed hfinish)⟩
  · rw [← Except.ok.inj h]
    exact Operation.allowed_single hallowed output

end Reduction

namespace Correlation

theorem tiledStage_allowed {name : String} {p : TilePlan} {image gradient : FieldType}
    (hpower : ∃ k, p.threads = 2 ^ k) (hthreads : p.threads ≤ Nat.max caps.maxWorkgroup 1)
    (hmemory : p.localBytes ≤ caps.localMemory)
    (h : tiledStage name p image gradient = .ok s) : s.Allowed caps := by
  simp only [tiledStage, bind_eq_ok_iff, liftFault_eq_ok_iff] at h
  obtain ⟨_, _, _, _, _, _, w, hw, hs⟩ := h
  rw [← Except.ok.inj hs]
  exact ⟨WorkGroup.ofGrid_allowed hw hpower hthreads, hmemory⟩

theorem allowed {size : Nat} {image gradient output : FieldType}
    (h : build size image gradient output caps = .ok op) : op.Allowed caps := by
  simp only [build, bind_eq_ok_iff] at h
  obtain ⟨p, hp, tiled, htiled, h⟩ := h
  obtain ⟨hpower, hthreads, hmemory⟩ := TilePlan.search_allowed hp
  have hallowed := tiledStage_allowed hpower hthreads hmemory htiled
  split at h
  · obtain ⟨finish, hfinish, hop⟩ := bind_eq_ok_iff.1 h
    rw [← Except.ok.inj hop]
    exact List.forall_mem_cons.2
      ⟨hallowed, List.forall_mem_singleton.2 (Reduction.blockStage_allowed hfinish)⟩
  · rw [← Except.ok.inj h]
    exact Operation.allowed_single hallowed output

end Correlation

namespace Fourier

theorem allowed {direction : Direction} {t : FieldType} (h : build direction t caps = .ok op) :
    op.Allowed caps := by
  simp only [build, bind_eq_ok_iff] at h
  obtain ⟨_, _, stages, hstages, hop⟩ := h
  rw [← Except.ok.inj hop]
  intro s hs
  obtain ⟨pass, -, hpass⟩ := forall₂_exists_left (mapM_eq_ok_iff.1 hstages) hs
  simp only [stage, bind_eq_ok_iff, liftFault_eq_ok_iff] at hpass
  obtain ⟨_, _, w, hw, hs⟩ := hpass
  rw [← Except.ok.inj hs]
  exact Stage.allowed_of_covering hw rfl

end Fourier

theorem prepare_allowed {o : Opcode} {inputs : List FieldType}
    (h : prepare o inputs caps = .ok (.built op)) : op.Allowed caps := by
  cases o with
  | unary _ | scale _ | offset _ | binary _ | complexBinary _ =>
      obtain ⟨_, hop, ⟨⟩⟩ := map_eq_ok_iff.1 h
      exact Pointwise.allowed hop
  | tensorReduce =>
      obtain ⟨_, hop, ⟨⟩⟩ := map_eq_ok_iff.1 h
      exact TensorSum.allowed hop
  | convolve border =>
      obtain ⟨_, hop, ⟨⟩⟩ := map_eq_ok_iff.1 h
      exact Convolution.allowed hop
  | fieldReduce reduce =>
      obtain ⟨_, _, h⟩ := bind_eq_ok_iff.1 h
      obtain ⟨_, _, ⟨⟩⟩ := bind_eq_ok_iff.1 h
  | filterAdjoint size =>
      obtain ⟨_, _, h⟩ := bind_eq_ok_iff.1 h
      obtain ⟨_, _, h⟩ := bind_eq_ok_iff.1 h
      obtain ⟨_, _, ⟨⟩⟩ := bind_eq_ok_iff.1 h
  | fft direction => obtain ⟨_, _, ⟨⟩⟩ := bind_eq_ok_iff.1 h
  | constant | sensor _ | actuator _ | host _ | recurrence => cases h

end Synthesis

theorem Recipe.allowed {recipe : Recipe} {caps : Capabilities} {op : Operation}
    (h : recipe.build caps = .ok op) : op.Allowed caps := by
  cases recipe with
  | reduction reduce input output => exact Synthesis.Reduction.allowed h
  | correlation size image gradient output => exact Synthesis.Correlation.allowed h
  | transform direction t => exact Synthesis.Fourier.allowed h

/-- Every stage of a synthesized operation has no more threads in a workgroup than the device allows and
no more local memory than it has. On every axis a workgroup is a power of two, and whole workgroups
cover the extent of the launch. -/
theorem synthesized_within_limits {o : Opcode} {inputs : List FieldType} {caps : Capabilities}
    {op : Operation} (hop : Synthesis.synthesize o inputs caps = .ok op) {s : Stage}
    (hs : s ∈ op.stages) :
    s.workgroup.localThreads ≤ Nat.max caps.maxWorkgroup 1 ∧ s.localBytes ≤ caps.localMemory ∧
      ∀ axis ∈ [Axes.x, Axes.y, Axes.z],
        (∃ k, axis s.workgroup.localSize = 2 ^ k) ∧
          axis s.workgroup.localSize ∣ axis s.workgroup.globalSize ∧
          axis s.workgroup.extents ≤ axis s.workgroup.globalSize := by
  obtain ⟨request, hrequest, hbuild⟩ := bind_eq_ok_iff.1 hop
  have hallowed : op.Allowed caps := by
    cases request with
    | built operation => exact Except.ok.inj hbuild ▸ Synthesis.prepare_allowed hrequest
    | planned recipe => exact Recipe.allowed hbuild
  obtain ⟨⟨hthreads, hx, hy, hz⟩, hmemory⟩ := hallowed s hs
  refine ⟨hthreads, hmemory, ?_⟩
  simp only [List.forall_mem_cons, List.not_mem_nil, false_implies, implies_true, and_true]
  exact ⟨⟨hx.power, hx.multiple, hx.covers⟩, ⟨hy.power, hy.multiple, hy.covers⟩,
    ⟨hz.power, hz.multiple, hz.covers⟩⟩

/-- On a device that states no workgroup at all and has four bytes of local memory, both stages of a
reduction have one thread and one word. -/
theorem synthesized_within_limits_five_vectors : ∃ (op : Operation) (finish : Stage),
    Synthesis.synthesize (.fieldReduce .sum) [.fiveVectors] ⟨4, 0, 1, 0⟩ = .ok op ∧
      op.intermediates = [4 * 2] ∧ finish ∈ op.stages ∧ finish.workgroup.localThreads ≤ 1 ∧
      finish.localBytes ≤ 4 ∧ finish.workgroup.localSize.x ∣ finish.workgroup.globalSize.x := by
  obtain ⟨output, houtput, hm⟩ : ∃ output,
      Synthesis.Reduction.outputType [.fiveVectors] = .ok output ∧ output.words? = .ok 2 :=
    ⟨_, rfl, rfl⟩
  obtain ⟨op, hbuild, -, hinter⟩ : ∃ op : Operation,
      Synthesis.Reduction.build .sum .fiveVectors output ⟨4, 0, 1, 0⟩ = .ok op ∧
        op.output = output ∧ op.intermediates = [4 * 2] :=
    Synthesis.Reduction.build_exists .sum .fiveVectors _ 4 rfl hm (by decide) (by decide) rfl rfl
      (by decide) (by decide) rfl rfl rfl
  have hsynthesize : Synthesis.synthesize (.fieldReduce .sum) [.fiveVectors] ⟨4, 0, 1, 0⟩ =
      .ok op :=
    bind_eq_ok_iff.2 ⟨_, bind_eq_ok_iff.2 ⟨output, houtput, rfl⟩, hbuild⟩
  obtain ⟨finish, hfinish⟩ : ∃ finish, finish ∈ op.stages := by
    obtain ⟨_, _, _, plane, _, hrows⟩ :=
      Synthesis.Reduction.build_eq_ok (FieldType.words?_eq_ok hm).symm hbuild
    generalize hstages : op.stages = stages at hrows
    generalize hshared : op.intermediates = intermediates at hrows
    cases hrows with
    | single one => cases hinter.symm.trans hshared
    | pair several isBlock => exact ⟨_, List.mem_cons_of_mem _ List.mem_cons_self⟩
  obtain ⟨hthreads, hmemory, haxes⟩ := synthesized_within_limits hsynthesize hfinish
  exact ⟨op, finish, hsynthesize, hinter, hfinish, hthreads, hmemory,
    (haxes Axes.x List.mem_cons_self).2.1⟩

end FieldCircuit
