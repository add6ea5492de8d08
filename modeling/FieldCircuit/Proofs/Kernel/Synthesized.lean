import FieldCircuit.Proofs.Kernel.Correlation
import FieldCircuit.Proofs.Kernel.PartialResults

/-!
# Synthesized operations are sound

For every opcode: once synthesis has succeeded, the stages of the operation bind slots that exist with
the words that they have, read only operands and what an earlier stage has filled, and never leave the
words that they are given. The only sizes that have to be assumed are those of the extents, which the
border policies of a convolution read as signed numbers.
-/

namespace FieldCircuit

namespace Synthesis

namespace Reduction

theorem outputType_eq_ok {inputs : List FieldType} {output : FieldType}
    (h : outputType inputs = .ok output) : ∃ input, inputs = [input] ∧
      input.words = input.elements * input.points ∧ output.words = input.elements := by
  simp only [outputType, bind_eq_ok_iff, liftFault_eq_ok_iff] at h
  obtain ⟨_, hcount, input, hinput, _, hreal, h⟩ := h
  obtain ⟨x, rfl⟩ := List.length_eq_one_iff.1 (expectOperands_eq_ok hcount)
  obtain rfl : x = input := Except.ok.inj hinput
  obtain ⟨hfield, htensor, helement⟩ := FieldType.of_eq_ok (liftField_eq_ok_iff.1 h)
  have hreal' := expectReal_eq_ok hreal
  have houtreal : output.element.isComplex = false := by
    rw [helement]
    exact Element.isComplex_arithmetic hreal'
  have helements : output.elements = x.elements := by
    rw [FieldType.elements, htensor]
    rfl
  have hpoints : output.points = 1 := by
    rw [FieldType.points, hfield]
    rfl
  refine ⟨x, rfl, FieldType.words_of_real hreal', ?_⟩
  rw [FieldType.words_of_real houtreal, hpoints, helements, Nat.mul_one]

structure IsPlane (s : Stage) (op : ReduceOp) (input output : FieldType) (groups : Nat) : Prop where
  takes : s.Takes [(.input 0, input.words)]
    (firstTarget (decide (1 < groups)) (groups * input.elements) output.words)
  program : s.program = .planeReduction ⟨op, input.points, groups, input.elements⟩
  threads : ∃ levels, s.workgroup.localThreads = 2 ^ levels

theorem planeStage_eq_ok {name : String} {op : ReduceOp} {input output : FieldType}
    {threads groups : Nat} {s : Stage} (hthreads : ∃ levels, threads = 2 ^ levels)
    (hgroups : 0 < groups) (h : planeStage name op input output threads groups = .ok s) :
    IsPlane s op input output groups ∧ s.workgroup.localThreads = threads := by
  unfold planeStage at h
  obtain ⟨_, _, h⟩ := bind_eq_ok_iff.1 h
  obtain ⟨n, hn, h⟩ := bind_eq_ok_iff.1 h
  obtain ⟨m, hm, h⟩ := bind_eq_ok_iff.1 h
  obtain ⟨partials, hpartials, h⟩ := bind_eq_ok_iff.1 h
  obtain ⟨w, hw, hs⟩ := bind_eq_ok_iff.1 h
  obtain rfl := FieldType.words?_eq_ok (liftFault_eq_ok_iff.1 hn)
  obtain rfl := FieldType.words?_eq_ok (liftFault_eq_ok_iff.1 hm)
  obtain rfl := (checked_eq_ok_iff.1 (liftFault_eq_ok_iff.1 hpartials)).2
  obtain ⟨levels, hlevels⟩ := hthreads
  have hlocal := (WorkGroup.ofGrid_eq_ok (liftFault_eq_ok_iff.1 hw) hgroups input.elements_pos
    (hlevels ▸ Nat.two_pow_pos levels)).2
  rw [← Except.ok.inj hs]
  refine ⟨⟨?_, rfl, levels, hlocal.trans hlevels⟩, hlocal⟩
  unfold firstTarget Stage.Takes
  by_cases hchained : 1 < groups
  · simp only [hchained, decide_true, if_true]
    rfl
  · simp only [hchained, decide_false, if_false]
    rfl

theorem IsPlane.total {s : Stage} {op : ReduceOp} {input output : FieldType} {groups : Nat}
    (h : IsPlane s op input output groups) (hinput : input.words = input.elements * input.points) :
    s.program.Total s.workgroup [input.words] (groups * input.elements) := by
  obtain ⟨levels, hlevels⟩ := h.threads
  rw [h.program, hinput]
  exact PlaneReduction.total (k := ⟨op, input.points, groups, input.elements⟩) hlevels

def Kernels (op : ReduceOp) (input output : FieldType) (groups : Nat) (stages : List Stage)
    (intermediates : List Nat) : Prop :=
  ∃ plane, IsPlane plane op input output groups ∧
    Rows plane op groups input.elements stages intermediates

def groupCount (points : Nat) (caps : Capabilities) : Nat :=
  min (ceilDiv points (threadCount points caps)) (groupLimit caps)

theorem groupCount_pos {points : Nat} (hpoints : 0 < points) (caps : Capabilities) :
    0 < groupCount points caps := by
  obtain ⟨levels, hlevels⟩ := threadCount_eq points caps
  have hcovers := le_ceilDiv_mul points (hlevels ▸ Nat.two_pow_pos levels)
  refine Nat.lt_min.2 ⟨Nat.pos_of_ne_zero fun hzero => ?_, groupLimit_pos caps⟩
  rw [hzero] at hcovers
  omega

theorem build_shape {op : ReduceOp} {input output : FieldType} {caps : Capabilities}
    {operation : Operation} (houtput : output.words = input.elements)
    (h : build op input output caps = .ok operation) :
    operation.output = output ∧ ∃ plane,
      IsPlane plane op input output (groupCount input.points caps) ∧
      plane.workgroup.localThreads = threadCount input.points caps ∧
      Rows plane op (groupCount input.points caps) input.elements operation.stages
        operation.intermediates ∧
      ∀ finish ∈ operation.stages.tail, finish.workgroup.localThreads =
        threadCount (groupCount input.points caps) caps := by
  unfold build at h
  obtain ⟨points, hpoints, h⟩ := bind_eq_ok_iff.1 h
  obtain ⟨elements, helements, h⟩ := bind_eq_ok_iff.1 h
  obtain ⟨threads, hthreads, h⟩ := bind_eq_ok_iff.1 h
  obtain ⟨limit, hlimit, h⟩ := bind_eq_ok_iff.1 h
  obtain rfl := (checked_eq_ok_iff.1 (liftFault_eq_ok_iff.1 hpoints)).2
  obtain rfl := (checked_eq_ok_iff.1 (liftFault_eq_ok_iff.1 helements)).2
  obtain rfl := (checked_eq_ok_iff.1 (liftFault_eq_ok_iff.1 hlimit)).2
  obtain rfl := (threadsFor_eq_ok hthreads).1
  have hpos := groupCount_pos input.points_pos caps
  have hgroups : Nat.min (ceilDiv input.points (threadCount input.points caps)) (groupLimit caps) =
      groupCount input.points caps := rfl
  simp only [hgroups] at h
  generalize groupCount input.points caps = groups at h hpos ⊢
  obtain ⟨first, hfirst, h⟩ := bind_eq_ok_iff.1 h
  obtain ⟨isPlane, hlocal⟩ := planeStage_eq_ok (threadCount_eq input.points caps) hpos hfirst
  by_cases hchained : 1 < groups
  · rw [if_pos hchained] at h
    obtain ⟨finish, hfinish, hop⟩ := bind_eq_ok_iff.1 h
    obtain ⟨hblock, hlocal'⟩ := blockStage_eq_ok input.elements_pos hfinish
    rw [houtput] at hblock
    rw [← Except.ok.inj hop]
    exact ⟨rfl, first, isPlane, hlocal, .pair hchained hblock, by simpa using hlocal'⟩
  · rw [if_neg hchained] at h
    rw [← Except.ok.inj h]
    exact ⟨rfl, first, isPlane, hlocal, .single (by omega), by simp [Operation.single]⟩

theorem build_eq_ok {op : ReduceOp} {input output : FieldType} {caps : Capabilities}
    {operation : Operation} (houtput : output.words = input.elements)
    (h : build op input output caps = .ok operation) :
    ∃ groups, 0 < groups ∧ operation.output = output ∧
      Kernels op input output groups operation.stages operation.intermediates := by
  obtain ⟨hop, plane, isPlane, -, hrows, -⟩ := build_shape houtput h
  exact ⟨_, groupCount_pos input.points_pos caps, hop, plane, isPlane, hrows⟩

theorem build_sound {op : ReduceOp} {input output : FieldType} {caps : Capabilities}
    {operation : Operation} (hinput : input.words = input.elements * input.points)
    (houtput : output.words = input.elements)
    (h : build op input output caps = .ok operation) : operation.Sound [input] := by
  obtain ⟨groups, -, rfl, plane, isPlane, hrows⟩ := build_eq_ok houtput h
  have htakes := isPlane.takes
  rw [houtput] at htakes
  exact hrows.sound houtput htakes (isPlane.total hinput)

end Reduction

namespace Correlation

theorem build_sound {size : Nat} {image gradient output : FieldType} {caps : Capabilities}
    {op : Operation} (hsize : size % 2 = 1) (himage : image.words = image.rows * image.columns)
    (hgradient : gradient.words = image.rows * image.columns) (houtput : output.words = size * size)
    (h : build size image gradient output caps = .ok op) : op.Sound [image, gradient] := by
  obtain ⟨p, ⟨hp, hrows, hcolumns, hpsize⟩, -, rfl, tiled, isTiled, hfinish⟩ := build_eq_ok hsize h
  have houtputs : op.output.words = p.outputs := by rw [houtput, TilePlan.outputs, hpsize]
  refine hfinish.sound houtputs isTiled.takes ?_
  rw [List.map_cons, List.map_cons, List.map_nil, isTiled.program, himage, hgradient, ← hrows,
    ← hcolumns, ← isTiled.groupCount]
  exact Correlation.total (k := ⟨p⟩) hp.toTiled

end Correlation

namespace Fourier

theorem build_sound {direction : Direction} {t : FieldType} {caps : Capabilities} {op : Operation}
    (ht : Transformable t) (h : build direction t caps = .ok op) : op.Sound [t] := by
  obtain ⟨houtput, hinter, hpasses⟩ := build_eq_ok h
  have hne := ht.plan_ne_nil direction
  have hlength := List.length_pos_iff.2 hne
  exact sound_from hpasses (by omega) hne (fun f hf => ht.regular hf)
    (fun p hp => slotWords_source houtput hinter hp)
    (fun p hp => slotWords_target houtput hinter hp) (.inl rfl)

end Fourier

end Synthesis

namespace Recipe

def operands : Recipe → List FieldType
  | reduction _ input _ => [input]
  | correlation _ image gradient _ => [image, gradient]
  | transform _ t => [t]

def Accepted : Recipe → Prop
  | reduction _ input output =>
    input.words = input.elements * input.points ∧ output.words = input.elements
  | correlation size image gradient output =>
    size % 2 = 1 ∧ image.words = image.rows * image.columns ∧
      gradient.words = image.rows * image.columns ∧ output.words = size * size
  | transform _ t => Synthesis.Fourier.Transformable t

theorem build_sound {recipe : Recipe} {caps : Capabilities} {op : Operation}
    (haccepted : recipe.Accepted) (h : recipe.build caps = .ok op) : op.Sound recipe.operands := by
  cases recipe with
  | reduction reduce input output =>
      exact Synthesis.Reduction.build_sound haccepted.1 haccepted.2 h
  | correlation size image gradient output =>
      obtain ⟨hsize, himage, hgradient, houtput⟩ := haccepted
      exact Synthesis.Correlation.build_sound hsize himage hgradient houtput h
  | transform direction t => exact Synthesis.Fourier.build_sound haccepted h

end Recipe

namespace Synthesis

/-- A prepared request is an operation that is sound if the extents are signed machine sizes, or an
accepted recipe for the operands. -/
def Request.Ready (inputs : List FieldType) : Request → Prop
  | .built op => (∀ t ∈ inputs, ∀ e ∈ t.field.extents, e < signedBound) → op.Sound inputs
  | .planned recipe => recipe.operands = inputs ∧ recipe.Accepted

theorem prepare_ready {o : Opcode} {inputs : List FieldType} {caps : Capabilities}
    {request : Request} (h : prepare o inputs caps = .ok request) : request.Ready inputs := by
  cases o with
  | unary _ | scale _ | offset _ | binary _ | complexBinary _ =>
      obtain ⟨op, hop, rfl⟩ := map_eq_ok_iff.1 h
      exact fun _ => Pointwise.sound hop
  | tensorReduce =>
      obtain ⟨op, hop, rfl⟩ := map_eq_ok_iff.1 h
      exact fun _ => TensorSum.sound hop
  | convolve border =>
      obtain ⟨op, hop, rfl⟩ := map_eq_ok_iff.1 h
      exact Convolution.sound hop
  | fieldReduce reduce =>
      obtain ⟨output, houtput, h⟩ := bind_eq_ok_iff.1 h
      obtain ⟨input, hinput, h⟩ := bind_eq_ok_iff.1 h
      obtain ⟨x, rfl, haccepted⟩ := Reduction.outputType_eq_ok houtput
      obtain rfl : x = input := Except.ok.inj hinput
      rw [← Except.ok.inj h]
      exact ⟨rfl, haccepted⟩
  | filterAdjoint size =>
      obtain ⟨output, houtput, h⟩ := bind_eq_ok_iff.1 h
      obtain ⟨image, himage, h⟩ := bind_eq_ok_iff.1 h
      obtain ⟨gradient, hgradient, h⟩ := bind_eq_ok_iff.1 h
      obtain ⟨x, y, rfl, haccepted⟩ := Correlation.outputType_eq_ok houtput
      obtain rfl : x = image := Except.ok.inj himage
      obtain rfl : y = gradient := Except.ok.inj hgradient
      rw [← Except.ok.inj h]
      exact ⟨rfl, haccepted⟩
  | fft direction =>
      obtain ⟨output, houtput, heq⟩ := bind_eq_ok_iff.1 h
      rw [← Except.ok.inj heq]
      obtain ⟨hinputs, haccepted⟩ := Fourier.outputType_eq_ok houtput
      exact ⟨hinputs.symm, haccepted⟩
  | constant | sensor _ | actuator _ | host _ | recurrence => cases h

/-- Synthesized operations are sound. -/
theorem synthesize_sound {o : Opcode} {inputs : List FieldType} {caps : Capabilities}
    {op : Operation} (h : synthesize o inputs caps = .ok op)
    (hextents : ∀ t ∈ inputs, ∀ e ∈ t.field.extents, e < signedBound) : op.Sound inputs := by
  obtain ⟨request, hrequest, h⟩ := bind_eq_ok_iff.1 h
  have hready := prepare_ready hrequest
  cases request with
  | built operation => exact Except.ok.inj h ▸ hready hextents
  | planned recipe => exact hready.1 ▸ Recipe.build_sound hready.2 h

end Synthesis

end FieldCircuit
