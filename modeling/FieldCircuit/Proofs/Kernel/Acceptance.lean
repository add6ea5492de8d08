import FieldCircuit.Proofs.Kernel.Overflow
import FieldCircuit.Proofs.Kernel.ResultTypes

/-!
# Accepted requests

A request is refused when its result type is announced, or not at all: addressing accepts the operands
that a synthesizer has accepted, and its templates can be filled with whatever it fills them with. What
can still be missing is local memory, for the operations that use it, and room for the sizes that are
computed on the way.
-/

namespace FieldCircuit

/-- Changing the kind of elements that are not complex keeps the number of words. -/
theorem FieldType.words_withElement {t : FieldType} (h : t.element.isComplex = false) :
    (t.withElement t.element.arithmetic).words = t.words := by
  have harithmetic : (t.withElement t.element.arithmetic).element.isComplex = false :=
    Element.isComplex_arithmetic h
  rw [words_of_real harithmetic, words_of_real h]
  rfl

theorem Addressing.covers_of_field {input output : FieldType} (h : input.field = output.field) :
    covers input output = true := by
  simp [covers, h]

namespace Synthesis

/-- Requests whose sizes leave room for what is computed from them. -/
structure Moderate (o : Opcode) (inputs : List FieldType) (caps : Capabilities) : Prop where
  words : ∀ t ∈ inputs, t.words < moderateBound
  groups : groupLimit caps < moderateBound
  /-- Every workgroup of a filter adjoint leaves one word per shift. -/
  filter : ∀ size, o = .filterAdjoint size → ∀ t ∈ inputs, t.words * (size * size) < moderateBound

variable {limited small : Prop} {caps : Capabilities} {inputs : List FieldType} {output : FieldType}

theorem Moderate.signed {o : Opcode} (h : Moderate o inputs caps) :
    ∀ t ∈ inputs, t.words < signedBound := fun t ht => (h.words t ht).trans moderateBound_lt.1

namespace Pointwise

/-- The operands of a point operation cover its result, which has the words of one of them. -/
theorem outputType_covers {o : Opcode} (h : outputType o inputs = .ok output) :
    (∀ t ∈ inputs, Addressing.covers t output = true) ∧ ∃ t ∈ inputs, output.words = t.words := by
  obtain ⟨op, hop, -⟩ := bind_eq_ok_iff.1 h
  rcases outputType_eq_ok h hop with ⟨_, _, rfl, _⟩ | ⟨_, first, rest, rfl, hreal, hrest⟩
  · refine ⟨fun t ht => ?_, output, List.mem_cons_self, rfl⟩
    obtain rfl : t = output := by simpa using ht
    exact Addressing.covers_of_field rfl
  · obtain ⟨rfl, hfirst, hsecond⟩ := hreal
    refine ⟨fun t ht => ?_, first, List.mem_cons_self, FieldType.words_withElement hfirst⟩
    rcases List.mem_cons.1 ht with rfl | ht
    · exact Addressing.covers_of_field rfl
    · obtain rfl : rest = [t] := by
        obtain ⟨a, rfl⟩ := List.length_eq_one_iff.1
          (Nat.le_antisymm hrest (List.length_pos_of_mem ht))
        rw [List.mem_singleton.1 ht]
      rcases (hsecond t rfl).2 with hbroadcast | ⟨hfield, -⟩
      · simp only [isBroadcast, Bool.and_eq_true] at hbroadcast
        simp [Addressing.covers, hbroadcast.1.1]
      · exact Addressing.covers_of_field hfield

theorem shortage {o : Opcode} (h : outputType o inputs = .ok output)
    (hsmall : small → ∀ t ∈ inputs, t.words < signedBound) :
    FailsOnly (Shortage caps limited small) (synthesize o inputs caps) := by
  obtain ⟨hcovers, source, hsource, hwords⟩ := outputType_covers h
  obtain ⟨op, hop, -⟩ := bind_eq_ok_iff.1 h
  have houtput : small → output.words < signedBound := fun hs => by
    rw [hwords]
    exact hsmall hs source hsource
  obtain ⟨first, rest, rfl⟩ := List.exists_cons_of_ne_nil (List.ne_nil_of_mem hsource)
  unfold synthesize
  refine .bind_of_ok h (.bind_of_ok hop ?_)
  refine (Addressing.select_shortage hcovers hsmall houtput).bind fun _ _ => ?_
  refine FailsOnly.bind (.mapM fun t ht => ?_) fun _ _ => ?_
  · exact (FieldType.words?_overflow fun hs => hsmall hs t ht).shortage
  · refine (FieldType.words?_overflow houtput).shortage.bind fun _ _ => ?_
    exact .bind_of_ok (a := first) rfl (.ok _)

end Pointwise

namespace TensorSum

theorem words_of_outputType {input : FieldType} (h : outputType [input] = .ok output) :
    output.words = input.points := by
  obtain ⟨_, heq, hreal, hfield, htensor, helement⟩ := outputType_eq_ok h
  obtain rfl : input = _ := by simpa using heq
  have hreal' : output.element.isComplex = false := by
    rw [helement]
    exact Element.isComplex_arithmetic hreal
  have helements : output.elements = 1 := by
    rw [FieldType.elements, htensor]
    rfl
  rw [FieldType.words_of_real hreal', helements, Nat.one_mul, FieldType.points, hfield]
  rfl

theorem shortage (h : outputType inputs = .ok output)
    (hsmall : small → ∀ t ∈ inputs, t.words < signedBound) :
    FailsOnly (Shortage caps limited small) (synthesize inputs caps) := by
  obtain ⟨input, rfl, -, hfield, -⟩ := outputType_eq_ok h
  rw [List.forall_mem_singleton] at hsmall
  have houtput : small → output.words < signedBound := fun hs => by
    rw [words_of_outputType h]
    exact Nat.lt_of_le_of_lt input.points_le_words (hsmall hs)
  unfold synthesize
  refine .bind_of_ok h (.bind_of_ok (a := input) rfl ?_)
  refine (Addressing.select_shortage ?_ ?_ houtput).bind fun _ _ => ?_
  · exact List.forall_mem_singleton.2 (Addressing.covers_of_field hfield.symm)
  · exact fun hs => List.forall_mem_singleton.2 (hsmall hs)
  · exact (FieldType.words?_overflow hsmall).shortage.bind fun _ _ =>
      (FieldType.words?_overflow houtput).shortage.bind fun _ _ => .ok _

end TensorSum

namespace Convolution

theorem shortage (border : Border) (h : outputType inputs = .ok output)
    (hsmall : small → ∀ t ∈ inputs, t.words < signedBound) :
    FailsOnly (Shortage caps limited small) (synthesize border inputs caps) := by
  obtain ⟨image, kernel, rfl, hplane, -, rfl⟩ := outputType_eq_ok h
  have himage : small → image.words < signedBound := fun hs => hsmall hs image (by simp)
  have hkernel : small → kernel.words < signedBound := fun hs => hsmall hs kernel (by simp)
  have houtput : small → (image.withElement image.element.arithmetic).words < signedBound := by
    rw [FieldType.words_withElement hplane.real]
    exact himage
  unfold synthesize
  refine .bind_of_ok h (.bind_of_ok (a := image) rfl (.bind_of_ok (a := kernel) rfl ?_))
  refine (Addressing.select_shortage ?_ ?_ houtput).bind fun _ _ => ?_
  · exact List.forall_mem_singleton.2 (Addressing.covers_of_field rfl)
  · exact fun hs => List.forall_mem_singleton.2 (himage hs)
  · exact (FieldType.words?_overflow himage).shortage.bind fun _ _ =>
      (FieldType.words?_overflow hkernel).shortage.bind fun _ _ =>
        (FieldType.words?_overflow houtput).shortage.bind fun _ _ => .ok _

end Convolution

namespace Reduction

variable {op : ReduceOp} {groups width : Nat}

theorem blockStage_shortage {name : String} (hlimited : limited) (hname : Plain name)
    {outputWords : Nat} (hgroups : small → groups < moderateBound)
    (hwidth : small → width < moderateBound) (hpartials : small → groups * width < moderateBound) :
    FailsOnly (Shortage caps limited small) (blockStage name op groups width outputWords caps) := by
  unfold blockStage
  refine (threadsFor_shortage hlimited hgroups).bind fun threads hthreads => ?_
  obtain ⟨text, htext⟩ := fill_blockTemplate op groups width threads hname
  refine .bind_of_ok htext (.bind_checked hpartials ?_)
  exact (WorkGroup.ofGrid_overflow hwidth (threadsFor_bounds hthreads).2).shortage.bind
    fun _ _ => .ok _

theorem planeStage_shortage {name : String} (hname : Plain name) {input : FieldType} {threads : Nat}
    (hthreads : threads ≤ maxReductionThreads) (hinput : small → input.words < signedBound)
    (houtput : small → output.words < signedBound) (hgroups : small → groups < moderateBound)
    (hpartials : small → groups * input.elements < moderateBound) :
    FailsOnly (Shortage caps limited small) (planeStage name op input output threads groups) := by
  obtain ⟨text, htext⟩ := fill_planeTemplate op input.points groups input.elements threads hname
    (plain_destination groups)
  unfold planeStage
  refine .bind_of_ok htext ?_
  refine (FieldType.words?_overflow hinput).shortage.bind fun _ _ => ?_
  refine (FieldType.words?_overflow houtput).shortage.bind fun _ _ => .bind_checked hpartials ?_
  exact (WorkGroup.ofGrid_overflow hgroups hthreads).shortage.bind fun _ _ => .ok _

theorem partials_le (input : FieldType) {threads : Nat} (hthreads : 0 < threads) (limit : Nat) :
    Nat.min (ceilDiv input.points threads) limit * input.elements ≤ input.words := by
  calc Nat.min (ceilDiv input.points threads) limit * input.elements
      ≤ ceilDiv input.points threads * input.elements := Nat.mul_le_mul_right _ (Nat.min_le_left _ _)
    _ ≤ input.points * input.elements := Nat.mul_le_mul_right _ (ceilDiv_le _ hthreads)
    _ ≤ input.words := input.points_mul_elements_le_words

theorem shortage {input : FieldType} (hlimited : limited) (houtput : output.words = input.elements)
    (hinput : small → input.words < moderateBound) (hcaps : small → groupLimit caps < moderateBound) :
    FailsOnly (Shortage caps limited small) (build op input output caps) := by
  have hbelow : ∀ {n}, n ≤ input.words → small → n < moderateBound := fun hn hs =>
    Nat.lt_of_le_of_lt hn (hinput hs)
  have helements := hbelow input.elements_le_words
  unfold build
  refine .bind_checked (hbelow input.points_le_words) (.bind_checked helements ?_)
  refine (threadsFor_shortage hlimited (hbelow input.points_le_words)).bind fun threads hthreads => ?_
  refine .bind_checked hcaps ?_
  obtain ⟨hpos, hle⟩ := threadsFor_bounds hthreads
  have hgroups : small → Nat.min (ceilDiv input.points threads) (groupLimit caps) < moderateBound :=
    fun hs => Nat.lt_of_le_of_lt (Nat.min_le_right _ _) (hcaps hs)
  have hpartials := hbelow (partials_le input hpos (groupLimit caps))
  have hsigned : ∀ {n}, n ≤ input.words → small → n < signedBound := fun hn hs =>
    (hbelow hn hs).trans moderateBound_lt.1
  refine (planeStage_shortage (plain_name op input) hle (hsigned (Nat.le_refl _))
    (houtput ▸ hsigned input.elements_le_words) hgroups hpartials).bind fun _ _ => ?_
  split
  · exact (blockStage_shortage hlimited (plain_finish (plain_name op input)) hgroups helements
      hpartials).bind fun _ _ => .ok _
  · exact .ok _

end Reduction

namespace Correlation

theorem tiledStage_shortage {name : String} {p : TilePlan} {image gradient : FieldType}
    (hthreads : p.threads ≤ maxReductionThreads) (himage : small → image.words < signedBound)
    (hgradient : small → gradient.words < signedBound) (hgroups : small → p.groups < moderateBound)
    (hpartials : small → p.groups * p.outputs < moderateBound) :
    FailsOnly (Shortage caps limited small) (tiledStage name p image gradient) := by
  unfold tiledStage
  refine (FieldType.words?_overflow himage).shortage.bind fun _ _ => ?_
  refine (FieldType.words?_overflow hgradient).shortage.bind fun _ _ => .bind_checked hpartials ?_
  exact (WorkGroup.ofGrid_overflow hgroups hthreads).shortage.bind fun _ _ => .ok _

theorem shortage {size : Nat} {image gradient : FieldType} (hlimited : limited)
    (hodd : size % 2 = 1) (himage : image.words = image.rows * image.columns)
    (hgradient : gradient.words = image.rows * image.columns)
    (hcaps : small → groupLimit caps < moderateBound)
    (hsmall : small → image.words * (size * size) < moderateBound) :
    FailsOnly (Shortage caps limited small) (build size image gradient output caps) := by
  have hsize : 0 < size * size := Nat.mul_pos (by omega) (by omega)
  have hwords : small → image.rows * image.columns < moderateBound := fun hs =>
    himage ▸ Nat.lt_of_le_of_lt (Nat.le_mul_of_pos_right _ hsize) (hsmall hs)
  have hfilter : small → size * size < moderateBound := fun hs =>
    Nat.lt_of_le_of_lt (Nat.le_mul_of_pos_left _ image.words_pos) (hsmall hs)
  unfold build
  refine (TilePlan.search_shortage hlimited image.rows_pos image.columns_pos hodd fun hs =>
    ⟨hwords hs, hcaps hs, hfilter hs⟩).bind fun p hp => ?_
  have hthreads := TilePlan.search_threads_le hp
  obtain ⟨k, rfl, -⟩ := TilePlan.search_eq_ok hp
  generalize hplan : TilePlan.withThreads image.rows image.columns size caps (2 ^ k) = p at hthreads ⊢
  have houtputs : p.outputs = size * size := by
    rw [← hplan]
    rfl
  obtain ⟨hgroupsLimit, hgroupsPoints⟩ : p.groups ≤ groupLimit caps ∧
      p.groups ≤ image.rows * image.columns := by
    rw [← hplan]
    exact TilePlan.groups_withThreads_le caps image.rows_pos image.columns_pos hodd k
  have hgroups : small → p.groups < moderateBound := fun hs =>
    Nat.lt_of_le_of_lt hgroupsLimit (hcaps hs)
  have hpartials : small → p.groups * p.outputs < moderateBound := fun hs => by
    refine Nat.lt_of_le_of_lt ?_ (hsmall hs)
    rw [houtputs, himage]
    exact Nat.mul_le_mul_right _ hgroupsPoints
  have hsigned : small → image.rows * image.columns < signedBound := fun hs =>
    (hwords hs).trans moderateBound_lt.1
  refine (tiledStage_shortage hthreads (himage ▸ hsigned) (hgradient ▸ hsigned) hgroups
    hpartials).bind fun _ _ => ?_
  split
  · exact (Reduction.blockStage_shortage hlimited (Reduction.plain_finish (plain_name _ _ _)) hgroups
      (houtputs ▸ hfilter) hpartials).bind fun _ _ => .ok _
  · exact .ok _

end Correlation

namespace Fourier

theorem shortage {direction : Direction} {t : FieldType} (ht : Transformable t)
    (hsmall : small → t.words < signedBound) :
    FailsOnly (Shortage caps limited small) (build direction t caps) := by
  by_cases hwords : t.words < sizeBound
  · obtain ⟨op, hop⟩ := ht.build_exists hwords direction caps
    exact .of_ok hop
  · refine (FieldType.words?_overflow hsmall).shortage.bind fun _ hn => absurd ?_ hwords
    exact FieldType.words_lt_of_words? (liftFault_eq_ok_iff.1 hn)

end Fourier

theorem Reduction.synthesize_eq {reduce : ReduceOp} {input : FieldType}
    (h : outputType [input] = .ok output) :
    synthesize (.fieldReduce reduce) [input] caps = build reduce input output caps := by
  simp only [synthesize, prepare, h, ok_bind]
  rfl

theorem Correlation.synthesize_eq {size : Nat} {image gradient : FieldType}
    (h : outputType size [image, gradient] = .ok output) :
    synthesize (.filterAdjoint size) [image, gradient] caps =
      build size image gradient output caps := by
  simp only [synthesize, prepare, h, ok_bind]
  rfl

/-- A request whose result type has been announced fails only for want of local memory, if it makes use
of it, or of room for its sizes. -/
theorem synthesize_shortage {o : Opcode} (h : outputType o inputs = .ok output)
    (caps : Capabilities) :
    FailsOnly (Shortage caps ((∃ reduce, o = .fieldReduce reduce) ∨ ∃ size, o = .filterAdjoint size)
      (Moderate o inputs caps)) (synthesize o inputs caps) := by
  have hbuilt : ∀ {p : KernelError → Prop} {x : Except KernelError Operation}, FailsOnly p x →
      prepare o inputs caps = Request.built <$> x → FailsOnly p (synthesize o inputs caps) :=
    fun hx heq => (synthesize_built heq).symm ▸ hx
  cases o with
  | unary _ | scale _ | offset _ | binary _ | complexBinary _ =>
      exact hbuilt (Pointwise.shortage h Moderate.signed) rfl
  | tensorReduce => exact hbuilt (TensorSum.shortage h Moderate.signed) rfl
  | convolve border => exact hbuilt (Convolution.shortage border h Moderate.signed) rfl
  | fieldReduce reduce =>
      obtain ⟨input, rfl, -, helements⟩ := Reduction.outputType_eq_ok h
      rw [Reduction.synthesize_eq h]
      exact Reduction.shortage (.inl ⟨reduce, rfl⟩) helements
        (fun hs => hs.words input List.mem_cons_self) Moderate.groups
  | filterAdjoint size =>
      obtain ⟨image, gradient, rfl, hodd, himage, hgradient, -⟩ := Correlation.outputType_eq_ok h
      rw [Correlation.synthesize_eq h]
      exact Correlation.shortage (.inr ⟨size, rfl⟩) hodd himage hgradient Moderate.groups
        fun hs => hs.filter size rfl image List.mem_cons_self
  | fft direction =>
      obtain ⟨rfl, htransformable⟩ := Fourier.outputType_eq_ok h
      rw [Fourier.synthesize_fft h]
      exact Fourier.shortage htransformable fun hs => hs.signed output List.mem_cons_self
  | constant | sensor _ | actuator _ | host _ | recurrence => cases h

theorem synthesize_refused {o : Opcode} {e : KernelError} (h : outputType o inputs = .error e)
    (caps : Capabilities) : synthesize o inputs caps = .error e := by
  have hbuilt : ∀ {x : Except KernelError Operation}, x = .error e →
      prepare o inputs caps = Request.built <$> x → synthesize o inputs caps = .error e :=
    fun hx heq => (synthesize_built heq).trans hx
  cases o with
  | unary _ | scale _ | offset _ | binary _ | complexBinary _ =>
      exact hbuilt (congrArg (· >>= _) h) rfl
  | tensorReduce => exact hbuilt (congrArg (· >>= _) h) rfl
  | convolve border => exact hbuilt (congrArg (· >>= _) h) rfl
  | fieldReduce reduce => exact congrArg (fun x => (x >>= _) >>= _) h
  | filterAdjoint size => exact congrArg (fun x => (x >>= _) >>= _) h
  | fft direction => exact congrArg (fun x => (x >>= _) >>= _) h
  | constant | sensor _ | actuator _ | host _ | recurrence =>
      cases h
      rfl

/-- Whether an error says that the library disagrees with itself: a slot of one of its templates is
left over, or operands that a synthesizer has accepted do not cover the result. -/
def isInternal : KernelError → Bool
  | .unresolvedPlaceholder _ => true
  | .shapeMismatch operation _ => operation == "addressing"
  | _ => false

/-- An error says that something is wrong with the request: the library does not disagree with itself, nor
has it left the range it computes in, if sizes are known to be small. -/
def IsRefusal (small : Prop) (e : KernelError) : Prop :=
  isInternal e = false ∧ (small → e.isFault = false)

theorem expectOperands_refuses (operation : String) (inputs : List FieldType) (n : Nat) :
    FailsOnly (IsRefusal small) (expectOperands operation inputs n) :=
  .ite (fun _ => .ok ()) fun _ => .error ⟨rfl, fun _ => rfl⟩

theorem expectReal_refuses (operation : String) (t : FieldType) :
    FailsOnly (IsRefusal small) (expectReal operation t) :=
  .ite (fun _ => .error ⟨rfl, fun _ => rfl⟩) fun _ => .ok ()

theorem expectPlanar_refuses (operation : String) (t : FieldType) :
    FailsOnly (IsRefusal small) (expectPlanar operation t) :=
  (expectReal_refuses operation t).bind fun _ _ =>
    .ite (fun _ => .ok ()) fun _ => .error ⟨rfl, fun _ => rfl⟩

theorem liftField_refuses {α : Type} (x : Except FieldError α) :
    FailsOnly (IsRefusal small) (liftM x : Except KernelError α) := by
  cases x with
  | error e => exact .error ⟨rfl, fun _ => rfl⟩
  | ok a => exact .ok a

theorem oneOperand_refuses {operation : String} {f : FieldType → Except KernelError FieldType}
    (hf : ∀ t, FailsOnly (IsRefusal small) (f t)) : FailsOnly (IsRefusal small) (do
      expectOperands operation inputs 1
      f (← (fetch inputs.toArray 0 : Except KernelError FieldType))) := by
  refine (expectOperands_refuses operation inputs 1).bind fun _ hcount => ?_
  obtain ⟨t, rfl⟩ := List.length_eq_one_iff.1 (expectOperands_eq_ok hcount)
  exact .bind_of_ok (a := t) rfl (hf t)

namespace Pointwise

variable {description : String}

theorem complexOutput_refuses (hdescription : description ≠ "addressing") (op : BinaryOp)
    (first second : FieldType) :
    FailsOnly (IsRefusal small) (complexOutput op description first second) := by
  have hmismatch : ∀ cause, IsRefusal small (.shapeMismatch description cause) := fun _ =>
    ⟨beq_false_of_ne hdescription, fun _ => rfl⟩
  unfold complexOutput
  split
  · exact .error (hmismatch _)
  · split
    · exact .error ⟨rfl, fun _ => rfl⟩
    · split
      · exact .error (hmismatch _)
      · exact .ok first

theorem isBroadcast?_overflow {first second : FieldType} (h : small → second.words < sizeBound) :
    FailsOnly (Overflow small) (isBroadcast? first second) := by
  refine .ite (fun _ => ?_) fun _ => .ok false
  exact (checked_overflow fun hs => Nat.lt_of_le_of_lt second.elements_le_words (h hs)).bind
    fun _ _ => .ok _

theorem realOutput_refuses (hdescription : description ≠ "addressing") (first : FieldType)
    {second : Option FieldType} (h : small → ∀ t ∈ second, t.words < sizeBound) :
    FailsOnly (IsRefusal small) (realOutput description first second) := by
  refine (expectReal_refuses description first).bind fun _ _ => ?_
  cases second with
  | none => exact .ok _
  | some second =>
      have hbroadcast : FailsOnly (IsRefusal small)
          (liftM (isBroadcast? first second) : Except KernelError Bool) :=
        (isBroadcast?_overflow fun hs => h hs second rfl).liftFault fun _ hoverflow =>
          ⟨rfl, fun hs => absurd hs hoverflow.2⟩
      exact (expectReal_refuses description second).bind fun _ _ =>
        .ite (fun _ => .ok _) fun _ => hbroadcast.bind fun _ _ =>
          .ite (fun _ => .error ⟨beq_false_of_ne hdescription, fun _ => rfl⟩) fun _ => .ok _

theorem outputType_refuses (o : Opcode) (h : small → ∀ t ∈ inputs, t.words < sizeBound) :
    FailsOnly (IsRefusal small) (outputType o inputs) := by
  refine FailsOnly.bind ?_ fun op _ => ?_
  · unfold pointOp
    split
    · exact .ok _
    · exact .error ⟨rfl, fun _ => rfl⟩
  · have hdescription : op.description ≠ "addressing" := by
      cases op <;> exact of_decide_eq_true rfl
    refine (expectOperands_refuses _ inputs _).bind fun _ hcount => ?_
    split
    · exact complexOutput_refuses hdescription _ _ _
    · exact realOutput_refuses hdescription _ fun hs t ht =>
        h hs t (List.mem_cons_of_mem _ (List.mem_of_mem_head? ht))
    · -- every operation has an operand
      have hnone : 0 = op.operands := expectOperands_eq_ok hcount
      cases op <;> cases hnone

end Pointwise

theorem outputType_refuses (o : Opcode) (h : small → ∀ t ∈ inputs, t.words < sizeBound) :
    FailsOnly (IsRefusal small) (outputType o inputs) := by
  cases o with
  | unary _ | scale _ | offset _ | binary _ | complexBinary _ =>
      exact Pointwise.outputType_refuses _ h
  | tensorReduce | fieldReduce _ =>
      exact oneOperand_refuses fun input =>
        (expectReal_refuses _ input).bind fun _ _ => liftField_refuses _
  | convolve border =>
      refine (expectOperands_refuses _ inputs _).bind fun _ hcount => ?_
      obtain ⟨image, kernel, rfl⟩ := List.length_eq_two.1 (expectOperands_eq_ok hcount)
      refine (expectPlanar_refuses _ image).bind fun _ _ => ?_
      refine (expectPlanar_refuses _ kernel).bind fun _ _ => ?_
      exact .ite (fun _ => .ok _) fun _ => .error ⟨rfl, fun _ => rfl⟩
  | filterAdjoint size =>
      refine (expectOperands_refuses _ inputs _).bind fun _ hcount => ?_
      obtain ⟨image, gradient, rfl⟩ := List.length_eq_two.1 (expectOperands_eq_ok hcount)
      refine (expectPlanar_refuses _ image).bind fun _ _ => ?_
      refine (expectPlanar_refuses _ gradient).bind fun _ _ => ?_
      exact .ite (fun _ => .error ⟨rfl, fun _ => rfl⟩) fun _ =>
        .ite (fun _ => .error ⟨rfl, fun _ => rfl⟩) fun _ => liftField_refuses _
  | fft direction =>
      refine oneOperand_refuses fun input => ?_
      refine .ite (fun _ => .error ⟨rfl, fun _ => rfl⟩) fun _ =>
        .ite (fun _ => .error ⟨rfl, fun _ => rfl⟩) fun _ => ?_
      refine FailsOnly.bind (.forM fun extent _ => ?_) fun _ _ => .ok _
      exact .ite (fun _ => .error ⟨rfl, fun _ => rfl⟩) fun _ =>
        .ite (fun _ => .error ⟨rfl, fun _ => rfl⟩) fun _ => .ok ()
  | constant | sensor _ | actuator _ | host _ | recurrence => exact .error ⟨rfl, fun _ => rfl⟩

/-! The stages of an operation share no more words than its sizes leave room for. -/

theorem Reduction.shared_le {op : ReduceOp} {input : FieldType} {operation : Operation} {n : Nat}
    (h : build op input output caps = .ok operation) (hn : n ∈ operation.intermediates) :
    n ≤ input.words := by
  simp only [build, bind_eq_ok_iff, liftFault_eq_ok_iff] at h
  obtain ⟨points, hpoints, elements, helements, threads, hthreads, limit, hlimit, first, -, h⟩ := h
  obtain rfl := (checked_eq_ok_iff.1 hpoints).2
  obtain rfl := (checked_eq_ok_iff.1 helements).2
  split at h
  · obtain ⟨finish, -, hop⟩ := bind_eq_ok_iff.1 h
    rw [← Except.ok.inj hop] at hn
    obtain rfl := List.mem_singleton.1 hn
    exact partials_le input (threadsFor_bounds hthreads).1 limit
  · rw [← Except.ok.inj h] at hn
    cases hn

theorem Correlation.shared_le {size : Nat} {image gradient : FieldType} {op : Operation} {n : Nat}
    (hodd : size % 2 = 1) (himage : image.words = image.rows * image.columns)
    (h : build size image gradient output caps = .ok op) (hn : n ∈ op.intermediates) :
    n ≤ image.words * (size * size) := by
  simp only [build, bind_eq_ok_iff] at h
  obtain ⟨p, hp, tiled, -, h⟩ := h
  obtain ⟨k, rfl, -⟩ := TilePlan.search_eq_ok hp
  have hgroups := (TilePlan.groups_withThreads_le caps image.rows_pos image.columns_pos hodd k).2
  split at h
  · obtain ⟨finish, -, hop⟩ := bind_eq_ok_iff.1 h
    rw [← Except.ok.inj hop] at hn
    obtain rfl := List.mem_singleton.1 hn
    rw [himage]
    exact Nat.mul_le_mul_right _ hgroups
  · rw [← Except.ok.inj h] at hn
    cases hn

theorem shared_lt {o : Opcode} {op : Operation} {n : Nat} (hm : Moderate o inputs caps)
    (h : synthesize o inputs caps = .ok op) (hn : n ∈ op.intermediates) : n < moderateBound := by
  have houtput := output_synthesize h
  cases o with
  | unary _ | scale _ | offset _ | binary _ | complexBinary _ =>
      rw [synthesize_built rfl] at h
      obtain ⟨_, _, _, -, -, rfl, -⟩ := Pointwise.synthesize_eq_ok h
      cases hn
  | tensorReduce =>
      rw [synthesize_built rfl] at h
      simp only [TensorSum.synthesize, bind_eq_ok_iff] at h
      obtain ⟨_, -, _, -, _, -, _, -, _, -, hop⟩ := h
      rw [← Except.ok.inj hop] at hn
      cases hn
  | convolve border =>
      rw [synthesize_built rfl] at h
      obtain ⟨_, _, _, _, -, -, rfl, -⟩ := Convolution.synthesize_eq_ok h
      cases hn
  | fieldReduce reduce =>
      obtain ⟨input, rfl, -⟩ := Reduction.outputType_eq_ok houtput
      rw [Reduction.synthesize_eq houtput] at h
      exact (Reduction.shared_le h hn).trans_lt (hm.words input List.mem_cons_self)
  | filterAdjoint size =>
      obtain ⟨image, gradient, rfl, hodd, himage, -⟩ := Correlation.outputType_eq_ok houtput
      rw [Correlation.synthesize_eq houtput] at h
      exact (Correlation.shared_le hodd himage h hn).trans_lt
        (hm.filter size rfl image List.mem_cons_self)
  | fft direction =>
      obtain ⟨rfl, -⟩ := Fourier.outputType_eq_ok houtput
      rw [Fourier.synthesize_fft houtput] at h
      rw [(Fourier.build_eq_ok h).2.1] at hn
      rw [List.eq_of_mem_replicate hn]
      exact hm.words _ List.mem_cons_self
  | constant | sensor _ | actuator _ | host _ | recurrence => cases h

theorem Moderate.not_fault {o : Opcode} (hm : Moderate o inputs caps) :
    FailsOnly (·.isFault = false) (synthesize o inputs caps) := by
  intro e he
  cases houtput : outputType o inputs with
  | error e' =>
      obtain rfl : e' = e := Except.error.inj ((synthesize_refused houtput caps).symm.trans he)
      exact (outputType_refuses o (fun hs t ht => (hs.words t ht).trans moderateBound_lt.2) e' houtput).2 hm
  | ok t =>
      rcases synthesize_shortage houtput caps e he with _ | hlarge
      · rfl
      · exact absurd hm hlarge

/-- Announcing the result type of a request and synthesizing its kernels agree. What is refused first is
refused again for the same reason. Otherwise the result does not consist of pixels, and the kernels
are those of an operation with this result, unless the operation reduces a field or is a filter adjoint
and the device has too little local memory for it; sizes overflow only if they are not moderate. No
slot of a template is ever left, and addressing refuses nothing. -/
theorem synthesize_agrees (o : Opcode) (inputs : List FieldType) (caps : Capabilities) :
    (∀ e, outputType o inputs = .error e → synthesize o inputs caps = .error e) ∧
    (∀ t, outputType o inputs = .ok t → t.element ≠ .pixel ∧
      ((∃ op, synthesize o inputs caps = .ok op ∧ op.output = t) ∨
        (((∃ reduce, o = .fieldReduce reduce) ∨ ∃ size, o = .filterAdjoint size) ∧
          ∃ operation required, caps.localMemory < required ∧
            synthesize o inputs caps =
              .error (.localMemoryExhausted operation required caps.localMemory)) ∨
        (¬Moderate o inputs caps ∧ synthesize o inputs caps = .error (.fault .sizeOverflow)))) ∧
    ∀ e, synthesize o inputs caps = .error e →
      (∀ name, e ≠ .unresolvedPlaceholder name) ∧ ∀ cause, e ≠ .shapeMismatch "addressing" cause := by
  refine ⟨fun e he => synthesize_refused he caps, ?_, ?_⟩
  · intro t ht
    refine ⟨outputType_ne_pixel ht, ?_⟩
    cases hsynthesize : synthesize o inputs caps with
    | ok op =>
        exact .inl ⟨op, rfl, Except.ok.inj ((output_synthesize hsynthesize).symm.trans ht)⟩
    | error e =>
        rcases synthesize_shortage ht caps e hsynthesize with ⟨hlimited, hmemory⟩ | hlarge
        · exact .inr (.inl ⟨hlimited, _, _, hmemory, rfl⟩)
        · exact .inr (.inr ⟨hlarge, rfl⟩)
  · intro e he
    have hexternal : isInternal e = false := by
      cases houtput : outputType o inputs with
      | error e' =>
          have heq : synthesize o inputs caps = .error e' := synthesize_refused houtput caps
          obtain rfl : e' = e := Except.error.inj (heq.symm.trans he)
          exact (outputType_refuses o (fun h : False => h.elim) e' houtput).1
      | ok t => rcases synthesize_shortage houtput caps e he with _ | _ <;> rfl
    constructor
    · rintro name rfl
      cases hexternal
    · rintro cause rfl
      cases hexternal

/-- On a device with three bytes of local memory, the reduction of five vectors is refused, although its
result type is announced. -/
theorem synthesize_agrees_five_vectors : ∃ (t : FieldType) (operation : String) (required : Nat),
    outputType (.fieldReduce .sum) [.fiveVectors] = .ok t ∧ t.element ≠ .pixel ∧ 3 < required ∧
      synthesize (.fieldReduce .sum) [.fiveVectors] ⟨3, 1, 1, 0⟩ =
        .error (.localMemoryExhausted operation required 3) := by
  obtain ⟨t, ht⟩ : ∃ t, outputType (.fieldReduce .sum) [.fiveVectors] = .ok t := ⟨_, rfl⟩
  have hmoderate : Moderate (.fieldReduce .sum) [.fiveVectors] ⟨3, 1, 1, 0⟩ :=
    ⟨by decide, by decide, fun _ h => by cases h⟩
  obtain ⟨-, hannounced, -⟩ := synthesize_agrees (.fieldReduce .sum) [.fiveVectors] ⟨3, 1, 1, 0⟩
  obtain ⟨hpixel, ⟨op, hop, -⟩ | ⟨-, operation, required, hmemory, herror⟩ | ⟨hlarge, -⟩⟩ :=
    hannounced t ht
  · cases hop
  · exact ⟨t, operation, required, ht, hpixel, hmemory, herror⟩
  · exact absurd hmoderate hlarge

end Synthesis

end FieldCircuit
