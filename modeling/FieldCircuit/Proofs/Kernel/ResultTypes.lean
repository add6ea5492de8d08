import FieldCircuit.Proofs.Kernel.Synthesized

/-!
# Result types

The operation that is synthesized for a request has the result type that was announced for it, and
results are never pixels: an operation on pixels yields numbers.
-/

namespace FieldCircuit

def Recipe.output : Recipe → FieldType
  | reduction _ _ output => output
  | correlation _ _ _ output => output
  | transform _ t => t

namespace Synthesis

theorem ne_pixel_of_isComplex {e : Element} (h : e.isComplex = true) : e ≠ .pixel := by
  rintro rfl
  cases h

theorem Correlation.element_outputType {size : Nat} {inputs : List FieldType} {t : FieldType}
    (h : outputType size inputs = .ok t) : t.element = .float := by
  simp only [outputType, bind_eq_ok_iff] at h
  obtain ⟨_, _, h⟩ := h
  split at h
  · simp only [bind_eq_ok_iff] at h
    obtain ⟨_, _, _, _, h⟩ := h
    split at h
    · cases h
    · split at h
      · cases h
      · exact (FieldType.of_eq_ok (liftField_eq_ok_iff.1 h)).2.2
  · cases h

theorem Fourier.isComplex_outputType {inputs : List FieldType} {t : FieldType}
    (h : outputType inputs = .ok t) : t.element.isComplex = true := by
  simp only [outputType, bind_eq_ok_iff] at h
  obtain ⟨_, _, input, _, h⟩ := h
  split at h
  · cases h
  · rename_i hcomplex
    split at h
    · cases h
    · obtain ⟨_, _, ht⟩ := bind_eq_ok_iff.1 h
      rw [← Except.ok.inj ht]
      simpa using hcomplex

theorem outputType_ne_pixel {o : Opcode} {inputs : List FieldType} {t : FieldType}
    (h : outputType o inputs = .ok t) : t.element ≠ .pixel := by
  cases o with
  | unary _ | scale _ | offset _ | binary _ | complexBinary _ =>
      obtain ⟨op, hop, -⟩ := bind_eq_ok_iff.1 (show Pointwise.outputType _ inputs = .ok t from h)
      rcases Pointwise.outputType_eq_ok h hop with ⟨_, _, _, hcomplex⟩ | ⟨_, first, _, _, hreal, _⟩
      · exact ne_pixel_of_isComplex hcomplex
      · rw [hreal.output]
        exact first.element.arithmetic_ne_pixel
  | tensorReduce =>
      obtain ⟨input, _, _, _, _, helement⟩ := TensorSum.outputType_eq_ok h
      rw [helement]
      exact input.element.arithmetic_ne_pixel
  | convolve border =>
      obtain ⟨image, _, _, _, _, rfl⟩ := Convolution.outputType_eq_ok h
      exact image.element.arithmetic_ne_pixel
  | fieldReduce reduce =>
      obtain ⟨_, _, h⟩ := bind_eq_ok_iff.1 (show Reduction.outputType inputs = .ok t from h)
      obtain ⟨input, _, h⟩ := bind_eq_ok_iff.1 h
      obtain ⟨_, _, h⟩ := bind_eq_ok_iff.1 h
      rw [(FieldType.of_eq_ok (liftField_eq_ok_iff.1 h)).2.2]
      exact input.element.arithmetic_ne_pixel
  | filterAdjoint size =>
      rw [Correlation.element_outputType h]
      decide
  | fft direction => exact ne_pixel_of_isComplex (Fourier.isComplex_outputType h)
  | constant | sensor _ | actuator _ | host _ | recurrence => cases h

end Synthesis

theorem Recipe.output_build {recipe : Recipe} {caps : Capabilities} {op : Operation}
    (h : recipe.build caps = .ok op) : op.output = recipe.output := by
  cases recipe with
  | reduction reduce input output =>
      simp only [Recipe.build, Synthesis.Reduction.build, bind_eq_ok_iff] at h
      obtain ⟨_, _, _, _, _, _, _, _, first, _, h⟩ := h
      split at h
      · obtain ⟨_, _, hop⟩ := bind_eq_ok_iff.1 h
        rw [← Except.ok.inj hop]
        rfl
      · rw [← Except.ok.inj h]
        rfl
  | correlation size image gradient output =>
      simp only [Recipe.build, Synthesis.Correlation.build, bind_eq_ok_iff] at h
      obtain ⟨_, _, _, _, h⟩ := h
      split at h
      · obtain ⟨_, _, hop⟩ := bind_eq_ok_iff.1 h
        rw [← Except.ok.inj hop]
        rfl
      · rw [← Except.ok.inj h]
        rfl
  | transform direction t => exact (Synthesis.Fourier.build_eq_ok h).1

namespace Synthesis

def Request.output : Request → FieldType
  | .built op => op.output
  | .planned recipe => recipe.output

theorem prepare_outputType {o : Opcode} {inputs : List FieldType} {caps : Capabilities}
    {request : Request} (h : prepare o inputs caps = .ok request) :
    outputType o inputs = .ok request.output := by
  cases o with
  | unary _ | scale _ | offset _ | binary _ | complexBinary _ =>
      obtain ⟨op, hop, rfl⟩ := map_eq_ok_iff.1 h
      obtain ⟨output, _, s, houtput, -, rfl, -⟩ := Pointwise.synthesize_eq_ok hop
      exact houtput
  | tensorReduce =>
      obtain ⟨op, hop, rfl⟩ := map_eq_ok_iff.1 h
      unfold TensorSum.synthesize at hop
      obtain ⟨output, houtput, hop⟩ := bind_eq_ok_iff.1 hop
      obtain ⟨_, _, hop⟩ := bind_eq_ok_iff.1 hop
      obtain ⟨⟨_, _⟩, _, hop⟩ := bind_eq_ok_iff.1 hop
      obtain ⟨_, _, hop⟩ := bind_eq_ok_iff.1 hop
      obtain ⟨_, _, hop⟩ := bind_eq_ok_iff.1 hop
      rw [← Except.ok.inj hop]
      exact houtput
  | convolve border =>
      obtain ⟨op, hop, rfl⟩ := map_eq_ok_iff.1 h
      unfold Convolution.synthesize at hop
      obtain ⟨output, houtput, hop⟩ := bind_eq_ok_iff.1 hop
      obtain ⟨_, _, hop⟩ := bind_eq_ok_iff.1 hop
      obtain ⟨_, _, hop⟩ := bind_eq_ok_iff.1 hop
      obtain ⟨⟨_, _⟩, _, hop⟩ := bind_eq_ok_iff.1 hop
      obtain ⟨_, _, hop⟩ := bind_eq_ok_iff.1 hop
      obtain ⟨_, _, hop⟩ := bind_eq_ok_iff.1 hop
      obtain ⟨_, _, hop⟩ := bind_eq_ok_iff.1 hop
      rw [← Except.ok.inj hop]
      exact houtput
  | fieldReduce reduce =>
      obtain ⟨output, houtput, h⟩ := bind_eq_ok_iff.1 h
      obtain ⟨_, _, h⟩ := bind_eq_ok_iff.1 h
      rw [← Except.ok.inj h]
      exact houtput
  | filterAdjoint size =>
      obtain ⟨output, houtput, h⟩ := bind_eq_ok_iff.1 h
      obtain ⟨_, _, h⟩ := bind_eq_ok_iff.1 h
      obtain ⟨_, _, h⟩ := bind_eq_ok_iff.1 h
      rw [← Except.ok.inj h]
      exact houtput
  | fft direction =>
      obtain ⟨output, houtput, heq⟩ := bind_eq_ok_iff.1 h
      rw [← Except.ok.inj heq]
      exact houtput
  | constant | sensor _ | actuator _ | host _ | recurrence => cases h

/-- What is synthesized has the result type that was announced. -/
theorem output_synthesize {o : Opcode} {inputs : List FieldType} {caps : Capabilities}
    {op : Operation} (h : synthesize o inputs caps = .ok op) :
    outputType o inputs = .ok op.output := by
  obtain ⟨request, hrequest, hbuild⟩ := bind_eq_ok_iff.1 h
  rw [prepare_outputType hrequest]
  cases request with
  | built operation => rw [← Except.ok.inj hbuild, Request.output]
  | planned recipe => rw [Recipe.output_build hbuild, Request.output]

end Synthesis

end FieldCircuit
