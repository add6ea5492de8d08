import FieldCircuit.Proofs.Kernel.Synthesized
import FieldCircuit.Proofs.Memory.Buffer

/-!
# Execution on buffers

An operation is executed on buffers of the device. The buffers suit an operation if every slot is
bound to an accelerator buffer of its length, and if no buffer that a stage may write is bound twice.
Operands may share a buffer. Then an operation that has been synthesized never fails.
-/

namespace FieldCircuit

def Buffer.Available (buffers : Array Buffer) (positions lengths : List Nat) : Prop :=
  List.Forall₂ (fun position n => ∃ b words, buffers[position]? = some b ∧ b.Carries words ∧
    b.length = n) positions lengths

structure Bindings.Suits (b : Bindings) (op : Operation) (inputs : List FieldType)
    (buffers : Array Buffer) : Prop where
  inputs : Buffer.Available buffers b.inputs (inputs.map FieldType.words)
  outputs : Buffer.Available buffers b.outputs [op.output.words]
  intermediates : Buffer.Available buffers b.intermediates op.intermediates
  distinct : (b.outputs ++ b.intermediates).Nodup
  unshared : ∀ position ∈ b.outputs ++ b.intermediates, position ∉ b.inputs

namespace Bindings.Suits

variable {b : Bindings} {op : Operation} {inputs : List FieldType} {buffers : Array Buffer}

theorem get (h : b.Suits op inputs buffers) {slot : Slot} {n : Nat}
    (hslot : op.slotWords inputs slot = some n) :
    ∃ position buffer words, b.get? slot = some position ∧ buffers[position]? = some buffer ∧
      buffer.Carries words ∧ buffer.length = n := by
  have hget : ∀ {positions lengths : List Nat} {i : Nat},
      Buffer.Available buffers positions lengths → lengths[i]? = some n →
      ∃ position buffer words, positions[i]? = some position ∧ buffers[position]? = some buffer ∧
        buffer.Carries words ∧ buffer.length = n := by
    intro positions lengths i havailable hi
    obtain ⟨position, hposition, buffer, words, hbuffer⟩ := forall₂_getElem?_right havailable hi
    exact ⟨position, buffer, words, hposition, hbuffer⟩
  cases slot with
  | input i => exact hget h.inputs (by rw [List.getElem?_map]; exact hslot)
  | output i => cases i with
    | zero => exact hget h.outputs hslot
    | succ i => cases hslot
  | intermediate i => exact hget h.intermediates hslot

theorem eq_of_get? (hdistinct : (b.outputs ++ b.intermediates).Nodup)
    (hunshared : ∀ position ∈ b.outputs ++ b.intermediates, position ∉ b.inputs)
    (hlength : b.outputs.length = 1) {slot other : Slot} {position : Nat}
    (hslot : b.get? slot = some position) (hother : b.get? other = some position)
    (hin : slot.isInput = false) : slot = other := by
  obtain ⟨-, hintermediates, hdisjoint⟩ := List.nodup_append.1 hdistinct
  have hzero : ∀ i, b.outputs[i]? = some position → i = 0 := by
    intro i hi
    obtain ⟨hlt, -⟩ := List.getElem?_eq_some_iff.1 hi
    omega
  cases slot with
  | input i => cases hin
  | output i =>
      have hmem := List.mem_of_getElem? hslot
      cases other with
      | input j => exact absurd (List.mem_of_getElem? hother) (hunshared _ (by simp [hmem]))
      | output j => rw [hzero i hslot, hzero j hother]
      | intermediate j => exact absurd rfl (hdisjoint _ hmem _ (List.mem_of_getElem? hother))
  | intermediate i =>
      have hmem := List.mem_of_getElem? hslot
      cases other with
      | input j => exact absurd (List.mem_of_getElem? hother) (hunshared _ (by simp [hmem]))
      | output j => exact absurd rfl (hdisjoint _ (List.mem_of_getElem? hother) _ hmem)
      | intermediate j =>
          obtain ⟨hlt, -⟩ := List.getElem?_eq_some_iff.1 hslot
          have hij : i = j := (List.getElem?_inj hlt hintermediates).1 (hslot.trans hother.symm)
          rw [hij]

def words (b : Bindings) (buffers : Array Buffer) (slot : Slot) : Array Float32 :=
  ((buffers[b.position slot]?.map Buffer.toLaunch).bind LaunchBuffer.words).getD #[]

theorem words_eq {slot : Slot} {buffer : Buffer} {w : Array Float32}
    (hat : buffers[b.position slot]? = some buffer) (hcarries : buffer.Carries w) :
    words b buffers slot = w := by
  simp [words, hat, hcarries.toLaunch, LaunchBuffer.ofWords]

theorem holds (h : b.Suits op inputs buffers) :
    b.Holds (op.slotWords inputs) (buffers.map Buffer.toLaunch) (words b buffers) := by
  have hbuffer : ∀ slot n, op.slotWords inputs slot = some n →
      b.get? slot = some (b.position slot) ∧ (words b buffers slot).size = n ∧
        (buffers.map Buffer.toLaunch)[b.position slot]? = some (.ofWords (words b buffers slot)) := by
    intro slot n hslot
    obtain ⟨position, buffer, w, hget, hat, hcarries, hlength⟩ := h.get hslot
    have hposition : b.position slot = position := by rw [Bindings.position, hget, Option.getD_some]
    have hwords : words b buffers slot = w := words_eq (hposition ▸ hat) hcarries
    refine ⟨by rw [hget, hposition], by rw [hwords, hcarries.size, hlength], ?_⟩
    rw [hposition, Array.getElem?_map, hat, hwords, Option.map_some, hcarries.toLaunch]
  refine ⟨fun slot n hslot => (hbuffer slot n hslot).1, fun slot n hslot => (hbuffer slot n hslot).2.2,
    fun slot n hslot => (hbuffer slot n hslot).2.1, ?_⟩
  intro slot n other m hslot hother hin heq
  have hget := (hbuffer slot n hslot).1
  have hget' := (hbuffer other m hother).1
  rw [← heq] at hget'
  have hlength : b.outputs.length = 1 := h.outputs.length_eq
  exact eq_of_get? h.distinct h.unshared hlength hget hget' hin

end Bindings.Suits

/-- A synthesized operation never fails: on accelerator buffers of the lengths that the operands, the
result and the shared words have, of which none that may be written is bound twice, every stage is
granted its buffers and stays inside of them. -/
theorem synthesized_executes {o : Opcode} {inputs : List FieldType} {caps : Capabilities}
    {op : Operation} (hop : Synthesis.synthesize o inputs caps = .ok op)
    (hextents : ∀ t ∈ inputs, ∀ e ∈ t.field.extents, e < signedBound) {b : Bindings}
    {buffers : Array Buffer} (hb : b.Suits op inputs buffers) :
    (op.executeOn b buffers).1 = .ok () := by
  have hsound := Synthesis.synthesize_sound hop hextents
  have hholds := hb.holds
  obtain ⟨σ', hperforms⟩ := hsound.performs .single (σ := Bindings.Suits.words b buffers) hholds.words
  obtain ⟨memory, hexecute, -⟩ := Operation.execute_of_performs hperforms
    hb.intermediates.length_eq hholds
  rw [Operation.executeOn, hexecute]

def Buffer.zeros (words : Nat) : Buffer :=
  ⟨.on .accelerator 1 words .single, .words (Array.replicate words 0.0)⟩

theorem Buffer.carries_zeros (words : Nat) :
    (Buffer.zeros words).Carries (Array.replicate words 0.0) :=
  ⟨_, rfl, by simp [Buffer.zeros, Buffer.length, BufferFormat.on], by
    simp [Buffer.zeros, Buffer.length, BufferFormat.on]⟩

/-- The three passes over a plane of four rows and two columns go through two shared buffers. -/
theorem synthesized_executes_four_by_two : ∃ op : Operation,
    Synthesis.synthesize (.fft .forward) [.fourByTwo] .standard = .ok op ∧
      op.intermediates = [16, 16] ∧
      (op.executeOn ⟨[3], [0], [1, 2]⟩ (Array.replicate 4 (.zeros 16))).1 = .ok () := by
  have htype : Synthesis.Fourier.outputType [.fourByTwo] = .ok .fourByTwo := rfl
  obtain ⟨-, htrans⟩ := Synthesis.Fourier.outputType_eq_ok htype
  obtain ⟨op, hbuild⟩ := htrans.build_exists (by decide) .forward .standard
  have hop : Synthesis.synthesize (.fft .forward) [.fourByTwo] .standard = .ok op :=
    (Synthesis.Fourier.synthesize_fft htype _).trans hbuild
  obtain ⟨houtput, hinter, -⟩ := Synthesis.Fourier.build_eq_ok hbuild
  have havailable : ∀ position < 4, ∃ b words,
      (Array.replicate 4 (Buffer.zeros 16))[position]? = some b ∧ b.Carries words ∧
        b.length = 16 := by
    intro position hlt
    exact ⟨_, _, by simp [hlt], Buffer.carries_zeros 16, rfl⟩
  have hinter' : op.intermediates = [16, 16] := hinter
  have hsuits : Bindings.Suits ⟨[3], [0], [1, 2]⟩ op [.fourByTwo]
      (Array.replicate 4 (Buffer.zeros 16)) :=
    ⟨.cons (havailable 3 (by decide)) .nil, by
      rw [houtput]
      exact .cons (havailable 0 (by decide)) .nil, by
      rw [hinter']
      exact .cons (havailable 1 (by decide)) (.cons (havailable 2 (by decide)) .nil),
      by decide, by decide⟩
  exact ⟨op, hop, hinter', synthesized_executes hop (by decide) hsuits⟩

end FieldCircuit
