import FieldCircuit.Proofs.Kernel.Evaluation
import FieldCircuit.Proofs.Kernel.Execution

/-!
# Stale memory

Buffers keep their words between executions: an output is never cleared, and the shared buffers of an
operation hold what an earlier execution has left there. Two executions of a synthesized operation
that agree on the words of the operands leave the same words in the output, bit by bit and without any
law of the arithmetic, and leave the operands as they were.
-/

namespace FieldCircuit

namespace Bindings.Suits

variable {b : Bindings} {op : Operation} {inputs : List FieldType} {buffers : Array Buffer}

/-- Memory that can hold the operands holds no extent beyond the signed machine sizes. -/
theorem extent_lt (h : b.Suits op inputs buffers)
    (hmemory : ∀ buffer ∈ buffers, buffer.contents.size < sizeBound) {t : FieldType}
    (ht : t ∈ inputs) {e : Nat} (he : e ∈ t.field.extents) : e < signedBound := by
  obtain ⟨i, hi⟩ := List.getElem?_of_mem ht
  have hslot : op.slotWords inputs (.input i) = some t.words := by simp [Operation.slotWords, hi]
  obtain ⟨position, buffer, words, -, hat, hcarries, hlength⟩ := h.get hslot
  have hsize := hmemory buffer (Array.mem_of_getElem? hat)
  obtain ⟨data, hdata, hle, -⟩ := hcarries
  rw [hdata, Contents.size] at hsize
  have hextent := FieldType.extent_le_words he
  have hbound : sizeBound = 2 * signedBound := by decide
  omega

/-- The buffers after an execution, if the stages perform: they suit the operation as before, and
their slots have the words that the stages leave. -/
theorem executeOn_eq (h : b.Suits op inputs buffers) {σ' : Slot → Array Float32}
    (hperforms : Performs .single (op.slotWords inputs) op.stages (words b buffers) σ') :
    ∃ after, op.executeOn b buffers = (.ok (), after) ∧ b.Suits op inputs after ∧
      ∀ slot n, op.slotWords inputs slot = some n → words b after slot = σ' slot := by
  have hholds := h.holds
  obtain ⟨memory, hexecute, hheld⟩ :=
    Operation.execute_of_performs hperforms h.intermediates.length_eq hholds
  have hsized := hperforms.sized hholds.words
  obtain ⟨after, hafter, hfilled⟩ := Operation.executeOn_of_execute hexecute
  refine ⟨after, hafter, ?_⟩
  have hslot : ∀ slot n position, op.slotWords inputs slot = some n →
      b.get? slot = some position →
      ∃ buffer, after[position]? = some buffer ∧ buffer.Carries (σ' slot) ∧ buffer.length = n := by
    intro slot n position hn hget
    obtain ⟨_, buffer, w, hget', hat, hcarries, hlength⟩ := h.get hn
    obtain rfl : position = _ := Option.some.inj (hget.symm.trans hget')
    have hposition : b.position slot = position := by rw [Bindings.position, hget, Option.getD_some]
    have hfresh : (σ' slot).size = w.size := by rw [hsized slot n hn, hcarries.size, hlength]
    have hmemory := hheld.buffer slot n hn
    rw [hposition] at hmemory
    obtain ⟨hformat, -⟩ := hcarries.refilled hfresh
    refine ⟨_, ?_, hcarries.afterLaunch hfresh, ?_⟩
    · rw [hfilled, hat, hmemory]
      rfl
    · rw [← hlength, Buffer.length, Buffer.length, hformat]
  have havailable : ∀ {positions lengths : List Nat} (slot : Nat → Slot),
      Buffer.Available buffers positions lengths →
      (∀ i, op.slotWords inputs (slot i) = lengths[i]?) → (∀ i, b.get? (slot i) = positions[i]?) →
      Buffer.Available after positions lengths := by
    intro positions lengths slot hbefore hwords hpositions
    refine forall₂_of_getElem? hbefore.length_eq fun i position n hposition hn => ?_
    obtain ⟨buffer, hat, hcarries, hlength⟩ :=
      hslot (slot i) n position ((hwords i).trans hn) ((hpositions i).trans hposition)
    exact ⟨buffer, _, hat, hcarries, hlength⟩
  refine ⟨⟨?_, ?_, ?_, h.distinct, h.unshared⟩, ?_⟩
  · exact havailable .input h.inputs (fun i => (List.getElem?_map ..).symm) fun i => rfl
  · refine havailable .output h.outputs (fun i => ?_) fun i => rfl
    cases i with
    | zero => rfl
    | succ i => rfl
  · exact havailable .intermediate h.intermediates (fun i => rfl) fun i => rfl
  · intro slot n hn
    obtain ⟨buffer, hat, hcarries, -⟩ := hslot slot n _ hn (hheld.bound slot n hn)
    exact words_eq hat hcarries

end Bindings.Suits

open Bindings.Suits in
/-- The result of a synthesized operation does not depend on stale memory: two executions on buffers
that suit it, bound in any way and with any previous contents of the output and of the shared buffers,
both succeed; if they agree on the words of the operands they leave the same words in the output, and
the operands keep theirs. The blocks of memory are assumed to have less bytes than a machine size. -/
theorem synthesized_output_congr {o : Opcode} {inputs : List FieldType} {caps : Capabilities}
    {op : Operation} (hop : Synthesis.synthesize o inputs caps = .ok op) {b b' : Bindings}
    {buffers buffers' : Array Buffer} (hb : b.Suits op inputs buffers)
    (hb' : b'.Suits op inputs buffers')
    (hmemory : ∀ buffer ∈ buffers, buffer.contents.size < sizeBound)
    (hagree : ∀ i < inputs.length, words b buffers (.input i) = words b' buffers' (.input i)) :
    ∃ after after', op.executeOn b buffers = (.ok (), after) ∧
      op.executeOn b' buffers' = (.ok (), after') ∧
      b.Suits op inputs after ∧ b'.Suits op inputs after' ∧
      words b after (.output 0) = words b' after' (.output 0) ∧
      ∀ i < inputs.length, words b after (.input i) = words b buffers (.input i) ∧
        words b' after' (.input i) = words b' buffers' (.input i) := by
  have hsound := Synthesis.synthesize_sound hop fun t ht e he => hb.extent_lt hmemory ht he
  obtain ⟨σ', τ', hσ, hτ, houtput⟩ :=
    SoundStages.performs_pair hsound .single hb.holds.words hb'.holds.words (by
      rintro slot n hn (hin | hknown)
      · cases slot with
        | input i =>
            refine hagree i ?_
            obtain ⟨t, ht, -⟩ := Option.map_eq_some_iff.1 hn
            exact (List.getElem?_eq_some_iff.1 ht).1
        | output i => cases hin
        | intermediate i => cases hin
      · cases hknown)
  obtain ⟨after, hexecute, hsuits, hwords⟩ := hb.executeOn_eq hσ
  obtain ⟨after', hexecute', hsuits', hwords'⟩ := hb'.executeOn_eq hτ
  refine ⟨after, after', hexecute, hexecute', hsuits, hsuits', ?_, ?_⟩
  · rw [hwords (.output 0) _ rfl, hwords' (.output 0) _ rfl, houtput _ rfl]
  · intro i hi
    have hslot : op.slotWords inputs (.input i) = some inputs[i].words := by
      simp [Operation.slotWords, hi]
    rw [hwords _ _ hslot, hwords' _ _ hslot]
    exact ⟨hσ.input_eq rfl, hτ.input_eq rfl⟩

def Buffer.filled (x : Float32) (words : Nat) : Buffer :=
  ⟨.on .accelerator 1 words .single, .words (Array.replicate words x)⟩

theorem Buffer.carries_filled (x : Float32) (words : Nat) :
    (Buffer.filled x words).Carries (Array.replicate words x) :=
  ⟨_, rfl, by simp [Buffer.filled, Buffer.length, BufferFormat.on], by
    simp [Buffer.filled, Buffer.length, BufferFormat.on]⟩

open Bindings.Suits in
/-- A plane of ones is transformed twice, with zeros and with sevens in the output and in the two
shared buffers. -/
theorem synthesized_output_congr_four_by_two : ∃ (op : Operation) (after after' : Array Buffer),
    Synthesis.synthesize (.fft .forward) [.fourByTwo] .standard = .ok op ∧
      op.intermediates = [16, 16] ∧
      op.executeOn ⟨[0], [1], [2, 3]⟩ #[.filled 1 16, .filled 0 16, .filled 0 16, .filled 0 16] =
        (.ok (), after) ∧
      op.executeOn ⟨[3], [0], [1, 2]⟩ #[.filled 7 16, .filled 7 16, .filled 7 16, .filled 1 16] =
        (.ok (), after') ∧
      words ⟨[0], [1], [2, 3]⟩ after (.output 0) = words ⟨[3], [0], [1, 2]⟩ after' (.output 0) := by
  have htype : Synthesis.Fourier.outputType [.fourByTwo] = .ok .fourByTwo := rfl
  obtain ⟨-, htrans⟩ := Synthesis.Fourier.outputType_eq_ok htype
  obtain ⟨op, hbuild⟩ := htrans.build_exists (by decide) .forward .standard
  have hop : Synthesis.synthesize (.fft .forward) [.fourByTwo] .standard = .ok op :=
    (Synthesis.Fourier.synthesize_fft htype _).trans hbuild
  obtain ⟨houtput, hinter, -⟩ := Synthesis.Fourier.build_eq_ok hbuild
  have hinter' : op.intermediates = [16, 16] := hinter
  have houtput' : op.output.words = 16 := by rw [houtput]; rfl
  have havailable : ∀ {buffers : Array Buffer} (position : Nat) (x : Float32),
      buffers[position]? = some (.filled x 16) →
      ∃ b words, buffers[position]? = some b ∧ b.Carries words ∧ b.length = 16 :=
    fun position x hat => ⟨_, _, hat, Buffer.carries_filled x 16, rfl⟩
  have hsuits : Bindings.Suits ⟨[0], [1], [2, 3]⟩ op [.fourByTwo]
      #[.filled 1 16, .filled 0 16, .filled 0 16, .filled 0 16] :=
    ⟨.cons (havailable 0 1 rfl) .nil, by
      rw [houtput']
      exact .cons (havailable 1 0 rfl) .nil, by
      rw [hinter']
      exact .cons (havailable 2 0 rfl) (.cons (havailable 3 0 rfl) .nil), by decide, by decide⟩
  have hsuits' : Bindings.Suits ⟨[3], [0], [1, 2]⟩ op [.fourByTwo]
      #[.filled 7 16, .filled 7 16, .filled 7 16, .filled 1 16] :=
    ⟨.cons (havailable 3 1 rfl) .nil, by
      rw [houtput']
      exact .cons (havailable 0 7 rfl) .nil, by
      rw [hinter']
      exact .cons (havailable 1 7 rfl) (.cons (havailable 2 7 rfl) .nil), by decide, by decide⟩
  have hmemory : ∀ buffer ∈ #[Buffer.filled 1 16, .filled 0 16, .filled 0 16, .filled 0 16],
      buffer.contents.size < sizeBound := by
    simp [Buffer.filled, Contents.size, sizeBound]
  obtain ⟨after, after', hafter, hafter', -, -, hsame, -⟩ :=
    synthesized_output_congr hop hsuits hsuits' hmemory (by
      intro i hi
      obtain rfl : i = 0 := by simpa using hi
      exact (words_eq rfl (Buffer.carries_filled 1 16)).trans
        (words_eq rfl (Buffer.carries_filled 1 16)).symm)
  exact ⟨op, after, after', hop, hinter', hafter, hafter', hsame⟩

end FieldCircuit
