import FieldCircuit.Proofs.FieldReduction
import FieldCircuit.Proofs.Kernel.Acceptance

/-!
# Sums of tensors

The word that a sum of tensors leaves at a point is the left fold over the tensor elements of the point,
in their order and from zero. No law of addition is used, so that this holds for single precision to the
bit. Operand and result have one field, so that a point has the same position in the planes of both.
-/

namespace FieldCircuit

variable {α : Type}

namespace TensorSum

/-- The tensor elements of the `p`-th point, added to zero one after the other. -/
def ordered (ar : Arithmetic α) (points elements : Nat) (input : Array α) (p : Nat) : α :=
  (List.range elements).foldl (fun sum e => ar.add sum (input.getD (e * points + p) ar.zero)) ar.zero

theorem eq_ordered_of_sumAt {ar : Arithmetic α} {k : TensorSum} {input : Array α} {p : Point} {sum : α}
    (h : k.sumAt ar input p = .ok sum) :
    sum = ordered ar k.input.points k.input.elements input (k.input.at p) := by
  refine eq_foldl_of_foldlM_eq_ok h fun acc e _ acc' hstep => ?_
  obtain ⟨x, hx, hacc⟩ := bind_eq_ok_iff.1 hstep
  rw [← Except.ok.inj hacc, eq_getD_of_fetch hx ar.zero, Layout.elementAt_eq]

theorem snd_of_mem_stores {ar : Arithmetic α} {k : TensorSum} {w : WorkGroup} {x : Array α}
    {stores : List (Nat × α)} (hat : ∀ p, k.output.at p = k.input.at p)
    (h : k.stores ar w [x] = .ok stores) {store : Nat × α} (hmem : store ∈ stores) :
    store.2 = ordered ar k.input.points k.input.elements x store.1 := by
  obtain ⟨input, hinput, hstores⟩ := bind_eq_ok_iff.1 h
  obtain rfl : x = input := Except.ok.inj hinput
  obtain ⟨p, -, hp⟩ := forall₂_exists_left (mapM_eq_ok_iff.1 hstores) hmem
  obtain ⟨sum, hsum, hstore⟩ := bind_eq_ok_iff.1 hp
  rw [← Except.ok.inj hstore, hat]
  exact eq_ordered_of_sumAt hsum

end TensorSum

namespace Addressing

theorem eq_of_isSmall? {t : FieldType} {b : Bool} (h : isSmall? t = .ok b) : b = isSmall t := by
  obtain ⟨n, hn, hb⟩ := bind_eq_ok_iff.1 h
  rw [← Except.ok.inj hb, (checked_eq_ok_iff.1 hn).2]
  rfl

/-- Where the result has a single element per point, the tensor of the operand decides on the mode. -/
theorem mode_of_select {input output : FieldType} {caps : Capabilities} {mode : AddressingMode}
    {w : WorkGroup} (h : select .perPoint [input] output caps = .ok (mode, w))
    (houtput : output.elements = 1) :
    mode = if isSmall input then .smallTensor else .bigTensor := by
  unfold select at h
  split at h
  · cases h
  · simp only [bind_eq_ok_iff, liftFault_eq_ok_iff] at h
    obtain ⟨m, hm, _, -, hpair⟩ := h
    obtain ⟨rfl, -⟩ := Prod.mk.inj (Except.ok.inj hpair)
    obtain ⟨small, hsmall, hm⟩ := bind_eq_ok_iff.1 hm
    obtain rfl : small = true := by
      rw [eq_of_isSmall? hsmall, isSmall, houtput]
      rfl
    obtain ⟨all, hall, hm⟩ := bind_eq_ok_iff.1 hm
    obtain rfl : all = isSmall input := by
      obtain ⟨b, hb, hrest⟩ := bind_eq_ok_iff.1 hall
      rw [← eq_of_isSmall? hb]
      cases b <;> exact (Except.ok.inj hrest).symm
    exact (Except.ok.inj hm).symm

end Addressing

namespace Synthesis.TensorSum

theorem outputType_exists {t : FieldType} (hreal : t.element.isComplex = false) :
    ∃ output, outputType [t] = .ok output := by
  have hof : FieldType.of t.field .point t.element.arithmetic =
      .ok ⟨t.field, .point, t.element.arithmetic, t.field_le, by decide, t.field_pos, by decide⟩ := by
    rw [FieldType.of, dif_pos t.field_le, dif_pos (by decide), dif_pos t.field_pos,
      dif_pos (by decide)]
  have hexpect : expectReal description t = .ok () := by
    rw [expectReal, hreal]
    rfl
  exact ⟨_, bind_eq_ok_iff.2 ⟨(), rfl, bind_eq_ok_iff.2 ⟨t, rfl, bind_eq_ok_iff.2 ⟨(), hexpect,
    liftField_eq_ok_iff.2 hof⟩⟩⟩⟩

theorem IsSum.run_eq {s : Stage} {input output : FieldType} {caps : Capabilities}
    (h : IsSum s input output caps) (houtput : outputType [input] = .ok output) (ar : Arithmetic α)
    {x words : Array α} {intermediates : List (Array α)}
    (haccepts : (Operation.single s output).Accepts [input] [x] words intermediates) :
    ((Operation.single s output).run ar [x] [words] intermediates).result = .ok () ∧
      ((Operation.single s output).run ar [x] [words] intermediates).outputs =
        [table output.words (TensorSum.ordered ar input.points input.elements x)] := by
  obtain ⟨_, heq, -, hfield, -⟩ := outputType_eq_ok houtput
  obtain rfl : input = _ := by simpa using heq
  have hat : ∀ p, output.layout.at p = input.layout.at p := by
    intro p
    rw [Layout.at_eq, Layout.at_eq]
    simp only [FieldType.layout, FieldType.rows, FieldType.columns, hfield]
  have hstages : (Operation.single s output).stages = [s] := rfl
  refine Operation.run_eq_table hstages h.takes (h.total houtput) haccepts
    fun stores hstores store hmem => ?_
  rw [h.program] at hstores
  rw [← input.layout_points]
  exact TensorSum.snd_of_mem_stores hat hstores hmem

end Synthesis.TensorSum

/-- The sum of tensors is synthesized for every field of numbers whose words have addresses, for one
item per tensor or for a loop over it, depending on the size of the tensors. Either way it leaves at
every point the ordered sum of the tensor elements of the point, on every device and over any
arithmetic. -/
theorem tensorReduce_eq_ordered {t : FieldType} (hreal : t.element.isComplex = false)
    (caps : Capabilities) :
    (t.words < signedBound → ∃ op, Synthesis.synthesize .tensorReduce [t] caps = .ok op) ∧
    ∀ op, Synthesis.synthesize .tensorReduce [t] caps = .ok op →
      op.output.words = t.points ∧ op.intermediates = [] ∧
      op.stages.map Stage.mode =
        [if Addressing.isSmall t then .smallTensor else .bigTensor] ∧
      ∀ {α : Type} (ar : Arithmetic α) {x output : Array α} {intermediates : List (Array α)},
        op.Accepts [t] [x] output intermediates →
        (op.run ar [x] [output] intermediates).result = .ok () ∧
          ∃ words, (op.run ar [x] [output] intermediates).outputs = [words] ∧
            words.size = t.points ∧
            ∀ p < t.points, words[p]? = some ((List.range t.elements).foldl
              (fun sum e => ar.add sum (x.getD (e * t.points + p) ar.zero)) ar.zero) := by
  obtain ⟨output, houtput⟩ := Synthesis.TensorSum.outputType_exists hreal
  rw [Synthesis.synthesize_built rfl]
  refine ⟨fun hsmall => ?_, fun op hop => ?_⟩
  · exact (Synthesis.TensorSum.shortage houtput fun _ => by simpa using hsmall).exists_ok
  · obtain ⟨_, result, s, hinputs, houtput', rfl, hsum⟩ := Synthesis.TensorSum.synthesize_eq_ok hop
    obtain rfl : t = _ := by simpa using hinputs
    obtain rfl : output = result := Except.ok.inj (houtput.symm.trans houtput')
    have helements : output.elements = 1 := by
      obtain ⟨_, -, -, -, htensor, -⟩ := Synthesis.TensorSum.outputType_eq_ok houtput
      rw [FieldType.elements, htensor]
      rfl
    have hwords := Synthesis.TensorSum.words_of_outputType houtput
    refine ⟨hwords, rfl, congrArg (fun m => [m]) (Addressing.mode_of_select hsum.select helements), ?_⟩
    intro α ar x words intermediates haccepts
    obtain ⟨hresult, houtputs⟩ := hsum.run_eq houtput ar haccepts
    refine ⟨hresult, _, houtputs, ?_, fun p hp => ?_⟩
    · rw [size_table, hwords]
    · rw [getElem?_table (hwords ▸ hp)]
      rfl

/-- The fourth of five vectors of two numbers. -/
theorem tensorReduce_eq_ordered_five_vectors : ∃ (op : Operation) (words : Array ℤ),
    Synthesis.synthesize .tensorReduce [.fiveVectors] ⟨4096, 2, 1, 65536⟩ = .ok op ∧
      (op.run .integers [#[1, 2, 3, 4, 5, 10, 20, 30, 40, 50]] [Array.replicate 5 7] []).outputs =
        [words] ∧
      words[3]? = some (0 + 4 + 40) := by
  obtain ⟨hexists, hsynthesized⟩ :=
    tensorReduce_eq_ordered (t := .fiveVectors) rfl ⟨4096, 2, 1, 65536⟩
  obtain ⟨op, hop⟩ := hexists (by decide)
  obtain ⟨houtput, hinter, -, hrun⟩ := hsynthesized op hop
  have haccepts : op.Accepts [.fiveVectors] [#[(1 : ℤ), 2, 3, 4, 5, 10, 20, 30, 40, 50]]
      (Array.replicate 5 7) [] := ⟨rfl, by rw [houtput]; rfl, by rw [hinter]; rfl⟩
  obtain ⟨-, words, houtputs, -, hwords⟩ := hrun .integers haccepts
  exact ⟨op, words, hop, houtputs, hwords 3 (by decide)⟩

end FieldCircuit
