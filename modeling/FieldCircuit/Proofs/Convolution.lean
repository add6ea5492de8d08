import FieldCircuit.Proofs.FilterAdjoint
import FieldCircuit.Proofs.Kernel.Acceptance

/-!
# Convolutions

A convolution leaves at every point the weighted sum of the image around the point, where the image is
extended beyond its edges by the border policy. The sum is a left fold from zero in row-major order of
the weights, and no law of arithmetic is used, so that this holds for single precision to the bit.
-/

namespace FieldCircuit

variable {α : Type}

theorem Convolution.exists_point {k : Convolution} {t : FieldType} {mode : AddressingMode}
    {caps : Capabilities} {w : WorkGroup} (hw : Addressing.workGroup? t mode caps = .ok w)
    (hmap : k.map = PointMap.of t mode) {ar : Arithmetic α} {image kernel : Array α}
    {stores : List (Nat × α)} (h : k.stores ar w [image, kernel] = .ok stores) {store : Nat × α}
    (hmem : store ∈ stores) :
    ∃ p, t.layout.Contains p ∧ store.1 = p.row * t.columns + p.column ∧
      k.valueAt ar image kernel p = .ok store.2 := by
  obtain ⟨a, ha, h⟩ := bind_eq_ok_iff.1 h
  obtain ⟨b, hb, hstores⟩ := bind_eq_ok_iff.1 h
  obtain rfl : image = a := Except.ok.inj ha
  obtain rfl : kernel = b := Except.ok.inj hb
  obtain ⟨p, hp, hstore⟩ := forall₂_exists_left (mapM_eq_ok_iff.1 hstores) hmem
  obtain ⟨value, hvalue, hpair⟩ := bind_eq_ok_iff.1 hstore
  rw [hmap] at hp hpair
  rw [← Except.ok.inj hpair]
  refine ⟨p, (PointMap.mem_points hw).1 hp, ?_, hvalue⟩
  change t.layout.pointIndex 0 p.row p.column = _
  rw [Layout.pointIndex, Layout.rowStride, Nat.zero_mul, Nat.zero_add]
  rfl

namespace Synthesis

theorem expectPlanar_of_isPlane {t : FieldType} (h : t.IsPlane) (operation : String) :
    expectPlanar operation t = .ok () := by
  rw [expectPlanar, expectReal, h.real]
  exact if_pos ⟨h.dimensions, h.scalar⟩

namespace Convolution

variable {border : Border} {image kernel t : FieldType} {caps : Capabilities}

theorem outputType_of_isPlane (himage : image.IsPlane) (hkernel : kernel.IsPlane)
    (hodd : kernel.rows % 2 = 1 ∧ kernel.columns % 2 = 1) :
    outputType [image, kernel] = .ok (image.withElement image.element.arithmetic) := by
  change (expectPlanar description image >>= fun _ => expectPlanar description kernel >>= fun _ => _) = _
  rw [expectPlanar_of_isPlane himage, ok_bind, expectPlanar_of_isPlane hkernel, ok_bind, if_pos hodd]
  rfl

theorem words_of_outputType (h : outputType [image, kernel] = .ok t) :
    t.words = image.rows * image.columns := by
  obtain ⟨_, _, heq, himage, -, rfl⟩ := outputType_eq_ok h
  obtain ⟨rfl, -⟩ : image = _ ∧ kernel = _ := by simpa using heq
  rw [FieldType.words_withElement himage.real, himage.words]

theorem IsConvolution.run_eq {s : Stage} (h : IsConvolution s border image kernel t caps)
    (houtput : outputType [image, kernel] = .ok t)
    (hextents : ∀ e ∈ image.field.extents, e < signedBound) (ar : Arithmetic α)
    {x w output : Array α} {intermediates : List (Array α)}
    (haccepts : (Operation.single s t).Accepts [image, kernel] [x, w] output intermediates) :
    ((Operation.single s t).run ar [x, w] [output] intermediates).result = .ok () ∧
      ((Operation.single s t).run ar [x, w] [output] intermediates).outputs =
        [table (image.rows * image.columns) fun i => ar.weightedSum kernel.rows kernel.columns w
          (border.extended image.rows image.columns x) (i / image.columns : Nat)
          (i % image.columns : Nat)] := by
  obtain ⟨_, _, heq, himage, hkernel, ht⟩ := outputType_eq_ok houtput
  obtain ⟨rfl, rfl⟩ : image = _ ∧ kernel = _ := by simpa using heq
  obtain ⟨hx, hw⟩ : x.size = image.words ∧ w.size = kernel.words := by simpa using haccepts.inputs
  rw [himage.words] at hx
  rw [hkernel.words] at hw
  have hlt := image.fromInner_lt (by decide) hextents
  have hwords : (Operation.single s t).output.words = image.rows * image.columns :=
    words_of_outputType houtput
  have hcolumns : t.columns = image.columns := by
    rw [ht]
    rfl
  have hstages : (Operation.single s t).stages = [s] := rfl
  rw [← hwords]
  refine Operation.run_eq_table hstages h.takes (h.total houtput hextents) haccepts
    fun stores hstores store hmem => ?_
  rw [h.program] at hstores
  obtain ⟨p, hp, hposition, hvalue⟩ := Convolution.exists_point h.launch rfl hstores hmem
  rw [Convolution.valueAt_eq_ok image.rows_pos image.columns_pos (hlt 1) (hlt 0) ar hx hw] at hvalue
  have hcolumn : p.column < image.columns := hcolumns ▸ hp.column
  rw [← Except.ok.inj hvalue, hposition, hcolumns, digits_div hcolumn, digits_mod hcolumn]
  rfl

/-- Convolutions of planes whose words have addresses are synthesized on every device. -/
theorem synthesize_exists (border : Border) (himage : image.IsPlane) (hkernel : kernel.IsPlane)
    (hodd : kernel.rows % 2 = 1 ∧ kernel.columns % 2 = 1) (caps : Capabilities)
    (hsmall : ∀ t ∈ [image, kernel], t.words < signedBound) :
    ∃ op, Synthesis.synthesize (.convolve border) [image, kernel] caps = .ok op := by
  rw [synthesize_built rfl]
  exact (shortage border (outputType_of_isPlane himage hkernel hodd) fun _ => hsmall).exists_ok

theorem result_of_synthesize {op : Operation}
    (hop : Synthesis.synthesize (.convolve border) [image, kernel] caps = .ok op) :
    op.output.words = image.rows * image.columns ∧ op.intermediates = [] := by
  rw [synthesize_built rfl] at hop
  obtain ⟨_, _, t, s, heq, houtput, rfl, -⟩ := synthesize_eq_ok hop
  obtain ⟨rfl, rfl⟩ : image = _ ∧ kernel = _ := by simpa using heq
  exact ⟨words_of_outputType houtput, rfl⟩

/-- A convolution that has been synthesized leaves the weighted sums of the extended image. -/
theorem run_eq_weightedSum {op : Operation}
    (hop : Synthesis.synthesize (.convolve border) [image, kernel] caps = .ok op)
    (hextents : ∀ e ∈ image.field.extents, e < signedBound) (ar : Arithmetic α)
    {x w output : Array α} {intermediates : List (Array α)}
    (haccepts : op.Accepts [image, kernel] [x, w] output intermediates) :
    (op.run ar [x, w] [output] intermediates).result = .ok () ∧
      ∃ words, (op.run ar [x, w] [output] intermediates).outputs = [words] ∧
        words.size = image.rows * image.columns ∧
        ∀ r < image.rows, ∀ c < image.columns, words[r * image.columns + c]? =
          some (ar.weightedSum kernel.rows kernel.columns w
            (border.extended image.rows image.columns x) (r : Nat) (c : Nat)) := by
  rw [synthesize_built rfl] at hop
  obtain ⟨_, _, t, s, heq, houtput, rfl, hstage⟩ := synthesize_eq_ok hop
  obtain ⟨rfl, rfl⟩ : image = _ ∧ kernel = _ := by simpa using heq
  obtain ⟨hresult, houtputs⟩ := hstage.run_eq houtput hextents ar haccepts
  refine ⟨hresult, _, houtputs, size_table _ _, fun r hr c hc => ?_⟩
  rw [getElem?_table (lt_mul_of_digits hr hc), digits_div hc, digits_mod hc]

end Convolution

end Synthesis

/-- A convolution of two planes, the second of which has odd extents, is synthesized if their words have
addresses. Whatever position it asks the border policy for, it is told a sample of the image, or that
there is none. It leaves at every point the weighted sum of the image around the point, where the image
is extended as its border policy says, on every device and over any arithmetic; the second plane may be
larger than the first. The extents of the image are signed machine sizes, as those of everything that
has an address are. -/
theorem convolve_eq_weightedSum (border : Border) {image kernel : FieldType}
    (himage : image.IsPlane) (hkernel : kernel.IsPlane)
    (hodd : kernel.rows % 2 = 1 ∧ kernel.columns % 2 = 1)
    (hextents : ∀ e ∈ image.field.extents, e < signedBound) (caps : Capabilities) :
    ((∀ t ∈ [image, kernel], t.words < signedBound) →
      ∃ op, Synthesis.synthesize (.convolve border) [image, kernel] caps = .ok op) ∧
    (∀ position, ∃ r c, border.resolve position image.rows = .ok r ∧ (∀ i ∈ r, i < image.rows) ∧
      border.resolve position image.columns = .ok c ∧ ∀ j ∈ c, j < image.columns) ∧
    ∀ op, Synthesis.synthesize (.convolve border) [image, kernel] caps = .ok op →
      op.output.words = image.rows * image.columns ∧ op.intermediates = [] ∧
      ∀ {α : Type} (ar : Arithmetic α) {x w output : Array α} {intermediates : List (Array α)},
        op.Accepts [image, kernel] [x, w] output intermediates →
        (op.run ar [x, w] [output] intermediates).result = .ok () ∧
          (∃ ext, border.Extends image.rows image.columns x ext) ∧
          ∃ words, (op.run ar [x, w] [output] intermediates).outputs = [words] ∧
            words.size = image.rows * image.columns ∧
            ∀ ext, border.Extends image.rows image.columns x ext →
              ∀ r < image.rows, ∀ c < image.columns, words[r * image.columns + c]? =
                some (ar.weightedSum kernel.rows kernel.columns w ext (r : Nat) (c : Nat)) := by
  have hlt := image.fromInner_lt (by decide) hextents
  refine ⟨Synthesis.Convolution.synthesize_exists border himage hkernel hodd caps, fun position => ?_,
    fun op hop => ?_⟩
  · exact ⟨_, _, border.resolve_eq_place position image.rows_pos (hlt 1),
      Border.place_lt image.rows_pos position,
      border.resolve_eq_place position image.columns_pos (hlt 0),
      Border.place_lt image.columns_pos position⟩
  · obtain ⟨houtput, hinter⟩ := Synthesis.Convolution.result_of_synthesize hop
    refine ⟨houtput, hinter, ?_⟩
    intro α ar x w output intermediates haccepts
    obtain ⟨hresult, words, houtputs, hsize, hwords⟩ :=
      Synthesis.Convolution.run_eq_weightedSum hop hextents ar haccepts
    refine ⟨hresult, ⟨_, border.extends_extended image.rows_pos image.columns_pos x⟩, words, houtputs,
      hsize, fun ext hext => ?_⟩
    rw [hext.eq_extended image.rows_pos image.columns_pos]
    exact hwords

/-- The first of six points, with a plane of weights that is larger than the image. -/
theorem convolve_eq_weightedSum_clamp : ∃ (op : Operation) (words : Array ℤ),
    Synthesis.synthesize (.convolve .clamp) [.twoByThree, .threeByThree] ⟨4096, 8, 1, 65536⟩ =
        .ok op ∧
      (op.run .integers [#[1, 2, 3, 4, 5, 6], #[1, 0, 2, 0, 3, 0, 4, 0, 5]] [Array.replicate 6 0]
        []).outputs = [words] ∧
      words[0]? = some (1 * 5 + 2 * 4 + 3 * 1 + 4 * 2 + 5 * 1) := by
  have himage : FieldType.twoByThree.IsPlane := ⟨rfl, rfl, rfl⟩
  have hkernel : FieldType.threeByThree.IsPlane := ⟨rfl, rfl, rfl⟩
  obtain ⟨hexists, -, hsynthesized⟩ := convolve_eq_weightedSum .clamp himage hkernel ⟨rfl, rfl⟩
    (by decide) ⟨4096, 8, 1, 65536⟩
  obtain ⟨op, hop⟩ := hexists (by decide)
  obtain ⟨houtput, hinter, hrun⟩ := hsynthesized op hop
  have haccepts : op.Accepts [.twoByThree, .threeByThree]
      [#[(1 : ℤ), 2, 3, 4, 5, 6], #[1, 0, 2, 0, 3, 0, 4, 0, 5]] (Array.replicate 6 0) [] :=
    ⟨rfl, by rw [houtput]; rfl, by rw [hinter]; rfl⟩
  obtain ⟨-, -, words, houtputs, -, hwords⟩ := hrun .integers haccepts
  have hext := Border.clamp.extends_extended (by decide : 0 < 2) (by decide : 0 < 3)
    #[(1 : ℤ), 2, 3, 4, 5, 6]
  exact ⟨op, words, hop, houtputs, hwords _ hext 0 (by decide) 0 (by decide)⟩

end FieldCircuit
