import FieldCircuit.Proofs.Convolution

/-!
# Cyclic shifts

A convolution with a cyclic border treats all points of an image alike, those at the edges included:
moving the image round before the convolution is moving the result round. The products are added in the
same order at every point, so that no law of arithmetic is needed for this.
-/

namespace FieldCircuit

variable {α : Type} {rows columns : Nat}

/-- An image whose samples are moved on by `a` rows and `b` columns, and from its ends to its beginnings. -/
def cyclicShift (rows columns : Nat) (a b : Int) (x : Array α) : Array α :=
  x.mapIdx fun i sample => x.getD
    ((((i / columns : Nat) - a) % rows).toNat * columns + (((i % columns : Nat) - b) % columns).toNat)
    sample

@[simp] theorem size_cyclicShift (a b : Int) (x : Array α) :
    (cyclicShift rows columns a b x).size = x.size := by
  simp [cyclicShift]

theorem getElem?_cyclicShift {x : Array α} (hx : x.size = rows * columns) (a b : Int) {r c : Nat}
    (hr : r < rows) (hc : c < columns) :
    (cyclicShift rows columns a b x)[r * columns + c]? =
      Border.cyclic.extended rows columns x (r - a) (c - b) := by
  have hlt : r * columns + c < x.size := by
    rw [hx]
    exact lt_mul_of_digits hr hc
  have hrow := @Border.place_lt .cyclic rows (by omega) (r - a) _ rfl
  have hcolumn := @Border.place_lt .cyclic columns (by omega) (c - b) _ rfl
  have hread := lt_mul_of_digits hrow hcolumn
  rw [← hx] at hread
  rw [cyclicShift, Array.getElem?_mapIdx, Array.getElem?_eq_getElem hlt, Option.map_some,
    digits_div hc, digits_mod hc, Border.extended, Border.place, Option.bind_some, Border.place,
    Option.bind_some, Array.getElem?_eq_getElem hread, Array.getD, dif_pos hread]
  rfl

example : cyclicShift 2 3 1 (-2) #[1, 2, 3, 4, 5, 6] = #[6, 4, 5, 3, 1, 2] := by decide

theorem image_ext {x y : Array α} (hx : x.size = rows * columns) (hy : y.size = rows * columns)
    (h : ∀ r < rows, ∀ c < columns, x[r * columns + c]? = y[r * columns + c]?) : x = y := by
  apply Array.ext_getElem?
  intro i
  by_cases hi : i < rows * columns
  · have hcolumns : 0 < columns := Nat.pos_of_ne_zero fun hzero => by simp [hzero] at hi
    rw [← Nat.div_add_mod' i columns]
    exact h _ (Nat.div_lt_of_lt_mul (by rwa [Nat.mul_comm])) _ (Nat.mod_lt i hcolumns)
  · rw [Array.getElem?_eq_none (by omega), Array.getElem?_eq_none (by omega)]

theorem Border.continues_cyclic {n : Nat} {f : Int → Option α} :
    Border.cyclic.Continues n f ↔ Function.Periodic f n := Iff.rfl

theorem Border.Extends.cyclicShift {x : Array α} {f : Int → Int → Option α}
    (h : Border.cyclic.Extends rows columns x f) (hrows : 0 < rows) (hcolumns : 0 < columns)
    (hx : x.size = rows * columns) (a b : Int) :
    Border.cyclic.Extends rows columns (cyclicShift rows columns a b x) fun r c =>
      f (r - a) (c - b) where
  samples r hr c hc := by
    rw [getElem?_cyclicShift hx a b hr hc, h.eq_extended hrows hcolumns]
  alongRows c := continues_cyclic.2 ((continues_cyclic.1 (h.alongRows (c - b))).sub_const a)
  alongColumns r := continues_cyclic.2 ((continues_cyclic.1 (h.alongColumns (r - a))).sub_const b)

namespace Arithmetic

variable {ar : Arithmetic α} {m n : Nat} {w : Array α}

/-- Images that look the same around two positions have the same weighted sums there. -/
theorem weightedSum_congr {f g : Int → Int → Option α} {r c r' c' : Int}
    (h : ∀ i j, f (r + i) (c + j) = g (r' + i) (c' + j)) :
    ar.weightedSum m n w f r c = ar.weightedSum m n w g r' c' := by
  simp only [weightedSum, add_sub_assoc, h]

theorem extends_weightedSum {x words : Array α} {f : Int → Int → Option α}
    (h : Border.cyclic.Extends rows columns x f)
    (hwords : ∀ r < rows, ∀ c < columns,
      words[r * columns + c]? = some (ar.weightedSum m n w f (r : Nat) (c : Nat))) :
    Border.cyclic.Extends rows columns words fun r c => some (ar.weightedSum m n w f r c) where
  samples r hr c hc := (hwords r hr c hc).symm
  alongRows c r := by
    refine congrArg some (weightedSum_congr fun i j => ?_)
    rw [add_right_comm]
    exact h.alongRows (c + j) (r + i)
  alongColumns r c := by
    refine congrArg some (weightedSum_congr fun i j => ?_)
    rw [add_right_comm]
    exact h.alongColumns (r + i) (c + j)

/-- The weighted sums of a shifted image are the shifted weighted sums of the image. -/
theorem eq_cyclicShift_of_weightedSum {x words words' : Array α} (hrows : 0 < rows)
    (hcolumns : 0 < columns) (hx : x.size = rows * columns) (a b : Int)
    (hsize : words.size = rows * columns) (hsize' : words'.size = rows * columns)
    (hwords : ∀ r < rows, ∀ c < columns, words[r * columns + c]? =
      some (ar.weightedSum m n w (Border.cyclic.extended rows columns x) (r : Nat) (c : Nat)))
    (hwords' : ∀ r < rows, ∀ c < columns, words'[r * columns + c]? =
      some (ar.weightedSum m n w
        (Border.cyclic.extended rows columns (cyclicShift rows columns a b x)) (r : Nat) (c : Nat))) :
    words' = cyclicShift rows columns a b words := by
  have hperiodic := Border.cyclic.extends_extended hrows hcolumns x
  have hsums := (extends_weightedSum hperiodic hwords).eq_extended hrows hcolumns
  have hshifted := (hperiodic.cyclicShift hrows hcolumns hx a b).eq_extended hrows hcolumns
  refine image_ext hsize' ((size_cyclicShift a b words).trans hsize) fun r hr c hc => ?_
  rw [hwords' r hr c hc, getElem?_cyclicShift hsize a b hr hc, ← hsums, ← hshifted]
  refine congrArg some (weightedSum_congr fun i j => ?_)
  rw [add_sub_right_comm, add_sub_right_comm]

end Arithmetic

/-- A convolution with a cyclic border commutes with cyclic shifts: on any two devices on which it is
synthesized, and it is if the words of its operands have addresses, it leaves for an image that has been
shifted what it leaves for the image, shifted likewise. This holds over any arithmetic and for shifts by
any integers. The extents of the image are signed machine sizes, as those of everything that has an
address are. -/
theorem convolve_cyclicShift {image kernel : FieldType} (himage : image.IsPlane)
    (hkernel : kernel.IsPlane) (hodd : kernel.rows % 2 = 1 ∧ kernel.columns % 2 = 1)
    (hextents : ∀ e ∈ image.field.extents, e < signedBound) (caps caps' : Capabilities) :
    ((∀ t ∈ [image, kernel], t.words < signedBound) →
      ∃ op op', Synthesis.synthesize (.convolve .cyclic) [image, kernel] caps = .ok op ∧
        Synthesis.synthesize (.convolve .cyclic) [image, kernel] caps' = .ok op') ∧
    ∀ op op', Synthesis.synthesize (.convolve .cyclic) [image, kernel] caps = .ok op →
      Synthesis.synthesize (.convolve .cyclic) [image, kernel] caps' = .ok op' →
      ∀ {α : Type} (ar : Arithmetic α) (a b : Int) {x w output output' : Array α}
        {intermediates intermediates' : List (Array α)},
        op.Accepts [image, kernel] [x, w] output intermediates →
        op'.Accepts [image, kernel] [cyclicShift image.rows image.columns a b x, w] output'
          intermediates' →
        (op.run ar [x, w] [output] intermediates).result = .ok () ∧
          (op'.run ar [cyclicShift image.rows image.columns a b x, w] [output']
            intermediates').result = .ok () ∧
          ∃ words, (op.run ar [x, w] [output] intermediates).outputs = [words] ∧
            (op'.run ar [cyclicShift image.rows image.columns a b x, w] [output']
              intermediates').outputs = [cyclicShift image.rows image.columns a b words] := by
  refine ⟨fun hsmall => ?_, ?_⟩
  · obtain ⟨op, hop⟩ :=
      Synthesis.Convolution.synthesize_exists .cyclic himage hkernel hodd caps hsmall
    obtain ⟨op', hop'⟩ :=
      Synthesis.Convolution.synthesize_exists .cyclic himage hkernel hodd caps' hsmall
    exact ⟨op, op', hop, hop'⟩
  · intro op op' hop hop' α ar a b x w output output' intermediates intermediates' haccepts haccepts'
    obtain ⟨hresult, words, houtputs, hsize, hwords⟩ :=
      Synthesis.Convolution.run_eq_weightedSum hop hextents ar haccepts
    obtain ⟨hresult', words', houtputs', hsize', hwords'⟩ :=
      Synthesis.Convolution.run_eq_weightedSum hop' hextents ar haccepts'
    have hx : x.size = image.rows * image.columns := by
      rw [← himage.words]
      exact (List.cons.inj haccepts.inputs).1
    have hshift : words' = cyclicShift image.rows image.columns a b words :=
      Arithmetic.eq_cyclicShift_of_weightedSum image.rows_pos image.columns_pos hx a b hsize hsize'
        hwords hwords'
    exact ⟨hresult, hresult', words, houtputs, hshift ▸ houtputs'⟩

/-- Two rows of three samples, moved by one row down and two columns to the left. -/
theorem convolve_cyclicShift_two_by_three : ∃ (op op' : Operation) (words : Array ℤ),
    Synthesis.synthesize (.convolve .cyclic) [.twoByThree, .threeByThree] ⟨4096, 8, 1, 65536⟩ =
        .ok op ∧
      Synthesis.synthesize (.convolve .cyclic) [.twoByThree, .threeByThree] ⟨4096, 1, 1, 65536⟩ =
        .ok op' ∧
      (op.run .integers [#[1, 2, 3, 4, 5, 6], #[1, 0, 2, 0, 3, 0, 4, 0, 5]] [Array.replicate 6 0]
        []).outputs = [words] ∧
      (op'.run .integers [cyclicShift 2 3 1 (-2) #[1, 2, 3, 4, 5, 6], #[1, 0, 2, 0, 3, 0, 4, 0, 5]]
        [Array.replicate 6 0] []).outputs = [cyclicShift 2 3 1 (-2) words] := by
  have himage : FieldType.twoByThree.IsPlane := ⟨rfl, rfl, rfl⟩
  have hkernel : FieldType.threeByThree.IsPlane := ⟨rfl, rfl, rfl⟩
  obtain ⟨hexists, hcommutes⟩ := convolve_cyclicShift himage hkernel ⟨rfl, rfl⟩ (by decide)
    ⟨4096, 8, 1, 65536⟩ ⟨4096, 1, 1, 65536⟩
  obtain ⟨op, op', hop, hop'⟩ := hexists (by decide)
  obtain ⟨houtput, hinter⟩ := Synthesis.Convolution.result_of_synthesize hop
  obtain ⟨houtput', hinter'⟩ := Synthesis.Convolution.result_of_synthesize hop'
  have haccepts : op.Accepts [.twoByThree, .threeByThree]
      [#[(1 : ℤ), 2, 3, 4, 5, 6], #[1, 0, 2, 0, 3, 0, 4, 0, 5]] (Array.replicate 6 0) [] :=
    ⟨rfl, by rw [houtput]; rfl, by rw [hinter]; rfl⟩
  have haccepts' : op'.Accepts [.twoByThree, .threeByThree]
      [cyclicShift 2 3 1 (-2) #[(1 : ℤ), 2, 3, 4, 5, 6], #[1, 0, 2, 0, 3, 0, 4, 0, 5]]
      (Array.replicate 6 0) [] :=
    ⟨by simpa using haccepts.inputs, by rw [houtput']; rfl, by rw [hinter']; rfl⟩
  obtain ⟨-, -, words, houtputs, houtputs'⟩ :=
    hcommutes op op' hop hop' .integers 1 (-2) haccepts haccepts'
  exact ⟨op, op', words, hop, hop', houtputs, houtputs'⟩

end FieldCircuit
