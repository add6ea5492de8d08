import FieldCircuit.Proofs.Convolution

/-!
# Convolutions and filter adjoints

Over a commutative ring a convolution with a zero border adds up, at every point, the products of the
weights with the samples around the point, the image being zero outside of its extents. It is linear in
the weights, and the filter adjoint is its adjoint: pairing the convolution with a gradient is pairing
the weights with the filter adjoint of the image and the gradient, read backwards, since a convolution
turns its weights round and the filter adjoint does not.
-/

namespace FieldCircuit

open Finset

variable {α : Type}

theorem Border.getD_extended_zero [Zero α] (rows columns : Nat) (x : Array α) (r c : Int) :
    (Border.zero.extended rows columns x r c).getD 0 =
      Correlation.planeWord 0 rows columns x r c := by
  rw [extended, place, place, Correlation.planeWord]
  by_cases hr : 0 ≤ r ∧ r < rows
  · by_cases hc : 0 ≤ c ∧ c < columns
    · rw [if_pos hr, if_pos hc, if_pos ⟨hr.1, hr.2, hc⟩, Array.getD_eq_getD_getElem?]
      rfl
    · rw [if_pos hr, if_neg hc, if_neg fun h => hc h.2.2]
      rfl
  · have hout : ¬(0 ≤ r ∧ r < rows ∧ 0 ≤ c ∧ c < columns) := fun h => hr ⟨h.1, h.2.1⟩
    rw [if_neg hr, if_neg hout]
    rfl

theorem foldl_range_add [AddCommMonoid α] (f : Nat → α) (n : Nat) (sum : α) :
    (List.range n).foldl (fun sum i => sum + f i) sum = sum + ∑ i ∈ range n, f i := by
  induction n with
  | zero => simp
  | succ n ih =>
      rw [List.range_succ, List.foldl_append, ih, sum_range_succ, ← add_assoc]
      rfl

/-- Over a ring a weighted sum is a sum of products. -/
theorem Arithmetic.weightedSum_eq_sum [CommRing α] {ar : Arithmetic α} (har : ar.IsRing) (m n : Nat)
    (w : Array α) (f : Int → Int → Option α) (r c : Int) :
    ar.weightedSum m n w f r c = ∑ i ∈ range m, ∑ j ∈ range n, w.getD (i * n + j) 0 *
      (f (r + (m / 2 : Nat) - i) (c + (n / 2 : Nat) - j)).getD 0 := by
  have hstep : ∀ sum weight, ∀ sample : Option α,
      ar.addProduct sum weight sample = sum + weight * sample.getD 0 := by
    rintro sum weight (_ | x)
    · simp [addProduct]
    · rw [addProduct, har.add, har.mul, Option.getD_some]
  simp only [weightedSum, hstep, foldl_range_add, har.zero, zero_add]

section Adjoint

theorem sum_points_comm [AddCommMonoid α] (f : Nat → Nat → Nat → Nat → α) (rows columns m n : Nat) :
    ∑ r ∈ range rows, ∑ c ∈ range columns, ∑ i ∈ range m, ∑ j ∈ range n, f r c i j =
      ∑ i ∈ range m, ∑ j ∈ range n, ∑ r ∈ range rows, ∑ c ∈ range columns, f r c i j := by
  rw [sum_congr rfl fun r _ => sum_comm, sum_comm]
  refine sum_congr rfl fun i _ => ?_
  rw [sum_congr rfl fun r _ => sum_comm, sum_comm]

variable [CommRing α] {ar : Arithmetic α}

/-- A convolution with a zero border that has been synthesized leaves at every point the sum of the
weights times the samples around the point. -/
theorem Synthesis.Convolution.run_zero_eq_sum (har : ar.IsRing) {image kernel : FieldType}
    {caps : Capabilities} {op : Operation}
    (hop : Synthesis.Convolution.synthesize .zero [image, kernel] caps = .ok op)
    (hextents : ∀ e ∈ image.field.extents, e < signedBound) {x w output : Array α}
    {intermediates : List (Array α)}
    (haccepts : op.Accepts [image, kernel] [x, w] output intermediates) :
    (op.run ar [x, w] [output] intermediates).result = .ok () ∧
      ∃ words, (op.run ar [x, w] [output] intermediates).outputs = [words] ∧
        ∀ r < image.rows, ∀ c < image.columns, words[r * image.columns + c]? =
          some (∑ i ∈ range kernel.rows, ∑ j ∈ range kernel.columns,
            w.getD (i * kernel.columns + j) 0 * Correlation.planeWord 0 image.rows image.columns x
              ((r + kernel.rows / 2 : Nat) - (i : Int))
              ((c + kernel.columns / 2 : Nat) - (j : Int))) := by
  obtain ⟨hresult, words, houtputs, -, hwords⟩ :=
    run_eq_weightedSum ((synthesize_built rfl).trans hop) hextents ar haccepts
  refine ⟨hresult, words, houtputs, fun r hr c hc => ?_⟩
  rw [hwords r hr c hc, Arithmetic.weightedSum_eq_sum har]
  simp only [Border.getD_extended_zero, Nat.cast_add]

/-- Over a commutative ring, a filter adjoint is the adjoint of a convolution with a zero border: for
an image, a gradient of its extents and a square filter, and a device on which both operations are
synthesized and whose workgroups may have two threads, both execute, and pairing the convolution with
the gradient is pairing the filter with the filter adjoint, read backwards. The extents of the image are
signed machine sizes, as those of everything that has an address are. -/
theorem convolve_pairing_eq_filterAdjoint_pairing (har : ar.IsRing) {size : Nat}
    {image gradient kernel : FieldType} {caps : Capabilities} {convolution adjoint : Operation}
    (hcaps : 2 ≤ caps.maxWorkgroup)
    (hconvolution : Synthesis.synthesize (.convolve .zero) [image, kernel] caps = .ok convolution)
    (hadjoint : Synthesis.synthesize (.filterAdjoint size) [image, gradient] caps = .ok adjoint)
    (hrows : kernel.rows = size) (hcolumns : kernel.columns = size)
    (hextents : ∀ e ∈ image.field.extents, e < signedBound) {x y w output output' : Array α}
    {intermediates intermediates' : List (Array α)}
    (haccepts : convolution.Accepts [image, kernel] [x, w] output intermediates)
    (haccepts' : adjoint.Accepts [image, gradient] [x, y] output' intermediates') :
    (convolution.run ar [x, w] [output] intermediates).result = .ok () ∧
      (adjoint.run ar [x, y] [output'] intermediates').result = .ok () ∧
      ∃ convolved filtered,
        (convolution.run ar [x, w] [output] intermediates).outputs = [convolved] ∧
        (adjoint.run ar [x, y] [output'] intermediates').outputs = [filtered] ∧
        ∑ r ∈ range image.rows, ∑ c ∈ range image.columns,
            convolved.getD (r * image.columns + c) 0 * y.getD (r * image.columns + c) 0 =
          ∑ i ∈ range size, ∑ j ∈ range size, w.getD (i * size + j) 0 *
            filtered.getD ((size - 1 - i) * size + (size - 1 - j)) 0 := by
  obtain ⟨_, _, t, heq, hodd, hiwords, hgwords, htwords, hbuild⟩ :=
    Synthesis.synthesize_filterAdjoint hadjoint
  obtain ⟨rfl, rfl⟩ : image = _ ∧ gradient = _ := by simpa using heq
  obtain ⟨hresult, convolved, hconvolved, hat⟩ := Synthesis.Convolution.run_zero_eq_sum har
    ((Synthesis.synthesize_built rfl).symm.trans hconvolution) hextents haccepts
  obtain ⟨hresult', filtered, hfiltered, -, hshift⟩ := Synthesis.Correlation.run_eq_correlation har
    hcaps hodd hiwords hgwords htwords hbuild haccepts'
  refine ⟨hresult, hresult', convolved, filtered, hconvolved, hfiltered, ?_⟩
  rw [hrows, hcolumns] at hat
  calc ∑ r ∈ range image.rows, ∑ c ∈ range image.columns,
        convolved.getD (r * image.columns + c) 0 * y.getD (r * image.columns + c) 0
      = ∑ r ∈ range image.rows, ∑ c ∈ range image.columns, ∑ i ∈ range size, ∑ j ∈ range size,
          w.getD (i * size + j) 0 * (Correlation.planeWord 0 image.rows image.columns x
            ((r + size / 2 : Nat) - (i : Int)) ((c + size / 2 : Nat) - (j : Int)) *
              y.getD (r * image.columns + c) 0) := by
        refine sum_congr rfl fun r hr => sum_congr rfl fun c hc => ?_
        rw [Array.getD_eq_getD_getElem?, hat r (mem_range.1 hr) c (mem_range.1 hc), Option.getD_some,
          sum_mul]
        refine sum_congr rfl fun i _ => ?_
        rw [sum_mul]
        exact sum_congr rfl fun j _ => mul_assoc _ _ _
    _ = ∑ i ∈ range size, ∑ j ∈ range size, ∑ r ∈ range image.rows, ∑ c ∈ range image.columns,
          w.getD (i * size + j) 0 * (Correlation.planeWord 0 image.rows image.columns x
            ((r + size / 2 : Nat) - (i : Int)) ((c + size / 2 : Nat) - (j : Int)) *
              y.getD (r * image.columns + c) 0) := sum_points_comm _ _ _ _ _
    _ = ∑ i ∈ range size, ∑ j ∈ range size, w.getD (i * size + j) 0 *
          filtered.getD ((size - 1 - i) * size + (size - 1 - j)) 0 := by
        refine sum_congr rfl fun i hi => sum_congr rfl fun j hj => ?_
        have hi' := mem_range.1 hi
        have hj' := mem_range.1 hj
        have hword := congrArg (Option.getD · 0)
          (hshift (size - 1 - i) (by omega) (size - 1 - j) (by omega))
        rw [← Array.getD_eq_getD_getElem?, Option.getD_some] at hword
        rw [hword, mul_sum]
        refine sum_congr rfl fun r _ => ?_
        rw [mul_sum]
        refine sum_congr rfl fun c _ => ?_
        -- half of an odd size lies in the middle, so reading backwards turns the offset round
        have hr : ((r + size / 2 : Nat) : Int) - i =
            (r : Int) + (size - 1 - i : Nat) - (size / 2 : Nat) := by omega
        have hc : ((c + size / 2 : Nat) : Int) - j =
            (c : Int) + (size - 1 - j : Nat) - (size / 2 : Nat) := by omega
        rw [hr, hc]

end Adjoint

/-- A filter of three by three weights on an image that is smaller than the filter. -/
theorem convolve_pairing_two_by_three : ∃ (convolution adjoint : Operation)
    (convolved filtered : Array ℤ),
    Synthesis.synthesize (.convolve .zero) [.twoByThree, .threeByThree] ⟨4096, 8, 1, 65536⟩ =
        .ok convolution ∧
      Synthesis.synthesize (.filterAdjoint 3) [.twoByThree, .twoByThree] ⟨4096, 8, 1, 65536⟩ =
        .ok adjoint ∧
      (convolution.run .integers [#[1, 2, 3, 4, 5, 6], #[1, 0, 2, 0, 3, 0, 4, 0, 5]]
        [Array.replicate 6 0] []).outputs = [convolved] ∧
      (adjoint.run .integers [#[1, 2, 3, 4, 5, 6], #[1, 0, 2, 0, 3, 0]]
        [Array.replicate 9 0] []).outputs = [filtered] ∧
      ∑ r ∈ range 2, ∑ c ∈ range 3,
          convolved.getD (r * 3 + c) 0 * #[1, 0, 2, 0, 3, 0].getD (r * 3 + c) 0 =
        ∑ i ∈ range 3, ∑ j ∈ range 3, #[1, 0, 2, 0, 3, 0, 4, 0, 5].getD (i * 3 + j) 0 *
          filtered.getD ((3 - 1 - i) * 3 + (3 - 1 - j)) 0 := by
  have hring : Arithmetic.integers.IsRing := ⟨rfl, fun _ _ => rfl, fun _ _ => rfl⟩
  obtain ⟨convolution, hconvolution, houtput, hinter⟩ : ∃ op : Operation,
      Synthesis.synthesize (.convolve .zero) [.twoByThree, .threeByThree] ⟨4096, 8, 1, 65536⟩ =
        .ok op ∧ op.output.words = 6 ∧ op.intermediates = [] := ⟨_, rfl, rfl, rfl⟩
  obtain ⟨adjoint, hadjoint, houtput', hinter'⟩ : ∃ op : Operation,
      Synthesis.synthesize (.filterAdjoint 3) [.twoByThree, .twoByThree] ⟨4096, 8, 1, 65536⟩ =
        .ok op ∧ op.output.words = 9 ∧ op.intermediates = [] := ⟨_, rfl, rfl, rfl⟩
  have haccepts : convolution.Accepts [.twoByThree, .threeByThree]
      [#[1, 2, 3, 4, 5, 6], #[1, 0, 2, 0, 3, 0, 4, 0, 5]] (Array.replicate 6 (0 : ℤ)) [] :=
    ⟨rfl, by rw [houtput]; rfl, by rw [hinter]; rfl⟩
  have haccepts' : adjoint.Accepts [.twoByThree, .twoByThree]
      [#[1, 2, 3, 4, 5, 6], #[1, 0, 2, 0, 3, 0]] (Array.replicate 9 (0 : ℤ)) [] :=
    ⟨rfl, by rw [houtput']; rfl, by rw [hinter']; rfl⟩
  obtain ⟨-, -, convolved, filtered, hconvolved, hfiltered, hpairing⟩ :=
    convolve_pairing_eq_filterAdjoint_pairing hring (by decide) hconvolution hadjoint rfl rfl
      (by decide) haccepts haccepts'
  exact ⟨convolution, adjoint, convolved, filtered, hconvolution, hadjoint, hconvolved, hfiltered,
    hpairing⟩

end FieldCircuit
