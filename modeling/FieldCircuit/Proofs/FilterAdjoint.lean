import FieldCircuit.Proofs.Kernel.Correlation
import FieldCircuit.Proofs.Kernel.PartialResults

/-!
# Filter adjoints

Over a commutative ring the kernels of a filter adjoint compute a correlation: the tiled stage leaves
one row of partial sums per workgroup, and the rows of all workgroups, which the finishing stage adds
up if there are several, make up the sum over all points.
-/

namespace FieldCircuit

namespace Synthesis.Correlation

variable {α : Type}

theorem IsTiled.run_eq_ok {s : Stage} {p : TilePlan} {image gradient : FieldType}
    (h : IsTiled s p image gradient) (hp : p.Regular) (ar : Arithmetic α) {x y output : Array α}
    (hx : x.size = p.rows * p.columns) (hy : y.size = p.rows * p.columns)
    (houtput : output.size = p.groups * p.outputs) :
    s.program.run ar s.workgroup [x, y] output = .ok (table (p.groups * p.outputs) fun n =>
      Correlation.groupWord ar p x y (n / p.outputs) (n % p.outputs)) := by
  have houtput' : output.size = s.workgroup.groupCount * p.outputs := by
    rw [h.groupCount, houtput]
  have hrun := Correlation.run_eq_ok (k := ⟨p⟩) hp.toTiled ar hx hy houtput'
  rw [h.program, hrun, h.groupCount]

variable [CommRing α] {ar : Arithmetic α}

/-- The kernels of a filter adjoint leave, for every shift, the sum over the workgroups. -/
theorem Kernels.performs {p : TilePlan} {image gradient : FieldType} {op : Operation}
    (h : Kernels p image gradient op.stages op.intermediates) (hp : p.Regular) (har : ar.IsRing)
    (himage : image.words = p.rows * p.columns) (hgradient : gradient.words = p.rows * p.columns)
    (houtput : op.output.words = p.outputs) {σ : Slot → Array α}
    (hσ : Sized (op.slotWords [image, gradient]) σ) :
    ∃ σ', Performs ar (op.slotWords [image, gradient]) op.stages σ σ' ∧
      σ' (.output 0) = table p.outputs fun i => ∑ g ∈ Finset.range p.groups,
        Correlation.groupWord ar p (σ (.input 0)) (σ (.input 1)) g i := by
  have hx : (σ (.input 0)).size = p.rows * p.columns := (hσ (.input 0) _ rfl).trans himage
  have hy : (σ (.input 1)).size = p.rows * p.columns := (hσ (.input 1) _ rfl).trans hgradient
  obtain ⟨tiled, isTiled, hrows⟩ := h
  exact hrows.performs har.add har.zero houtput hσ isTiled.takes fun output houtput =>
    isTiled.run_eq_ok hp ar hx hy houtput

open Finset in
/-- The operation that is built for a filter adjoint leaves the correlation of the image with the
gradient. -/
theorem run_eq_correlation (har : ar.IsRing) {size : Nat} {image gradient t : FieldType}
    {caps : Capabilities} {op : Operation} (hcaps : 2 ≤ caps.maxWorkgroup) (hodd : size % 2 = 1)
    (himage : image.words = image.rows * image.columns)
    (hgradient : gradient.words = image.rows * image.columns) (ht : t.words = size * size)
    (hbuild : build size image gradient t caps = .ok op)
    {x y output : Array α} {intermediates : List (Array α)}
    (haccepts : op.Accepts [image, gradient] [x, y] output intermediates) :
    (op.run ar [x, y] [output] intermediates).result = .ok () ∧
      ∃ words, (op.run ar [x, y] [output] intermediates).outputs = [words] ∧
        words.size = size * size ∧
        ∀ u < size, ∀ v < size, words[u * size + v]? =
          some (∑ r ∈ range image.rows, ∑ c ∈ range image.columns,
            Correlation.planeWord 0 image.rows image.columns x
              ((r : Int) + u - (size / 2 : Nat)) ((c : Int) + v - (size / 2 : Nat)) *
            y.getD (r * image.columns + c) 0) := by
  obtain ⟨p, ⟨hp, hrows, hcolumns, hsize⟩, hlevels, houtput, hkernels⟩ := build_eq_ok hodd hbuild
  have houtputs : p.outputs = size * size := by rw [TilePlan.outputs, hsize]
  have hσ : Sized (op.slotWords [image, gradient])
      (Operation.slots [x, y] output intermediates) := haccepts.holds.words
  obtain ⟨σ', hperforms, hwords⟩ := hkernels.performs hp har
    (by rw [himage, hrows, hcolumns]) (by rw [hgradient, hrows, hcolumns])
    (by rw [houtput, ht, houtputs]) hσ
  obtain ⟨hresult, houtputs'⟩ := Operation.run_of_performs haccepts hperforms
  refine ⟨hresult, _, houtputs', by rw [hwords, size_table, houtputs], ?_⟩
  intro u hu v hv
  have hlt : u * size + v < p.outputs := by
    rw [houtputs]
    exact lt_mul_of_digits hu hv
  rw [hwords, getElem?_table hlt, Correlation.sum_groupWord har hp (hlevels hcaps), hrows, hcolumns]
  congr 1
  refine sum_congr rfl fun r hr => sum_congr rfl fun c hc => ?_
  have hr' := mem_range.1 hr
  have hc' := mem_range.1 hc
  have hy : Correlation.planeWord 0 image.rows image.columns y r c =
      y.getD (r * image.columns + c) 0 := by
    rw [Correlation.planeWord, if_pos (by omega)]
    rfl
  rw [Correlation.term, hsize, digits_div hv, digits_mod hv, TilePlan.half, hsize, hrows, hcolumns]
  exact congrArg₂ (· * ·) rfl hy

end Synthesis.Correlation

open Finset in
/-- A filter adjoint that has been synthesized computes the correlation of the image with the gradient:
over a commutative ring, and on a device whose workgroups may have two threads, its execution leaves
at every shift the sum over all points of the shifted image times the gradient, the image being zero
outside of its extents. -/
theorem filterAdjoint_eq_correlation {α : Type} [CommRing α] {ar : Arithmetic α} (har : ar.IsRing)
    {size : Nat} {image gradient : FieldType} {caps : Capabilities} {op : Operation}
    (hcaps : 2 ≤ caps.maxWorkgroup)
    (hop : Synthesis.synthesize (.filterAdjoint size) [image, gradient] caps = .ok op)
    {x y output : Array α} {intermediates : List (Array α)}
    (haccepts : op.Accepts [image, gradient] [x, y] output intermediates) :
    (op.run ar [x, y] [output] intermediates).result = .ok () ∧
      ∃ words, (op.run ar [x, y] [output] intermediates).outputs = [words] ∧
        words.size = size * size ∧
        ∀ u < size, ∀ v < size, words[u * size + v]? =
          some (∑ r ∈ range image.rows, ∑ c ∈ range image.columns,
            Correlation.planeWord 0 image.rows image.columns x
              ((r : Int) + u - (size / 2 : Nat)) ((c : Int) + v - (size / 2 : Nat)) *
            y.getD (r * image.columns + c) 0) := by
  obtain ⟨_, _, t, heq, hodd, hiwords, hgwords, htwords, hbuild⟩ :=
    Synthesis.synthesize_filterAdjoint hop
  obtain ⟨rfl, rfl⟩ : image = _ ∧ gradient = _ := by simpa using heq
  exact Synthesis.Correlation.run_eq_correlation har hcaps hodd hiwords hgwords htwords hbuild
    haccepts

/-- The arithmetic of the integers; what has no counterpart among them is zero. -/
def Arithmetic.integers : Arithmetic ℤ where
  zero := 0
  one := 1
  half := 0
  lowest := 0
  undefined := 0
  literal _ := 0
  neg x := -x
  abs x := |x|
  exp _ := 0
  log _ := 0
  sqrt _ := 0
  sin _ := 0
  cos _ := 0
  tanh _ := 0
  add x y := x + y
  sub x y := x - y
  mul x y := x * y
  div x y := x / y
  max x y := x ⊔ y
  min x y := x ⊓ y
  twiddle _ _ _ := (0, 0)

/-- Two rows of three columns in a tile of eight threads, which sticks out. -/
theorem filterAdjoint_eq_correlation_two_by_three : ∃ (op : Operation) (words : Array ℤ),
    Synthesis.synthesize (.filterAdjoint 3) [.twoByThree, .twoByThree] ⟨4096, 8, 1, 65536⟩ = .ok op ∧
      (op.run .integers [#[1, 2, 3, 4, 5, 6], #[1, 0, 2, 0, 3, 0]] [Array.replicate 9 0] []).outputs =
        [words] ∧
      words[0 * 3 + 1]? = some (∑ r ∈ Finset.range 2, ∑ c ∈ Finset.range 3,
        Correlation.planeWord 0 2 3 #[1, 2, 3, 4, 5, 6] ((r : Int) + 0 - 1) ((c : Int) + 1 - 1) *
          #[1, 0, 2, 0, 3, 0].getD (r * 3 + c) 0) := by
  have hring : Arithmetic.integers.IsRing := ⟨rfl, fun _ _ => rfl, fun _ _ => rfl⟩
  obtain ⟨op, hop, houtput, hinter⟩ : ∃ op : Operation,
      Synthesis.synthesize (.filterAdjoint 3) [.twoByThree, .twoByThree] ⟨4096, 8, 1, 65536⟩ =
        .ok op ∧ op.output.words = 9 ∧ op.intermediates = [] := ⟨_, rfl, rfl, rfl⟩
  have haccepts : op.Accepts [.twoByThree, .twoByThree] [#[1, 2, 3, 4, 5, 6], #[1, 0, 2, 0, 3, 0]]
      (Array.replicate 9 (0 : ℤ)) [] := ⟨rfl, by rw [houtput]; rfl, by rw [hinter]; rfl⟩
  obtain ⟨-, words, houtputs, -, hwords⟩ :=
    filterAdjoint_eq_correlation hring (by decide) hop haccepts
  exact ⟨op, words, hop, houtputs, hwords 0 (by decide) 1 (by decide)⟩

end FieldCircuit
