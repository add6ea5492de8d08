import FieldCircuit.Proofs.Transform
import Mathlib.Algebra.Ring.GeomSum
import Mathlib.RingTheory.RootsOfUnity.Complex

/-!
# Transforming back

A transform in one direction followed by one in the other leaves the samples as they were. The roots of
unity of the two directions are inverse to each other, so along a line the sum over all frequencies
keeps one sample and cancels the others, and the normalization of the inverse transform takes out the
number of samples. Lines along the two axes of a plane are transformed independently.
-/

namespace FieldCircuit

open Finset

namespace Direction

def opposite : Direction → Direction
  | forward => inverse
  | inverse => forward

@[simp] theorem opposite_opposite (d : Direction) : d.opposite.opposite = d := by
  cases d <;> rfl

theorem sign_opposite (d : Direction) : d.opposite.sign = -d.sign := by
  cases d with
  | forward => exact (neg_neg 1).symm
  | inverse => rfl

theorem normalization_opposite_mul (d : Direction) (samples : Nat) :
    d.opposite.normalization samples * d.normalization samples = 1 / samples := by
  cases d with
  | forward => exact mul_one _
  | inverse => exact one_mul _

end Direction

namespace Dft

variable {d : Direction} {n : Nat}

theorem root_eq_pow (n k : Nat) : root d n k = root d n 1 ^ k := by
  induction k with
  | zero => rw [root_zero, pow_zero]
  | succ k ih => rw [root_add, ih, pow_succ]

theorem root_opposite (n k : Nat) : root d.opposite n k = (root d n k)⁻¹ := by
  rw [root, root, ← Complex.exp_neg, Direction.sign_opposite]
  congr 1
  push_cast
  ring

theorem isPrimitiveRoot_root (d : Direction) (hn : 0 < n) : IsPrimitiveRoot (root d n 1) n := by
  have hinverse : IsPrimitiveRoot (root .inverse n 1) n := by
    have hexp := Complex.isPrimitiveRoot_exp n (by omega)
    have hroot : root .inverse n 1 = Complex.exp (2 * Real.pi * Complex.I / n) := by
      rw [root, Direction.sign]
      congr 1
      push_cast
      ring
    rwa [hroot]
  cases d with
  | inverse => exact hinverse
  | forward =>
      have hforward : root .forward n 1 = (root .inverse n 1)⁻¹ := root_opposite (d := .inverse) n 1
      rw [hforward]
      exact hinverse.inv

/-- Over all frequencies the roots of one direction at a sample cancel those of the other direction at
another sample. -/
theorem sum_root_mul_root {k m : Nat} (hk : k < n) (hm : m < n) :
    ∑ j ∈ range n, root d n (j * m) * root d.opposite n (k * j) = if m = k then (n : ℂ) else 0 := by
  have hprimitive := isPrimitiveRoot_root d (n := n) (by omega)
  have hne : root d n 1 ^ k ≠ 0 := pow_ne_zero _ (hprimitive.ne_zero (by omega))
  have hterm : ∀ j, root d n (j * m) * root d.opposite n (k * j) =
      (root d n 1 ^ m / root d n 1 ^ k) ^ j := by
    intro j
    rw [root_opposite, root_eq_pow n (j * m), root_eq_pow n (k * j), ← div_eq_mul_inv, div_pow,
      ← pow_mul, ← pow_mul, Nat.mul_comm j m]
  rw [sum_congr rfl fun j _ => hterm j]
  split
  · rename_i heq
    rw [heq, div_self hne]
    simp
  · rename_i hdistinct
    -- the sum of all powers of a root of unity other than one vanishes
    have hone : root d n 1 ^ m / root d n 1 ^ k ≠ 1 := by
      intro hdiv
      exact hdistinct (hprimitive.pow_inj hm hk ((div_eq_one_iff_eq hne).1 hdiv))
    have hpow : (root d n 1 ^ m / root d n 1 ^ k) ^ n = 1 := by
      rw [div_pow, ← pow_mul, ← pow_mul, Nat.mul_comm m, Nat.mul_comm k, pow_mul, pow_mul,
        hprimitive.pow_eq_one, one_pow, one_pow, div_one]
    have hgeom : (root d n 1 ^ m / root d n 1 ^ k - 1) *
        ∑ j ∈ range n, (root d n 1 ^ m / root d n 1 ^ k) ^ j = 0 := by
      rw [mul_geom_sum, hpow, sub_self]
    exact (mul_eq_zero.1 hgeom).resolve_left (sub_ne_zero.2 hone)

/-- The discrete Fourier transform of a line of `n` samples at the frequency `k`. -/
noncomputable def line (d : Direction) (n : Nat) (x : Nat → ℂ) (k : Nat) : ℂ :=
  d.normalization n * ∑ m ∈ range n, x m * root d n (k * m)

theorem line_congr {x y : Nat → ℂ} (h : ∀ m < n, x m = y m) (k : Nat) :
    line d n x k = line d n y k := by
  rw [line, line]
  congr 1
  exact sum_congr rfl fun m hm => by rw [h m (mem_range.1 hm)]

/-- Transforming a line there and back leaves its samples. -/
theorem line_opposite_line (x : Nat → ℂ) {k : Nat} (hk : k < n) :
    line d.opposite n (line d n x) k = x k := by
  have hn : (n : ℂ) ≠ 0 := Nat.cast_ne_zero.2 (by omega)
  have hfactor : (d.opposite.normalization n : ℂ) * d.normalization n = 1 / n := by
    rw [← Complex.ofReal_mul, d.normalization_opposite_mul]
    push_cast
    rfl
  calc line d.opposite n (line d n x) k
      = (d.opposite.normalization n : ℂ) * d.normalization n * ∑ j ∈ range n, ∑ m ∈ range n,
          x m * (root d n (j * m) * root d.opposite n (k * j)) := by
        rw [line, mul_assoc, mul_sum (range n) _ (d.normalization n : ℂ)]
        congr 1
        refine sum_congr rfl fun j _ => ?_
        rw [line, mul_assoc, sum_mul]
        congr 1
        exact sum_congr rfl fun m _ => mul_assoc _ _ _
    _ = 1 / n * ∑ m ∈ range n, x m * if m = k then (n : ℂ) else 0 := by
        rw [hfactor, sum_comm]
        congr 1
        refine sum_congr rfl fun m hm => ?_
        rw [← mul_sum, sum_root_mul_root hk (mem_range.1 hm)]
    _ = x k := by
        simp only [mul_ite, mul_zero, sum_ite_eq', mem_range, hk, if_true]
        rw [one_div, mul_comm (x k), inv_mul_cancel_left₀ hn]

/-- Lines along one axis and lines along the other are transformed in either order. -/
theorem line_comm (d d' : Direction) (rows columns : Nat) (x : Nat → Nat → ℂ) (r c : Nat) :
    line d columns (fun c => line d' rows (fun r => x r c) r) c =
      line d' rows (fun r => line d columns (x r) c) r := by
  simp only [line, mul_sum, sum_mul]
  rw [sum_comm]
  refine sum_congr rfl fun i _ => sum_congr rfl fun j _ => ?_
  ring

theorem plane_eq_line (rows columns : Nat) (x : Nat → Nat → ℂ) (kr kc : Nat) :
    plane d rows columns x kr kc = line d rows (fun r => line d columns (x r) kc) kr := by
  rw [plane_eq, line, Direction.normalization_mul, Complex.ofReal_mul, mul_assoc]
  congr 1
  rw [mul_sum]
  exact sum_congr rfl fun r _ => by rw [line, mul_assoc]

theorem plane_congr {rows columns : Nat} {x y : Nat → Nat → ℂ}
    (h : ∀ r < rows, ∀ c < columns, x r c = y r c) (kr kc : Nat) :
    plane d rows columns x kr kc = plane d rows columns y kr kc := by
  rw [plane_eq_line, plane_eq_line]
  exact line_congr (fun r hr => line_congr (h r hr) kc) kr

/-- Transforming a plane there and back leaves its samples. -/
theorem plane_opposite_plane {rows columns : Nat} (x : Nat → Nat → ℂ) {r c : Nat} (hr : r < rows)
    (hc : c < columns) : plane d.opposite rows columns (plane d rows columns x) r c = x r c := by
  calc plane d.opposite rows columns (plane d rows columns x) r c
      = line d.opposite rows (fun i => line d.opposite columns
          (fun j => line d rows (fun i => line d columns (x i) j) i) c) r := by
        rw [plane_eq_line]
        exact line_congr (fun i _ => line_congr (fun j _ => plane_eq_line rows columns x i j) c) r
    _ = line d.opposite rows (line d rows fun i =>
          line d.opposite columns (line d columns (x i)) c) r := by
        exact line_congr (fun i _ => line_comm d.opposite d rows columns _ i c) r
    _ = line d.opposite columns (line d columns (x r)) c := line_opposite_line _ hr
    _ = x r c := line_opposite_line _ hc

end Dft

theorem eq_of_planarAt_eq {rows columns : Nat} {a b : Array ℝ} (ha : a.size = 2 * (rows * columns))
    (hb : b.size = 2 * (rows * columns))
    (h : ∀ r < rows, ∀ c < columns, planarAt rows columns a r c = planarAt rows columns b r c) :
    a = b := by
  have hpoint : ∀ i < rows * columns, a.getD i 0 = b.getD i 0 ∧
      a.getD (rows * columns + i) 0 = b.getD (rows * columns + i) 0 := by
    intro i hi
    have hcolumns : 0 < columns := Nat.pos_of_lt_mul_left hi
    have hplace := h (i / columns) (Nat.div_lt_of_lt_mul (by rwa [Nat.mul_comm])) (i % columns)
      (Nat.mod_lt _ hcolumns)
    rw [planarAt, planarAt, Nat.mul_comm (i / columns), Nat.div_add_mod] at hplace
    exact ⟨congrArg Complex.re hplace, congrArg Complex.im hplace⟩
  refine Array.ext (ha.trans hb.symm) fun i hia hib => ?_
  have hword : a.getD i 0 = b.getD i 0 := by
    by_cases hi : i < rows * columns
    · exact (hpoint i hi).1
    · have himag := (hpoint (i - rows * columns) (by omega)).2
      rwa [Nat.add_sub_cancel' (by omega)] at himag
  simpa [Array.getD, hia, hib] using hword

/-- Every transform of an accepted type whose words fit a machine size and the transform in the opposite
direction are synthesized on any two devices, and over the exact reals executing the second one on what
the first one has left gives the operand back. -/
theorem fft_opposite_fft {ar : Arithmetic ℝ} (har : ar.IsExact) {t t' : FieldType}
    (ht : Synthesis.Fourier.outputType [t] = .ok t') (hwords : t.words < sizeBound)
    (direction : Direction) (caps caps' : Capabilities) :
    ∃ op op', Synthesis.synthesize (.fft direction) [t] caps = .ok op ∧
      Synthesis.synthesize (.fft direction.opposite) [t] caps' = .ok op' ∧
      ∀ (x output : Array ℝ) (intermediates : List (Array ℝ)),
        op.Accepts [t] [x] output intermediates →
        (op.run ar [x] [output] intermediates).result = .ok () ∧
          ∃ y, (op.run ar [x] [output] intermediates).outputs = [y] ∧ y.size = t.words ∧
            ∀ (output' : Array ℝ) (intermediates' : List (Array ℝ)),
              op'.Accepts [t] [y] output' intermediates' →
              (op'.run ar [y] [output'] intermediates').result = .ok () ∧
                (op'.run ar [y] [output'] intermediates').outputs = [x] := by
  obtain ⟨heq, htrans⟩ := Synthesis.Fourier.outputType_eq_ok ht
  obtain rfl : t = t' := by simpa using heq
  obtain ⟨op, hop⟩ := htrans.build_exists hwords direction caps
  obtain ⟨op', hop'⟩ := htrans.build_exists hwords direction.opposite caps'
  refine ⟨op, op', by rw [Synthesis.Fourier.synthesize_fft ht, hop],
    by rw [Synthesis.Fourier.synthesize_fft ht, hop'], ?_⟩
  intro x output intermediates haccepts
  obtain ⟨hresult, y, houtputs, hsize, hplane⟩ :=
    Synthesis.Fourier.run_eq_plane har htrans hop haccepts
  refine ⟨hresult, y, houtputs, hsize, ?_⟩
  intro output' intermediates' haccepts'
  obtain ⟨hresult', z, houtputs', hsize', hplane'⟩ :=
    Synthesis.Fourier.run_eq_plane har htrans hop' haccepts'
  have hx : x.size = t.words := by simpa using haccepts.inputs
  have hback : z = x := eq_of_planarAt_eq (hsize'.trans htrans.words) (hx.trans htrans.words)
    fun r hr c hc => by
      rw [hplane' r hr c hc, Dft.plane_congr hplane, Dft.plane_opposite_plane _ hr hc]
  rw [hback] at houtputs'
  exact ⟨hresult', houtputs'⟩

/-- A plane of four rows and two columns comes back when it is transformed on one device and
transformed back on another. -/
theorem fft_opposite_fft_four_by_two : ∃ (op op' : Operation) (output output' y : Array ℝ)
    (intermediates intermediates' : List (Array ℝ)),
    Synthesis.synthesize (.fft .forward) [.fourByTwo] .standard = .ok op ∧
      Synthesis.synthesize (.fft .inverse) [.fourByTwo] ⟨4096, 8, 1, 65536⟩ = .ok op' ∧
      op.Accepts [.fourByTwo] [table 16 fun i => (i : ℝ)] output intermediates ∧
      (op.run .reals [table 16 fun i => (i : ℝ)] [output] intermediates).outputs = [y] ∧
      op'.Accepts [.fourByTwo] [y] output' intermediates' ∧
      (op'.run .reals [y] [output'] intermediates').outputs = [table 16 fun i => (i : ℝ)] := by
  obtain ⟨op, op', hop, hop', hrun⟩ := fft_opposite_fft (t := .fourByTwo) Arithmetic.isExact_reals rfl
    (by decide) .forward .standard ⟨4096, 8, 1, 65536⟩
  have haccepts : op.Accepts [.fourByTwo] [table 16 fun i => (i : ℝ)]
      (table op.output.words fun _ => 0) (op.intermediates.map fun n => table n fun _ => 0) :=
    ⟨by simp; rfl, by simp, by simp [Function.comp_def]⟩
  obtain ⟨-, y, houtputs, hsize, hback⟩ := hrun _ _ _ haccepts
  have haccepts' : op'.Accepts [.fourByTwo] [y] (table op'.output.words fun _ => 0)
      (op'.intermediates.map fun n => table n fun _ => 0) :=
    ⟨by simp [hsize], by simp, by simp [Function.comp_def]⟩
  exact ⟨op, op', _, _, y, _, _, hop, hop', haccepts, houtputs, haccepts',
    (hback _ _ haccepts').2⟩

end FieldCircuit
