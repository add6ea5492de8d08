import FieldCircuit.Proofs.DiscreteTransform
import FieldCircuit.Proofs.Kernel.FourierStages

/-!
# Fourier transforms

Over the exact reals the stages of a transform compute the discrete Fourier transform of a line or a
plane. A pass is one butterfly of `Dft.partialDft` on every line, the passes along an axis are a
transform of every line, and the stages hand the words of one pass to the next through alternating
buffers.
-/

namespace FieldCircuit

open Finset

/-- The words are the real numbers, and twiddle factors lie on the unit circle exactly. -/
structure Arithmetic.IsExact (ar : Arithmetic ℝ) : Prop where
  zero : ar.zero = 0
  one : ar.one = 1
  half : ar.half = 1 / 2
  add : ∀ x y, ar.add x y = x + y
  sub : ∀ x y, ar.sub x y = x - y
  mul : ∀ x y, ar.mul x y = x * y
  twiddle : ∀ (d : Direction) (n k : Nat), ar.twiddle d n k =
    (Real.cos (d.sign * (2 * Real.pi * k / n)), Real.sin (d.sign * (2 * Real.pi * k / n)))

namespace FourierPass

def complexAt (f : FourierPass) (a : Array ℝ) (line i : Nat) : ℂ :=
  ⟨(f.sampleAt 0 a line i).1, (f.sampleAt 0 a line i).2⟩

theorem scale_eq {ar : Arithmetic ℝ} (har : ar.IsExact) (d : Direction) :
    scale ar d = d.factor := by
  cases d with
  | forward => exact har.one
  | inverse => exact har.half

theorem root_eq {ar : Arithmetic ℝ} (har : ar.IsExact) (d : Direction) (n k : Nat) :
    Dft.root d n k = ⟨(ar.twiddle d n k).1, (ar.twiddle d n k).2⟩ := by
  rw [har.twiddle]
  exact Complex.ext (Complex.exp_ofReal_mul_I_re _) (Complex.exp_ofReal_mul_I_im _)

theorem turned_eq {ar : Arithmetic ℝ} (har : ar.IsExact) (f : FourierPass) (a : Array ℝ)
    (line j : Nat) : (⟨(turned ar f a line j).1, (turned ar f a line j).2⟩ : ℂ) =
      Dft.root f.direction f.n (f.twiddleIndex j) * f.complexAt a line (j + f.n / 2) := by
  rw [root_eq har]
  apply Complex.ext
  · simp only [turned, complexAt, har.zero, har.sub, har.mul, Complex.mul_re]
    ring
  · simp only [turned, complexAt, har.zero, har.add, har.mul, Complex.mul_im]
    ring

theorem Regular.root_twiddleIndex {f : FourierPass} (hf : f.Regular) (i : Nat) :
    Dft.root f.direction (2 * f.span) (i % (2 * f.span)) = (if f.isSum i then 1 else -1) *
      Dft.root f.direction f.n (f.twiddleIndex (f.butterflyOf i)) := by
  have hspan := hf.span_pos
  have hmod : i % f.span < f.span := Nat.mod_lt _ hspan
  have hlt : i % (2 * f.span) < 2 * f.span := Nat.mod_lt _ (by omega)
  have hmodmod : i % (2 * f.span) % f.span = i % f.span := Nat.mod_mul_left_mod i 2 f.span
  have hindex : Dft.root f.direction f.n (f.twiddleIndex (f.butterflyOf i)) =
      Dft.root f.direction (2 * f.span) (i % f.span) := by
    have hcount := hf.count_pos
    have hlen : f.n = 2 * f.span * (f.n / (2 * f.span)) := by
      rw [Nat.mul_comm]
      exact hf.length
    rw [twiddleIndex, offset, butterflyOf, digits_mod hmod]
    generalize f.n / (2 * f.span) = count at hcount hlen ⊢
    rw [hlen, Dft.root_mul_mul hcount]
  rw [hindex]
  unfold isSum
  by_cases hsum : i % (2 * f.span) < f.span
  · rw [Nat.mod_eq_of_lt hsum] at hmodmod
    simp only [hsum, decide_true, if_true, one_mul]
    rw [hmodmod]
  · have hsub : i % (2 * f.span) = i % f.span + f.span := by
      have hadd : i % (2 * f.span) % f.span = i % (2 * f.span) - f.span := by
        generalize i % (2 * f.span) = m at *
        rw [Nat.mod_eq_sub_mod (by omega), Nat.mod_eq_of_lt (by omega)]
      omega
    simp only [hsum, decide_false, Bool.false_eq_true, if_false]
    rw [hsub, Dft.root_add, Dft.root_half hspan]
    ring

theorem Maps.complexAt_eq {ar : Arithmetic ℝ} (har : ar.IsExact) {f : FourierPass} (hf : f.Regular)
    {a b : Array ℝ} (h : Maps ar f a b) {line i : Nat} (hline : line < f.lines) (hi : i < f.n) :
    f.complexAt b line i = f.direction.factor * (f.complexAt a line (f.butterflyOf i) +
      Dft.root f.direction (2 * f.span) (i % (2 * f.span)) *
        f.complexAt a line (f.butterflyOf i + f.n / 2)) := by
  have hsample := h.sample line i hline hi
  rw [har.zero] at hsample
  rw [hf.root_twiddleIndex i, mul_assoc, ← turned_eq har, complexAt, hsample, passSample,
    har.zero, scale_eq har]
  apply Complex.ext
  · cases f.isSum i
    · simp [complexAt, har.sub, har.mul]
      ring
    · simp [complexAt, har.add, har.mul]
      ring
  · cases f.isSum i
    · simp [complexAt, har.sub, har.mul]
      ring
    · simp [complexAt, har.add, har.mul]
      ring

/-- The passes along an axis, as far as they have run, have put the transforms of their span together. -/
theorem Transforms.partialDft_eq {ar : Arithmetic ℝ} (har : ar.IsExact) {f : FourierPass} {m : Nat}
    (hregular : ∀ s < m, ({ f with span := 2 ^ s } : FourierPass).Regular) {a : Array ℝ} {s : Nat}
    (hs : s ≤ m) {b : Array ℝ}
    (h : Transforms ar ((List.range s).map fun s => { f with span := 2 ^ s }) a b) {line i : Nat}
    (hline : line < f.lines) (hi : i < f.n) :
    f.complexAt b line i = f.direction.factor ^ s *
      Dft.partialDft f.direction f.n (2 ^ s) (f.complexAt a line) i := by
  induction s generalizing b i with
  | zero =>
      cases h
      rw [pow_zero, pow_zero, Dft.partialDft_one, one_mul]
  | succ s ih =>
      rw [List.range_succ, List.map_append] at h
      obtain ⟨c, hc, hlast⟩ := transforms_append h
      cases hlast with
      | cons first others =>
          cases others
          have hreg := hregular s (by omega)
          have hstep := first.complexAt_eq har hreg hline hi
          have hj := (hreg.target_butterflyOf (i := i) hi).1
          have hhalf := hreg.two_mul_half
          have hfirst := ih (by omega) hc (i := i / (2 * 2 ^ s) * 2 ^ s + i % 2 ^ s)
            (by simp only [butterflyOf] at hj hhalf; omega)
          have hsecond := ih (by omega) hc (i := i / (2 * 2 ^ s) * 2 ^ s + i % 2 ^ s + f.n / 2)
            (by simp only [butterflyOf] at hj hhalf; omega)
          have hdouble := Dft.partialDft_double (d := f.direction) hreg.span_pos hreg.length
            (f.complexAt a line) i
          change f.complexAt b line i = f.direction.factor *
            (f.complexAt c line (i / (2 * 2 ^ s) * 2 ^ s + i % 2 ^ s) +
              Dft.root f.direction (2 * 2 ^ s) (i % (2 * 2 ^ s)) *
                f.complexAt c line (i / (2 * 2 ^ s) * 2 ^ s + i % 2 ^ s + f.n / 2)) at hstep
          rw [hstep, hfirst, hsecond, pow_succ' 2 s]
          change Dft.partialDft f.direction f.n (2 * 2 ^ s) (f.complexAt a line) i = _ at hdouble
          rw [hdouble]
          push_cast
          ring

/-- All passes along an axis transform every line. -/
theorem Transforms.complexAt_eq {ar : Arithmetic ℝ} (har : ar.IsExact) {f : FourierPass} {m : Nat}
    (hn : f.n = 2 ^ m) (hregular : ∀ s < m, ({ f with span := 2 ^ s } : FourierPass).Regular)
    {a b : Array ℝ}
    (h : Transforms ar (alongAxis f.direction f.part f.n f.stride f.lines f.lineStride) a b)
    {line i : Nat} (hline : line < f.lines) (hi : i < f.n) :
    f.complexAt b line i = f.direction.factor ^ m *
      ∑ k ∈ range f.n, f.complexAt a line k * Dft.root f.direction f.n (i * k) := by
  have hpasses : alongAxis f.direction f.part f.n f.stride f.lines f.lineStride =
      (List.range m).map fun s => { f with span := 2 ^ s } := by
    rw [alongAxis, hn, spans_two_pow, List.map_map]
    apply List.map_congr_left
    intro s _
    rw [Function.comp_apply, ← hn]
  rw [hpasses] at h
  rw [Transforms.partialDft_eq har hregular (Nat.le_refl m) h hline hi, ← hn,
    Dft.partialDft_self _ hi]

end FourierPass

/-- The complex number at a point of a plane, whose real parts come before its imaginary parts. -/
def planarAt (rows columns : Nat) (a : Array ℝ) (r c : Nat) : ℂ :=
  ⟨a.getD (r * columns + c) 0, a.getD (rows * columns + (r * columns + c)) 0⟩

namespace Synthesis.Fourier

open FourierPass

variable {ar : Arithmetic ℝ} {t : FieldType} {direction : Direction} {a b : Array ℝ}

theorem Transformable.rows_eq (h : Transformable t) (har : ar.IsExact)
    (hrun : Transforms ar (alongAxis direction t.layout.partStride t.layout.columns 1 t.layout.rows
      t.layout.rowStride) a b) {r k : Nat} (hr : r < t.rows) (hk : k < t.columns) :
    planarAt t.rows t.columns b r k = direction.normalization t.columns *
      ∑ c ∈ range t.columns, planarAt t.rows t.columns a r c * Dft.root direction t.columns (k * c) := by
  obtain ⟨m, hm, hcolumns⟩ := h.columns
  let f : FourierPass := ⟨direction, t.columns, 1, 1, t.rows, t.columns, t.rows * t.columns⟩
  have hview : ∀ (x : Array ℝ) line i, f.complexAt x line i = planarAt t.rows t.columns x line i := by
    intro x line i
    simp only [complexAt, sampleAt, sampleIndex, f, planarAt, Nat.mul_one]
  have hregular : ∀ s < m, ({ f with span := 2 ^ s } : FourierPass).Regular := fun s hs =>
    regular_rows hcolumns rfl hs t.rows_pos rfl rfl rfl
  rw [h.part] at hrun
  have htransform := Transforms.complexAt_eq har (f := f) hcolumns hregular hrun hr hk
  simp only [hview] at htransform
  rw [htransform, ← Complex.ofReal_pow, Direction.factor_pow, ← hcolumns]

theorem Transformable.columns_eq (h : Transformable t) (har : ar.IsExact) {m : Nat}
    (hrows : t.rows = 2 ^ m)
    (hrun : Transforms ar (alongAxis direction t.layout.partStride t.layout.rows t.layout.rowStride
      t.layout.columns 1) a b) {k c : Nat} (hk : k < t.rows) (hc : c < t.columns) :
    planarAt t.rows t.columns b k c = direction.normalization t.rows *
      ∑ r ∈ range t.rows, planarAt t.rows t.columns a r c * Dft.root direction t.rows (k * r) := by
  let f : FourierPass := ⟨direction, t.rows, 1, t.columns, t.columns, 1, t.rows * t.columns⟩
  have hview : ∀ (x : Array ℝ) line i, f.complexAt x line i = planarAt t.rows t.columns x i line := by
    intro x line i
    simp only [complexAt, sampleAt, sampleIndex, f, planarAt, Nat.mul_one, Nat.add_comm line]
  have hregular : ∀ s < m, ({ f with span := 2 ^ s } : FourierPass).Regular := fun s hs =>
    regular_columns hrows rfl hs t.columns_pos rfl rfl rfl
  rw [h.part] at hrun
  have htransform := Transforms.complexAt_eq har (f := f) hrows hregular hrun hc hk
  simp only [hview] at htransform
  rw [htransform, ← Complex.ofReal_pow, Direction.factor_pow, ← hrows]

theorem Transformable.plane_eq (h : Transformable t) (har : ar.IsExact)
    (hrun : Transforms ar (plan t direction) a b) {kr kc : Nat} (hkr : kr < t.rows)
    (hkc : kc < t.columns) :
    planarAt t.rows t.columns b kr kc =
      Dft.plane direction t.rows t.columns (planarAt t.rows t.columns a) kr kc := by
  obtain ⟨c, hfirst, hsecond⟩ := transforms_append hrun
  have hlines : ∀ r < t.rows, planarAt t.rows t.columns c r kc = _ := fun r hr =>
    h.rows_eq har hfirst hr hkc
  have hrows := h.rows
  rw [Dft.plane_eq]
  split at hsecond
  · rename_i hdimensions
    rw [if_pos hdimensions] at hrows
    obtain ⟨m, _, hm⟩ := hrows
    rw [h.columns_eq har hm hsecond hkr hkc, Direction.normalization_mul, Complex.ofReal_mul,
      mul_assoc]
    congr 1
    rw [mul_sum]
    apply sum_congr rfl
    intro r hr
    rw [hlines r (mem_range.1 hr), mul_assoc]
  · rename_i hdimensions
    rw [if_neg hdimensions] at hrows
    cases hsecond
    obtain rfl : kr = 0 := by omega
    rw [hlines 0 hkr, hrows, Nat.one_mul, sum_range_one, Nat.mul_zero, Dft.root_zero, mul_one]

end Synthesis.Fourier

/-- A transform that has been built leaves the discrete Fourier transform of its operand. -/
theorem Synthesis.Fourier.run_eq_plane {ar : Arithmetic ℝ} (har : ar.IsExact) {t : FieldType}
    (ht : Transformable t) {direction : Direction} {caps : Capabilities} {op : Operation}
    (hop : build direction t caps = .ok op) {x output : Array ℝ} {intermediates : List (Array ℝ)}
    (haccepts : op.Accepts [t] [x] output intermediates) :
    (op.run ar [x] [output] intermediates).result = .ok () ∧
      ∃ words, (op.run ar [x] [output] intermediates).outputs = [words] ∧ words.size = t.words ∧
        ∀ kr < t.rows, ∀ kc < t.columns, planarAt t.rows t.columns words kr kc =
          Dft.plane direction t.rows t.columns (planarAt t.rows t.columns x) kr kc := by
  obtain ⟨houtput, hinter, hpasses⟩ := build_eq_ok hop
  have hne := ht.plan_ne_nil direction
  have hlength := List.length_pos_iff.2 hne
  have hσ : Sized (op.slotWords [t]) (Operation.slots [x] output intermediates) :=
    haccepts.holds.words
  obtain ⟨σ', hperforms, htransforms⟩ := performs_from ar hpasses (by omega) hne
    (fun f hf => ht.regular hf) (fun p hp => slotWords_source houtput hinter hp)
    (fun p hp => slotWords_target houtput hinter hp) hσ
  obtain ⟨hresult, houtputs⟩ := Operation.run_of_performs haccepts hperforms
  refine ⟨hresult, _, houtputs, ?_, ?_⟩
  · rw [hperforms.sized hσ (.output 0) _ rfl, houtput]
  · intro kr hkr kc hkc
    exact ht.plane_eq har htransforms hkr hkc

/-- Every transform of an accepted type whose words fit a machine size is synthesized, and over the
exact reals its execution leaves the discrete Fourier transform of the operand in the output: the
plain sum over all points for a forward transform, and the sum with the opposite sign over the number
of points for an inverse one. -/
theorem fft_eq_dft {ar : Arithmetic ℝ} (har : ar.IsExact) {t t' : FieldType}
    (ht : Synthesis.Fourier.outputType [t] = .ok t') (hwords : t.words < sizeBound)
    (direction : Direction) (caps : Capabilities) :
    ∃ op, Synthesis.synthesize (.fft direction) [t] caps = .ok op ∧
      ∀ (x output : Array ℝ) (intermediates : List (Array ℝ)),
        op.Accepts [t] [x] output intermediates →
        (op.run ar [x] [output] intermediates).result = .ok () ∧
          ∃ words, (op.run ar [x] [output] intermediates).outputs = [words] ∧
            words.size = t.words ∧
            ∀ kr < t.rows, ∀ kc < t.columns, planarAt t.rows t.columns words kr kc =
              Dft.plane direction t.rows t.columns (planarAt t.rows t.columns x) kr kc := by
  obtain ⟨heq, htrans⟩ := Synthesis.Fourier.outputType_eq_ok ht
  obtain rfl : t = t' := by simpa using heq
  obtain ⟨op, hop⟩ := htrans.build_exists hwords direction caps
  refine ⟨op, by rw [Synthesis.Fourier.synthesize_fft ht, hop], ?_⟩
  intro x output intermediates haccepts
  exact Synthesis.Fourier.run_eq_plane har htrans hop haccepts

theorem Arithmetic.isExact_reals : Arithmetic.reals.IsExact :=
  ⟨rfl, rfl, rfl, fun _ _ => rfl, fun _ _ => rfl, fun _ _ => rfl, fun _ _ _ => rfl⟩

/-- A plane of four rows and two columns with a single sample is transformed. -/
theorem fft_eq_dft_four_by_two : ∃ (t : FieldType) (op : Operation) (output : Array ℝ)
    (intermediates : List (Array ℝ)) (words : Array ℝ),
    t.rows = 4 ∧ t.columns = 2 ∧ Synthesis.Fourier.outputType [t] = .ok t ∧
      Synthesis.synthesize (.fft .inverse) [t] .standard = .ok op ∧
      op.Accepts [t] [table 16 fun i => if i = 5 then 1 else 0] output intermediates ∧
      (op.run .reals [table 16 fun i => if i = 5 then 1 else 0] [output] intermediates).outputs =
        [words] ∧
      planarAt 4 2 words 3 1 = Dft.plane .inverse 4 2
        (planarAt 4 2 (table 16 fun i => if i = 5 then 1 else 0)) 3 1 := by
  obtain ⟨op, hop, hrun⟩ := fft_eq_dft (t := .fourByTwo) Arithmetic.isExact_reals rfl (by decide) .inverse
    .standard
  have haccepts : op.Accepts [.fourByTwo] [table 16 fun i => if i = 5 then (1 : ℝ) else 0]
      (table op.output.words fun _ => 0) (op.intermediates.map fun n => table n fun _ => 0) :=
    ⟨by simp; rfl, by simp, by simp [Function.comp_def]⟩
  obtain ⟨-, words, houtputs, -, hwords⟩ := hrun _ _ _ haccepts
  exact ⟨.fourByTwo, op, _, _, words, rfl, rfl, rfl, hop, haccepts, houtputs,
    hwords 3 (by decide) 1 (by decide)⟩

end FieldCircuit
