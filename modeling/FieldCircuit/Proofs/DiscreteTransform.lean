import FieldCircuit.Arithmetic
import FieldCircuit.Opcode.Basic
import FieldCircuit.Proofs.Table
import Mathlib.Analysis.SpecialFunctions.Log.Basic
import Mathlib.Analysis.SpecialFunctions.Trigonometric.Basic

/-!
# Discrete Fourier transforms

The mathematics of a self-sorting transform of a power of two, apart from any memory. `partialDft` is
what the samples mean once transforms of length `span` have been put together: at position
`q * span + k` stands frequency `k` of the samples `q`, `q + n / span`, `q + 2 * (n / span)` and so on.
One butterfly makes a value of twice the span out of two of a span.
-/

namespace FieldCircuit

open Finset

def Direction.sign : Direction → ℝ
  | forward => -1
  | inverse => 1

noncomputable def Direction.factor : Direction → ℝ
  | forward => 1
  | inverse => 1 / 2

noncomputable def Direction.normalization : Direction → Nat → ℝ
  | forward, _ => 1
  | inverse, samples => 1 / samples

/-- Halving in every pass divides by the number of samples. -/
theorem Direction.factor_pow (d : Direction) (m : Nat) : d.factor ^ m = d.normalization (2 ^ m) := by
  cases d with
  | forward => simp [factor, normalization]
  | inverse => simp [factor, normalization]

theorem Direction.normalization_mul (d : Direction) (m n : Nat) :
    d.normalization (m * n) = d.normalization m * d.normalization n := by
  cases d with
  | forward => simp [normalization]
  | inverse => simp [normalization, mul_comm]

namespace Dft

/-- The `k`-th power of the primitive `n`-th root of unity of a direction. -/
noncomputable def root (d : Direction) (n k : Nat) : ℂ :=
  Complex.exp ((d.sign * (2 * Real.pi * k / n) : ℝ) * Complex.I)

variable {d : Direction}

theorem root_add (n j k : Nat) : root d n (j + k) = root d n j * root d n k := by
  rw [root, root, root, ← Complex.exp_add]
  congr 1
  push_cast
  ring

theorem root_zero (n : Nat) : root d n 0 = 1 := by
  simp [root]

theorem root_mul_mul {n k c : Nat} (hc : 0 < c) : root d (n * c) (k * c) = root d n k := by
  have hc' : (c : ℝ) ≠ 0 := Nat.cast_ne_zero.2 (by omega)
  rw [root, root]
  congr 3
  push_cast
  rw [← mul_assoc, mul_div_mul_right _ _ hc']

theorem root_self {n : Nat} (hn : 0 < n) : root d n n = 1 := by
  have hn' : (n : ℝ) ≠ 0 := Nat.cast_ne_zero.2 (by omega)
  have hangle : d.sign * (2 * Real.pi * n / n) = d.sign * (2 * Real.pi) := by
    rw [mul_div_assoc, div_self hn', mul_one]
  have hone : Complex.exp ((2 * Real.pi : ℝ) * Complex.I) = 1 := by
    rw [Complex.ofReal_mul, Complex.ofReal_ofNat]
    exact Complex.exp_two_pi_mul_I
  rw [root, hangle]
  cases d with
  | forward =>
      rw [Direction.sign, neg_one_mul, Complex.ofReal_neg, neg_mul, Complex.exp_neg, hone, inv_one]
  | inverse => rw [Direction.sign, one_mul, hone]

theorem root_mul_self {n : Nat} (hn : 0 < n) (k : Nat) : root d n (n * k) = 1 := by
  induction k with
  | zero => exact root_zero n
  | succ k ih => rw [Nat.mul_succ, root_add, ih, root_self hn, one_mul]

/-- Powers of a root of unity depend on the exponent up to multiples of the order. -/
theorem root_mod {n : Nat} (hn : 0 < n) (k m : Nat) : root d n (k % n * m) = root d n (k * m) := by
  conv_rhs => rw [← Nat.div_add_mod k n, Nat.add_mul, Nat.mul_assoc, root_add, root_mul_self hn,
    one_mul]

theorem root_half {n : Nat} (hn : 0 < n) : root d (2 * n) n = -1 := by
  have hn' : (n : ℝ) ≠ 0 := Nat.cast_ne_zero.2 (by omega)
  have hangle : d.sign * (2 * Real.pi * n / (2 * n : Nat)) = d.sign * Real.pi := by
    push_cast
    field_simp
  rw [root, hangle]
  cases d with
  | forward =>
      rw [Direction.sign, neg_one_mul, Complex.ofReal_neg, neg_mul, Complex.exp_neg,
        Complex.exp_pi_mul_I, inv_neg, inv_one]
  | inverse => rw [Direction.sign, one_mul, Complex.exp_pi_mul_I]

/-- What position `i` means after transforms of length `span` have been put together. -/
noncomputable def partialDft (d : Direction) (n span : Nat) (x : Nat → ℂ) (i : Nat) : ℂ :=
  ∑ m ∈ range span, x (i / span + n / span * m) * root d span (i % span * m)

theorem partialDft_one (n : Nat) (x : Nat → ℂ) (i : Nat) : partialDft d n 1 x i = x i := by
  simp [partialDft, Nat.mod_one, root_zero]

theorem partialDft_self {n : Nat} (x : Nat → ℂ) {i : Nat} (hi : i < n) :
    partialDft d n n x i = ∑ m ∈ range n, x m * root d n (i * m) := by
  rw [partialDft, Nat.div_eq_of_lt hi, Nat.mod_eq_of_lt hi, Nat.div_self (by omega)]
  simp only [Nat.zero_add, Nat.one_mul]

theorem sum_range_two_mul (f : Nat → ℂ) (n : Nat) :
    ∑ m ∈ range (2 * n), f m = ∑ m ∈ range n, f (2 * m) + ∑ m ∈ range n, f (2 * m + 1) := by
  rw [Nat.mul_comm, ← sum_range_mul f n 2, ← sum_add_distrib]
  apply sum_congr rfl
  intro m _
  rw [sum_range_succ, sum_range_one, Nat.add_zero, Nat.mul_comm]

/-- One butterfly: position `i` of twice the span is put together from positions of the span that stand
half the length apart. -/
theorem partialDft_double {n span : Nat} (hspan : 0 < span) (hn : n = n / (2 * span) * (2 * span))
    (x : Nat → ℂ) (i : Nat) :
    partialDft d n (2 * span) x i =
      partialDft d n span x (i / (2 * span) * span + i % span) +
        root d (2 * span) (i % (2 * span)) *
          partialDft d n span x (i / (2 * span) * span + i % span + n / 2) := by
  generalize hq : n / (2 * span) = count at hn
  have hmod : i % span < span := Nat.mod_lt _ hspan
  have hdouble : n / span = 2 * count := by
    rw [hn, show count * (2 * span) = 2 * count * span by ring, Nat.mul_div_cancel _ hspan]
  have hhalf : n / 2 = count * span := by
    rw [hn, show count * (2 * span) = count * span * 2 by ring, Nat.mul_div_cancel _ (by decide)]
  have hfirst : (i / (2 * span) * span + i % span) / span = i / (2 * span) := by
    rw [Nat.mul_comm, Nat.mul_add_div hspan, Nat.div_eq_of_lt hmod, Nat.add_zero]
  have hfirst' : (i / (2 * span) * span + i % span) % span = i % span := by
    rw [Nat.mul_add_mod_self_right, Nat.mod_eq_of_lt hmod]
  have hsecond : (i / (2 * span) * span + i % span + n / 2) / span = i / (2 * span) + count := by
    rw [hhalf, Nat.add_mul_div_right _ _ hspan, hfirst]
  have hsecond' : (i / (2 * span) * span + i % span + n / 2) % span = i % span := by
    rw [hhalf, Nat.add_mul_mod_self_right, hfirst']
  -- even samples have the frequency of the span, odd ones are turned once more
  have hroot : ∀ m, root d (2 * span) (i % (2 * span) * (2 * m)) = root d span (i % span * m) := by
    intro m
    rw [root_mod hspan, root_mod (by omega), show i * (2 * m) = i * m * 2 by ring, Nat.mul_comm 2 span,
      root_mul_mul (by decide)]
  rw [partialDft, sum_range_two_mul, partialDft, partialDft, hfirst, hfirst', hsecond, hsecond',
    hdouble, hq, mul_sum]
  congr 1
  · apply sum_congr rfl
    intro m _
    rw [hroot, show count * (2 * m) = 2 * count * m by ring]
  · apply sum_congr rfl
    intro m _
    rw [show i % (2 * span) * (2 * m + 1) = i % (2 * span) * (2 * m) + i % (2 * span) by ring,
      root_add, hroot,
      show i / (2 * span) + count * (2 * m + 1) = i / (2 * span) + count + 2 * count * m by ring]
    ring

/-- The discrete Fourier transform of a plane of `rows` by `columns` samples, at the frequency `kr` along
the columns and `kc` along the rows. -/
noncomputable def plane (d : Direction) (rows columns : Nat) (x : Nat → Nat → ℂ) (kr kc : Nat) : ℂ :=
  d.normalization (rows * columns) * ∑ r ∈ range rows, ∑ c ∈ range columns, x r c *
    Complex.exp (d.sign * (2 * Real.pi * Complex.I * (kr * r / rows + kc * c / columns)))

/-- Transforming the rows and then the columns transforms the plane. -/
theorem plane_eq (rows columns : Nat) (x : Nat → Nat → ℂ) (kr kc : Nat) :
    plane d rows columns x kr kc = d.normalization (rows * columns) *
      ∑ r ∈ range rows, (∑ c ∈ range columns, x r c * root d columns (kc * c)) *
        root d rows (kr * r) := by
  rw [plane]
  congr 1
  apply sum_congr rfl
  intro r _
  rw [sum_mul]
  apply sum_congr rfl
  intro c _
  rw [mul_assoc (x r c), root, root, ← Complex.exp_add]
  congr 2
  push_cast
  ring

end Dft

/-- The arithmetic of the real numbers; what has no counterpart among them is zero. -/
noncomputable def Arithmetic.reals : Arithmetic ℝ where
  zero := 0
  one := 1
  half := 1 / 2
  lowest := 0
  undefined := 0
  literal _ := 0
  neg x := -x
  abs x := |x|
  exp := Real.exp
  log := Real.log
  sqrt := Real.sqrt
  sin := Real.sin
  cos := Real.cos
  tanh := Real.tanh
  add x y := x + y
  sub x y := x - y
  mul x y := x * y
  div x y := x / y
  max x y := x ⊔ y
  min x y := x ⊓ y
  twiddle d n k :=
    (Real.cos (d.sign * (2 * Real.pi * k / n)), Real.sin (d.sign * (2 * Real.pi * k / n)))

end FieldCircuit
