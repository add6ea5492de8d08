import FieldCircuit.Decimal.Shortest
import Mathlib.Algebra.Order.Field.Power
import Mathlib.Algebra.Order.Field.Rat
import Mathlib.Tactic.FieldSimp
import Mathlib.Tactic.Linarith
import Mathlib.Tactic.Positivity
import Mathlib.Tactic.Ring

/-!
# Rounding to single precision

A quotient is rounded to a number of single precision by its leading bit, which decides where the last
place is, and by rounding to a multiple of the last place. Every number of the interval around a number
of single precision rounds to the bits of the latter. Below a power of two the last place is half as
large, but numbers of the interval that lie there are rounded up to the power.
-/

namespace FieldCircuit.Decimal

/-- What rounds to an integer is at most one half away from it, and less if the integer is odd. -/
theorem roundDiv_toEven_eq {num den m : Nat} (hden : 0 < den) (hlo : 2 * m * den ≤ 2 * num + den)
    (hhi : 2 * num ≤ (2 * m + 1) * den)
    (hodd : m % 2 = 1 → 2 * m * den < 2 * num + den ∧ 2 * num < (2 * m + 1) * den) :
    roundDiv .toEven num den = m := by
  have hsplit : num = num / den * den + num % den := (Nat.div_add_mod' num den).symm
  have hr : num % den < den := Nat.mod_lt _ hden
  unfold roundDiv
  generalize num / den = q at *
  generalize num % den = r at *
  subst hsplit
  have hq : q = m ∨ q + 1 = m := by
    rcases Nat.lt_trichotomy q m with hlt | heq | hgt
    · refine .inr (Nat.le_antisymm hlt (Nat.le_of_not_lt fun hfar => ?_))
      have hmul : (q + 2) * den ≤ m * den := Nat.mul_le_mul_right den hfar
      nlinarith
    · exact .inl heq
    · have hmul : (m + 1) * den ≤ q * den := Nat.mul_le_mul_right den hgt
      nlinarith
  rcases hq with rfl | rfl
  · have hhalf : 2 * r ≤ den := by nlinarith
    rcases Nat.lt_or_eq_of_le hhalf with hlt | heq
    · rw [if_pos hlt]
    · have heven : q % 2 = 0 := by
        by_contra h
        have := (hodd (by omega)).2
        nlinarith
      simp only [heq, lt_self_iff_false, if_false, heven, Nat.add_zero]
  · have hhalf : den ≤ 2 * r := by nlinarith
    rcases Nat.lt_or_eq_of_le hhalf with hlt | heq
    · rw [if_neg (by omega), if_pos hlt]
    · have heven : q % 2 = 1 := by
        by_contra h
        have := (hodd (by omega)).1
        nlinarith
      simp only [← heq, lt_self_iff_false, if_false, heven]

theorem roundDiv_toEven_bounds (num : Nat) {den : Nat} (hden : 0 < den) :
    2 * roundDiv .toEven num den * den ≤ 2 * num + den ∧
      2 * num ≤ 2 * roundDiv .toEven num den * den + den := by
  have hsplit : num = num / den * den + num % den := (Nat.div_add_mod' num den).symm
  have hr : num % den < den := Nat.mod_lt _ hden
  simp only [roundDiv]
  generalize num / den = q at *
  generalize num % den = r at *
  subst hsplit
  split
  · constructor <;> nlinarith
  · split
    · constructor <;> nlinarith
    · have hhalf : 2 * r = den := by omega
      rcases Nat.mod_two_eq_zero_or_one q with hparity | hparity
      · rw [hparity]
        constructor <;> nlinarith
      · rw [hparity]
        constructor <;> nlinarith

theorem roundDiv_near (num : Nat) {den : Nat} (hden : 0 < den) :
    |(roundDiv .toEven num den : ℚ) - num / den| ≤ 1 / 2 := by
  have hden' : (0 : ℚ) < den := by exact_mod_cast hden
  obtain ⟨hlo, hhi⟩ := roundDiv_toEven_bounds num hden
  have hlo' : 2 * (roundDiv .toEven num den : ℚ) * den ≤ 2 * num + den := by exact_mod_cast hlo
  have hhi' : 2 * (num : ℚ) ≤ 2 * roundDiv .toEven num den * den + den := by exact_mod_cast hhi
  have hquotient : (num : ℚ) / den * den = num := div_mul_cancel₀ _ hden'.ne'
  rw [abs_le]
  constructor
  · nlinarith
  · nlinarith

theorem leadingBit_eq {num den k : Nat} (hden : 0 < den) (hlo : 2 ^ k * den ≤ num * 2 ^ 172)
    (hhi : num * 2 ^ 172 < 2 ^ (k + 1) * den) : leadingBit num den = k := by
  have hpos : 2 ^ k ≤ num * 2 ^ 172 / den := (Nat.le_div_iff_mul_le hden).2 hlo
  have hlt : num * 2 ^ 172 / den < 2 ^ (k + 1) := (Nat.div_lt_iff_lt_mul hden).2 hhi
  have hne : num * 2 ^ 172 / den ≠ 0 := by
    have := Nat.two_pow_pos k
    omega
  exact (Nat.log2_eq_iff hne).2 ⟨hpos, hlt⟩

theorem leadingBit_le {num den k : Nat} (hden : 0 < den) (hhi : num * 2 ^ 172 < 2 ^ (k + 1) * den) :
    leadingBit num den ≤ k := by
  have hlt : num * 2 ^ 172 / den < 2 ^ (k + 1) := (Nat.div_lt_iff_lt_mul hden).2 hhi
  by_cases hzero : num * 2 ^ 172 / den = 0
  · have : leadingBit num den = Nat.log2 0 := congrArg Nat.log2 hzero
    rw [this, Nat.log2_zero]
    exact Nat.zero_le k
  · exact Nat.le_of_lt_succ ((Nat.log2_lt hzero).2 hlt)

/-- The numbers that round to a number of single precision: an interval that contains its ends only if
the last bit of the number is even. -/
def Interval.Contains (i : Interval) (x : ℚ) : Prop :=
  ((i.value - i.below : Nat) : ℚ) * 2 ^ i.exponent ≤ x ∧
    x ≤ ((i.value + i.above : Nat) : ℚ) * 2 ^ i.exponent ∧
    (i.closed = false → ((i.value - i.below : Nat) : ℚ) * 2 ^ i.exponent < x ∧
      x < ((i.value + i.above : Nat) : ℚ) * 2 ^ i.exponent)

/-- The bits of a finite positive number are its significand with the exponent of its last place above
the fraction. -/
structure Parts (bits place m : Nat) : Prop where
  bits_eq : bits = place * leadingOne + m
  pos : 0 < m
  lt : m < 2 * leadingOne
  /-- The leading one is missing in the smallest numbers only. -/
  normal : place = 0 ∨ leadingOne ≤ m
  place_le : place ≤ 253
  interval : Interval.ofBits bits =
    ⟨4 * m, if m = leadingOne then 1 else 2, 2, (place : Int) - 151, m % 2 = 0⟩

theorem exists_parts {bits : Nat} (hpos : 0 < bits) (hlt : bits < infinityBits) :
    ∃ place m, Parts bits place m := by
  have hsplit : bits = bits / leadingOne * leadingOne + bits % leadingOne :=
    (Nat.div_add_mod' bits leadingOne).symm
  have hfraction : bits % leadingOne < leadingOne := Nat.mod_lt _ (by decide)
  have hbiased : bits / leadingOne < 255 := Nat.div_lt_of_lt_mul hlt
  have hinterval : Interval.ofBits bits = ⟨4 * (if bits / leadingOne = 0 then bits % leadingOne
      else leadingOne + bits % leadingOne), if (if bits / leadingOne = 0 then bits % leadingOne
      else leadingOne + bits % leadingOne) = leadingOne then 1 else 2, 2,
      ((Nat.max (bits / leadingOne) 1 : Nat) : Int) - 1 - tinyExponent - 2,
      (if bits / leadingOne = 0 then bits % leadingOne else leadingOne + bits % leadingOne) % 2 = 0⟩ :=
    rfl
  generalize bits / leadingOne = biased at *
  generalize bits % leadingOne = fraction at *
  cases biased with
  | zero =>
      rw [if_pos rfl] at hinterval
      exact ⟨0, fraction, by omega, by omega, by omega, .inl rfl, by omega, hinterval⟩
  | succ place =>
      rw [if_neg place.succ_ne_zero] at hinterval
      refine ⟨place, leadingOne + fraction, by rw [hsplit]; ring, ?_, by omega,
        .inr (Nat.le_add_right _ _), by omega, ?_⟩
      · have : 0 < leadingOne := by decide
        omega
      · rw [hinterval]
        congr 1
        have hmax : Nat.max (place + 1) 1 = place + 1 := Nat.max_eq_left (by omega)
        rw [hmax]
        simp only [tinyExponent]
        omega

namespace Parts

variable {bits place m num den : Nat}

theorem quarters_eq (a place : Nat) :
    (a : ℚ) * 2 ^ ((place : Int) - 151) = ((a * 2 ^ place : Nat) : ℚ) / ((2 ^ 151 : Nat) : ℚ) := by
  rw [zpow_sub₀ (by norm_num), Nat.cast_mul, Nat.cast_pow, Nat.cast_pow, mul_div_assoc]
  norm_cast

theorem quarters_of_contains (h : Parts bits place m) (hden : 0 < den)
    (hx : (Interval.ofBits bits).Contains ((num : ℚ) / den)) :
    let unit := 2 ^ place * den
    let below := if m = leadingOne then 1 else 2
    4 * m * unit ≤ 4 * (num * 2 ^ 149) + below * unit ∧
      4 * (num * 2 ^ 149) ≤ (4 * m + 2) * unit ∧
      (m % 2 = 1 → 4 * m * unit < 4 * (num * 2 ^ 149) + below * unit ∧
        4 * (num * 2 ^ 149) < (4 * m + 2) * unit) := by
  intro unit below
  rw [h.interval] at hx
  obtain ⟨hlo, hhi, hstrict⟩ := hx
  simp only [quarters_eq] at hlo hhi hstrict
  have hden' : (0 : ℚ) < den := by exact_mod_cast hden
  have htwo : (0 : ℚ) < ((2 ^ 151 : Nat) : ℚ) := by positivity
  rw [div_le_div_iff₀ htwo hden'] at hlo
  rw [div_le_div_iff₀ hden' htwo] at hhi
  rw [div_lt_div_iff₀ htwo hden', div_lt_div_iff₀ hden' htwo] at hstrict
  norm_cast at hlo hhi hstrict
  have hbelow : 4 * m - below + below = 4 * m := by
    have hpos := h.pos
    have : below ≤ 2 := by
      change (if m = leadingOne then 1 else 2) ≤ 2
      split <;> omega
    omega
  have hsplit : 4 * m * unit = (4 * m - below) * 2 ^ place * den + below * unit := by
    rw [Nat.mul_assoc (4 * m - below), ← Nat.add_mul, hbelow]
  have hassoc : (4 * m + 2) * unit = (4 * m + 2) * 2 ^ place * den := (Nat.mul_assoc _ _ _).symm
  have hquarter : 4 * (num * 2 ^ 149) = num * 2 ^ 151 := by
    rw [Nat.pow_add 2 2 149]
    ring
  rw [hsplit, hassoc, hquarter]
  refine ⟨Nat.add_le_add_right hlo _, hhi, fun hodd => ?_⟩
  have hopen := hstrict (by simp [hodd])
  exact ⟨Nat.add_lt_add_right hopen.1 _, hopen.2⟩

/-- The last place of a quotient is the one of which the quotient has a leading one and a fraction. -/
theorem shift_eq (hden : 0 < den) (hlo : place = 0 ∨ 2 ^ 23 * (2 ^ place * den) ≤ num * 2 ^ 149)
    (hhi : num * 2 ^ 149 < 2 ^ 24 * (2 ^ place * den)) :
    leadingBit num den - 2 * fractionBits = place := by
  have hscale : num * 2 ^ 172 = 2 ^ 23 * (num * 2 ^ 149) := by
    rw [Nat.pow_add 2 23 149]
    ring
  have hpower : ∀ k, 2 ^ (place + k) * den = 2 ^ k * (2 ^ place * den) := by
    intro k
    rw [Nat.pow_add]
    ring
  have hupper : num * 2 ^ 172 < 2 ^ (place + 46 + 1) * den := by
    rw [hscale, Nat.add_assoc, hpower]
    omega
  simp only [fractionBits]
  rcases hlo with rfl | hlo
  · have hle := leadingBit_le (k := 46) hden hupper
    omega
  · have hlower : 2 ^ (place + 46) * den ≤ num * 2 ^ 172 := by
      rw [hscale, hpower]
      omega
    rw [leadingBit_eq hden hlower hupper]
    omega

theorem bitsOfRatio_of_roundDiv (hden : 0 < den) (hlt : place * leadingOne + m < infinityBits)
    (hlo : place = 0 ∨ 2 ^ 23 * (2 ^ place * den) ≤ num * 2 ^ 149)
    (hhi : num * 2 ^ 149 < 2 ^ 24 * (2 ^ place * den))
    (hround : roundDiv .toEven (num * 2 ^ 149) (2 ^ place * den) = m) :
    bitsOfRatio num den = place * leadingOne + m := by
  have htiny : Nat.pow 2 tinyExponent = 2 ^ 149 := rfl
  have hplace : Nat.pow 2 place = 2 ^ place := rfl
  rw [bitsOfRatio, shift_eq hden hlo hhi, htiny, hplace, Nat.mul_comm den, hround]
  exact Nat.min_eq_left hlt.le

/-- What lies just below a power of two has a last place that is half as large, and is rounded up to
the power. -/
theorem bitsOfRatio_below_power (hden : 0 < den)
    (hlt : (place + 1) * leadingOne + leadingOne < infinityBits)
    (hlo : 4 * leadingOne * (2 ^ (place + 1) * den) ≤ 4 * (num * 2 ^ 149) + 2 ^ (place + 1) * den)
    (hhi : num * 2 ^ 149 < 2 ^ 23 * (2 ^ (place + 1) * den)) :
    bitsOfRatio num den = (place + 1) * leadingOne + leadingOne := by
  have hone : leadingOne = 2 ^ 23 := rfl
  have hdouble : 2 ^ (place + 1) * den = 2 * (2 ^ place * den) := by
    rw [Nat.pow_succ]
    ring
  have hcarry : (place + 1) * leadingOne + leadingOne = place * leadingOne + 2 ^ 24 := by
    rw [hone]
    ring
  have hunit : 0 < 2 ^ place * den := Nat.mul_pos (Nat.two_pow_pos _) hden
  rw [hcarry] at hlt ⊢
  rw [hdouble, hone] at hlo
  rw [hdouble] at hhi
  refine bitsOfRatio_of_roundDiv hden hlt (.inr ?_) (by omega) ?_
  · omega
  · obtain ⟨n, hn⟩ : ∃ n, num * 2 ^ 149 = n := ⟨_, rfl⟩
    rw [hn] at hlo hhi ⊢
    refine roundDiv_toEven_eq hunit ?_ ?_ fun hm => absurd hm (by decide) <;> omega

/-- Every number of the interval rounds to the bits that it belongs to. -/
theorem bitsOfRatio_eq (h : Parts bits place m) (hlt : bits < infinityBits) (hden : 0 < den)
    (hx : (Interval.ofBits bits).Contains ((num : ℚ) / den)) : bitsOfRatio num den = bits := by
  obtain ⟨hlo, hhi, hodd⟩ := h.quarters_of_contains hden hx
  have hone : leadingOne = 2 ^ 23 := rfl
  have hm := h.lt
  have hpos := h.pos
  rw [h.bits_eq] at hlt ⊢
  have hunit : 0 < 2 ^ place * den := Nat.mul_pos (Nat.two_pow_pos _) hden
  have hbelow : (if m = leadingOne then 1 else 2) * (2 ^ place * den) ≤ 2 * (2 ^ place * den) :=
    Nat.mul_le_mul_right _ (by split <;> omega)
  have hupper : (4 * m + 2) * (2 ^ place * den) < 2 ^ 26 * (2 ^ place * den) :=
    Nat.mul_lt_mul_of_pos_right (by omega) hunit
  by_cases hbinade : place = 0 ∨ 2 ^ 23 * (2 ^ place * den) ≤ num * 2 ^ 149
  · -- the last place of the quotient is that of the number
    refine bitsOfRatio_of_roundDiv hden hlt hbinade (by omega) ?_
    refine roundDiv_toEven_eq hunit (by linarith) (by linarith) fun hm => ?_
    obtain ⟨hlo, hhi⟩ := hodd hm
    exact ⟨by linarith, by linarith⟩
  · obtain ⟨hplace, hlower⟩ := not_or.1 hbinade
    obtain rfl : m = leadingOne := by
      refine (h.normal.resolve_left hplace).antisymm' (Nat.le_of_not_lt fun hfar => ?_)
      have hmul : (4 * leadingOne + 2) * (2 ^ place * den) ≤ (4 * m - 2) * (2 ^ place * den) :=
        Nat.mul_le_mul_right _ (by omega)
      have hsplit : 4 * m * (2 ^ place * den) =
          (4 * m - 2) * (2 ^ place * den) + 2 * (2 ^ place * den) := by
        rw [← Nat.add_mul]
        congr 1
        omega
      rw [hone] at hmul
      omega
    obtain ⟨t, rfl⟩ := Nat.exists_eq_succ_of_ne_zero hplace
    rw [if_pos rfl, Nat.one_mul] at hlo
    exact bitsOfRatio_below_power hden hlt hlo (Nat.lt_of_not_le hlower)

end Parts

end FieldCircuit.Decimal
