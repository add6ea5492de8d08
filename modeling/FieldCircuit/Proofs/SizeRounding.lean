import FieldCircuit.Proofs.Launch.Limits
import Mathlib.Order.Bounds.Basic

/-!
# Rounding sizes

Quotients are rounded up to the least number of pieces that cover a whole. Sizes of workgroups are
rounded to powers of two: down to the greatest one that a device allows, and up to the least one
that covers an extent. Of two powers of two the smaller one divides the other.
-/

namespace FieldCircuit

theorem isLeast_ceilDiv (a : Nat) {b : Nat} (hb : 0 < b) :
    IsLeast {n | a ≤ n * b} (ceilDiv a b) := by
  refine ⟨le_ceilDiv_mul a hb, fun n hn => ?_⟩
  have hdiv : a / b ≤ n := Nat.div_le_of_le_mul (Nat.mul_comm n b ▸ hn)
  unfold ceilDiv
  split
  · exact hdiv
  · rename_i hrest
    -- a whole with a remainder is not covered by the pieces that it contains
    refine Nat.succ_le_of_lt (Nat.lt_of_le_of_ne hdiv fun heq => hrest ?_)
    have hn' : a ≤ n * b := hn
    have := Nat.div_add_mod' a b
    rw [heq] at this
    omega

theorem isGreatest_floorPowerOfTwo (n : Nat) :
    IsGreatest {t | (∃ k, t = 2 ^ k) ∧ t ≤ max n 1} (floorPowerOfTwo n) := by
  constructor
  · refine ⟨floorPowerOfTwo_eq n, ?_⟩
    rcases Nat.eq_zero_or_pos n with rfl | hn
    · exact Nat.le_refl 1
    · exact (floorPowerOfTwo_le hn).trans (le_max_left n 1)
  · rintro _ ⟨⟨k, rfl⟩, hk⟩
    unfold floorPowerOfTwo
    split
    · omega
    · rw [max_eq_left (by omega)] at hk
      exact Nat.pow_le_pow_right (by decide) ((Nat.le_log2 (by omega)).2 hk)

theorem isLeast_ceilPowerOfTwo (n : Nat) :
    IsLeast {t | (∃ k, t = 2 ^ k) ∧ n ≤ t} (ceilPowerOfTwo n) := by
  unfold ceilPowerOfTwo
  split
  · rename_i hsmall
    exact ⟨⟨⟨0, rfl⟩, hsmall⟩, fun t ht => Nat.pos_of_ne_zero fun h0 => by
      obtain ⟨⟨k, hk⟩, -⟩ := ht
      have := Nat.two_pow_pos k
      omega⟩
  · have hlog : n - 1 < 2 ^ (Nat.log2 (n - 1) + 1) := Nat.lt_log2_self
    refine ⟨⟨⟨_, rfl⟩, show n ≤ 2 ^ (Nat.log2 (n - 1) + 1) by omega⟩, ?_⟩
    rintro _ ⟨⟨k, rfl⟩, hk⟩
    exact Nat.pow_le_pow_right (by decide) ((Nat.log2_lt (by omega)).2 (by omega))

theorem le_ceilPowerOfTwo (n : Nat) : n ≤ ceilPowerOfTwo n := (isLeast_ceilPowerOfTwo n).1.2

theorem ceilPowerOfTwo_two_pow (k : Nat) : ceilPowerOfTwo (2 ^ k) = 2 ^ k :=
  Nat.le_antisymm ((isLeast_ceilPowerOfTwo _).2 ⟨⟨k, rfl⟩, Nat.le_refl _⟩) (le_ceilPowerOfTwo _)

theorem two_pow_dvd_of_le {m n : Nat} (hm : ∃ i, m = 2 ^ i) (hn : ∃ j, n = 2 ^ j) (h : m ≤ n) :
    m ∣ n := by
  obtain ⟨i, rfl⟩ := hm
  obtain ⟨j, rfl⟩ := hn
  exact Nat.pow_dvd_pow 2 ((Nat.pow_le_pow_iff_right (by decide)).1 h)

/-- Rounding up stays a machine size exactly up to the greatest power of two among them. -/
theorem ceilPowerOfTwo_lt_sizeBound_iff {n : Nat} :
    ceilPowerOfTwo n < sizeBound ↔ n ≤ signedBound := by
  constructor
  · intro h
    obtain ⟨k, hk⟩ := ceilPowerOfTwo_eq n
    rw [hk] at h
    have hk63 : k < 64 := (Nat.pow_lt_pow_iff_right (a := 2) (by decide)).1 h
    calc n ≤ ceilPowerOfTwo n := le_ceilPowerOfTwo n
      _ = 2 ^ k := hk
      _ ≤ 2 ^ 63 := Nat.pow_le_pow_right (by decide) (by omega)
  · intro h
    exact Nat.lt_of_le_of_lt ((isLeast_ceilPowerOfTwo n).2 ⟨⟨63, rfl⟩, h⟩) (by decide)

end FieldCircuit
