import FieldCircuit.Arithmetic
import Mathlib

/-!
# Numbers of single precision

Every finite word of single precision is an integer multiple of the least positive one. A multiple
is such a word if it has a mantissa of at most 24 bits before a power of two that is not too large.
Rounding leaves these numbers as they are, so that a sum that is one of them is exact.
-/

namespace FieldCircuit.Single

open Float.Model (Format UnpackedFloat totalExponent)
open Float.Model.UnpackedFloat

/-- The integers that single precision represents, as multiples of its least positive number. -/
def Representable (n : Int) : Prop :=
  ∃ mantissa shift : Nat, mantissa < 2 ^ 24 ∧ shift ≤ 253 ∧ n.natAbs = mantissa * 2 ^ shift

/-- The multiple of the least positive number that an unpacked word stands for. Infinities and
undefined results stand for none. -/
def unpackedUnits : UnpackedFloat → Option Int
  | .zero _ => some 0
  | .finite sign mantissa exponent _ =>
      some (sign.apply (mantissa * 2 ^ (exponent + 149).toNat : Nat))
  | .infinity _ | .notANumber => none

def units (x : Float32) : Option Int := unpackedUnits x.toModel.unpack

/-- Mantissa and exponent of a word: the mantissa fills its bits unless the exponent is the least
one. -/
structure Canonical (m : Nat) (e : Int) : Prop where
  pos : 0 < m
  mantissa : m < 2 ^ 24
  least : -149 ≤ e
  greatest : e ≤ 104
  filled : 2 ^ 23 ≤ m ∨ e = -149

theorem exponentBias_binary32 : (Format.binary32.exponentBias : Int) = 127 := rfl

theorem toNat_one_append {n : Nat} (mantissa : BitVec n) :
    (1#1 ++ mantissa).toNat = 2 ^ n + mantissa.toNat := by
  rw [BitVec.toNat_append, ← Nat.shiftLeft_add_eq_or_of_lt mantissa.isLt, Nat.shiftLeft_eq,
    BitVec.toNat_ofNat, Nat.one_mod, Nat.one_mul]

theorem canonical_of_unpack {b : BitVec Format.binary32.numBits} {s : Sign} {m : Nat} {e : Int}
    {hm : 0 < m} (h : unpack .binary32 b = .finite s m e hm) : Canonical m e := by
  unfold unpack at h
  dsimp only at h
  have hfraction : (unpackMantissa b).toNat < 2 ^ 23 := BitVec.isLt _
  have hexponent : (unpackExponent b).toNat < 2 ^ 8 := BitVec.isLt _
  split at h
  · split at h <;> cases h
  · rename_i hmax
    have hbelow : (unpackExponent b).toNat ≠ 255 := fun heq =>
      hmax (BitVec.eq_of_toNat_eq heq)
    split at h
    · rename_i hzero
      split at h
      · cases h
      · rw [hzero, exponentBias_binary32, finite.injEq] at h
        obtain ⟨-, rfl, rfl⟩ := h
        exact ⟨hm, by omega, by decide, by decide, .inr rfl⟩
    · rename_i hnormal
      have hpos : (unpackExponent b).toNat ≠ 0 := fun heq =>
        hnormal (BitVec.eq_of_toNat_eq heq)
      rw [exponentBias_binary32, finite.injEq] at h
      obtain ⟨-, hmant, rfl⟩ := h
      have hm' : m = 2 ^ 23 + (unpackMantissa b).toNat :=
        hmant.symm.trans (toNat_one_append _)
      exact ⟨hm, by omega, by omega, by omega, .inl (by omega)⟩

theorem unpack_full {s : Sign} {exponent : BitVec 8} {mantissa : BitVec 23}
    (hzero : exponent.toNat ≠ 0) (hmax : exponent.toNat ≠ 255) :
    unpack .binary32 (packComponents .binary32 s exponent mantissa) =
      .finite s (2 ^ 23 + mantissa.toNat) (exponent.toNat - 150) (by omega) := by
  have hzero' : exponent ≠ 0#8 := fun heq => hzero (heq ▸ rfl)
  have hmax' : exponent ≠ -1#8 := fun heq => hmax (heq ▸ rfl)
  unfold unpack
  simp only [unpackExponent_packComponents, unpackMantissa_packComponents,
    unpackSign_packComponents, Sign.ofBitVec_toBitVec, exponentBias_binary32]
  rw [if_neg hmax', if_neg hzero', finite.injEq]
  exact ⟨rfl, toNat_one_append mantissa, rfl⟩

theorem unpack_partial {s : Sign} {mantissa : BitVec 23} (hpos : 0 < mantissa.toNat) :
    unpack .binary32 (packComponents .binary32 s 0#8 mantissa) =
      .finite s mantissa.toNat (-149) hpos := by
  have hzero : mantissa ≠ 0#23 := fun heq => by
    rw [heq] at hpos
    exact absurd hpos (by decide)
  unfold unpack
  simp only [unpackExponent_packComponents, unpackMantissa_packComponents,
    unpackSign_packComponents, Sign.ofBitVec_toBitVec, exponentBias_binary32]
  rw [if_neg (by decide), if_pos trivial, dif_neg hzero, finite.injEq]
  exact ⟨rfl, rfl, rfl⟩

namespace Canonical

variable {m : Nat} {e : Int}

theorem pack_full (h : Canonical m e) (hfull : 2 ^ 23 ≤ m) (s : Sign) :
    pack .binary32 (.finite s m e h.pos) =
      packComponents .binary32 s (BitVec.ofNat 8 (e + 150).toNat) (BitVec.ofNat 23 m) := by
  have hleast := h.least
  have hgreatest := h.greatest
  have hlog : Nat.log2 m + 1 = 24 := Nat.le_antisymm
    ((Nat.log2_lt (by omega)).2 h.mantissa) (Nat.succ_le_succ ((Nat.le_log2 (by omega)).2 hfull))
  have hfinite : ¬ 2 ^ 8 ≤ (e + 127 + 23).toNat + 1 := by omega
  have hexponent : (e + 127 + 23).toNat = (e + 150).toNat := by omega
  exact (if_neg hfinite).trans ((if_pos hlog).trans (by rw [← hexponent]; rfl))

theorem pack_partial (h : Canonical m e) (hpartial : m < 2 ^ 23) (s : Sign) :
    pack .binary32 (.finite s m e h.pos) =
      packComponents .binary32 s 0#8 (BitVec.ofNat 23 m) := by
  have hgreatest := h.greatest
  have hlog : ¬ Nat.log2 m + 1 = 24 := by
    have := (Nat.log2_lt (Nat.ne_of_gt h.pos)).2 hpartial
    omega
  have hfinite : ¬ 2 ^ 8 ≤ (e + 127 + 23).toNat + 1 := by omega
  exact (if_neg hfinite).trans (if_neg hlog)

theorem unpack_pack (h : Canonical m e) (s : Sign) :
    unpack .binary32 (pack .binary32 (.finite s m e h.pos)) = .finite s m e h.pos := by
  have hm := h.mantissa
  have hleast := h.least
  have hgreatest := h.greatest
  by_cases hfull : 2 ^ 23 ≤ m
  · have hexponent : (BitVec.ofNat 8 (e + 150).toNat).toNat = (e + 150).toNat := by
      rw [BitVec.toNat_ofNat]
      omega
    rw [h.pack_full hfull, unpack_full (by omega) (by omega), finite.injEq]
    refine ⟨rfl, ?_, by omega⟩
    rw [BitVec.toNat_ofNat]
    omega
  · have hmantissa : (BitVec.ofNat 23 m).toNat = m := by
      rw [BitVec.toNat_ofNat]
      omega
    rw [h.pack_partial (by omega), unpack_partial (by rw [hmantissa]; exact h.pos), finite.injEq]
    exact ⟨rfl, hmantissa, (h.filled.resolve_left hfull).symm⟩

theorem targetExponent_eq (h : Canonical m e) :
    Format.binary32.targetExponent (totalExponent m e) = e := by
  have hlog : Nat.log2 m < 24 := (Nat.log2_lt (Nat.ne_of_gt h.pos)).2 h.mantissa
  have hleast := h.least
  have htarget : Format.binary32.targetExponent (totalExponent m e) =
      max (Nat.log2 m + 1 + e - 24) (-149) := rfl
  rcases h.filled with hfull | rfl
  · have hlog' : 23 ≤ Nat.log2 m := (Nat.le_log2 (Nat.ne_of_gt h.pos)).2 hfull
    omega
  · omega

end Canonical

theorem log2_mul_two_pow {m : Nat} (hm : 0 < m) (k : Nat) :
    Nat.log2 (m * 2 ^ k) = Nat.log2 m + k := by
  induction k with
  | zero => simp
  | succ k ih =>
      have hpos : m * 2 ^ k ≠ 0 := Nat.ne_of_gt (Nat.mul_pos hm (Nat.two_pow_pos k))
      rw [show m * 2 ^ (k + 1) = 2 * (m * 2 ^ k) by ring, Nat.log2_two_mul hpos, ih]
      omega

theorem totalExponent_shift {m : Nat} (hm : 0 < m) (e : Int) (k : Nat) :
    totalExponent (m * 2 ^ k) (e - k) = totalExponent m e := by
  unfold totalExponent
  rw [log2_mul_two_pow hm]
  omega

theorem shiftRight_exact (m k : Nat) :
    ExtendedMantissa.ofMantissaAndAccuracy (m * 2 ^ k) .exact >>> k =
      ExtendedMantissa.ofMantissaAndAccuracy m .exact := by
  induction k generalizing m with
  | zero => simp [HShiftRight.hShiftRight, Nat.repeat]
  | succ k ih =>
      have hstep : ExtendedMantissa.ofMantissaAndAccuracy (m * 2 ^ (k + 1)) .exact >>> (k + 1) =
          (ExtendedMantissa.ofMantissaAndAccuracy (2 * m * 2 ^ k) .exact >>> k).shiftRightOne := by
        rw [show m * 2 ^ (k + 1) = 2 * m * 2 ^ k by ring]
        rfl
      rw [hstep, ih]
      simp [ExtendedMantissa.ofMantissaAndAccuracy, ExtendedMantissa.shiftRightOne]

namespace Canonical

variable {m : Nat} {e : Int}

theorem shiftToTargetExponent_eq (h : Canonical m e) (k : Nat) :
    shiftToTargetExponent .binary32 (m * 2 ^ k) (e - k) .exact =
      (ExtendedMantissa.ofMantissaAndAccuracy m .exact, e) := by
  unfold shiftToTargetExponent shiftToExponent
  dsimp only
  rw [totalExponent_shift h.pos, h.targetExponent_eq, show (e - (e - k)).toNat = k by omega,
    shiftRight_exact, Int.sub_add_cancel]

theorem roundWithAccuracy_eq (h : Canonical m e) (s : Sign) (k : Nat) :
    roundWithAccuracy .binary32 s (m * 2 ^ k) (e - k) .exact = .finite s m e h.pos := by
  -- what the first shift leaves is not shifted again
  have hkeep := h.shiftToTargetExponent_eq 0
  rw [Nat.pow_zero, Nat.mul_one, Nat.cast_zero, Int.sub_zero] at hkeep
  have hrounded : (ExtendedMantissa.ofMantissaAndAccuracy m .exact).roundedMantissa = m := rfl
  unfold roundWithAccuracy
  simp only [h.shiftToTargetExponent_eq k, hrounded, hkeep]
  exact dif_neg (Nat.ne_of_gt h.pos)

theorem round_eq (h : Canonical m e) (s : Sign) {mantissa : Nat} {exponent : Int}
    (hleast : -149 ≤ exponent)
    (heq : mantissa * 2 ^ (exponent + 149).toNat = m * 2 ^ (e + 149).toNat) :
    UnpackedFloat.round .binary32 s mantissa exponent = .finite s m e h.pos := by
  have hleast' := h.least
  have hpos : 0 < mantissa := Nat.pos_of_ne_zero fun hzero => by
    rw [hzero, Nat.zero_mul] at heq
    exact Nat.ne_of_gt (Nat.mul_pos h.pos (Nat.two_pow_pos _)) heq.symm
  unfold UnpackedFloat.round decreaseExponent
  dsimp only
  rcases le_total e exponent with hle | hle
  · obtain ⟨k, rfl⟩ : ∃ k : Nat, exponent = e + k := ⟨(exponent - e).toNat, by omega⟩
    have hm : mantissa * 2 ^ k = m := by
      refine Nat.eq_of_mul_eq_mul_right (Nat.two_pow_pos (e + 149).toNat) ?_
      rw [← heq, Nat.mul_assoc, ← pow_add, show (e + k + 149).toNat = k + (e + 149).toNat by omega]
    have htarget : Format.binary32.targetExponent (totalExponent mantissa (e + k)) = e := by
      rw [← totalExponent_shift hpos (e + k) k, hm, Int.add_sub_cancel, h.targetExponent_eq]
    rw [htarget, show (e + k - e).toNat = k by omega, Nat.shiftLeft_eq, hm, Int.add_sub_cancel]
    simpa using h.roundWithAccuracy_eq s 0
  · obtain ⟨k, rfl⟩ : ∃ k : Nat, exponent = e - k := ⟨(e - exponent).toNat, by omega⟩
    have hm : mantissa = m * 2 ^ k := by
      refine Nat.eq_of_mul_eq_mul_right (Nat.two_pow_pos (e - k + 149).toNat) ?_
      rw [heq, Nat.mul_assoc, ← pow_add, show (e + 149).toNat = k + (e - k + 149).toNat by omega]
    subst hm
    rw [totalExponent_shift h.pos, h.targetExponent_eq, show (e - k - e).toNat = 0 by omega]
    simpa using h.roundWithAccuracy_eq s k

end Canonical

theorem Representable.canonical {n : Int} (h : Representable n) (hn : n ≠ 0) :
    ∃ m e, Canonical m e ∧ n.natAbs = m * 2 ^ (e + 149).toNat := by
  obtain ⟨mantissa, shift, hmantissa, hshift, heq⟩ := h
  have hpos : 0 < mantissa := Nat.pos_of_ne_zero fun hzero => hn (by simpa [hzero] using heq)
  clear hn
  induction shift generalizing mantissa with
  | zero => exact ⟨mantissa, -149, ⟨hpos, hmantissa, by decide, by decide, .inr rfl⟩, heq⟩
  | succ shift ih =>
      by_cases hfull : 2 ^ 23 ≤ mantissa
      · refine ⟨mantissa, shift + 1 - 149, ⟨hpos, hmantissa, by omega, by omega, .inl hfull⟩, ?_⟩
        rw [heq, show (shift + 1 - 149 + 149 : Int).toNat = shift + 1 by omega]
      · refine ih (2 * mantissa) (by omega) (by omega) ?_ (by omega)
        rw [heq]
        ring

theorem Canonical.representable {m : Nat} {e : Int} (h : Canonical m e) {n : Int}
    (hn : n.natAbs = m * 2 ^ (e + 149).toNat) : Representable n :=
  ⟨m, (e + 149).toNat, h.mantissa, by have := h.greatest; omega, hn⟩

/-- If a number and a multiple of it by a power of two are representable, so are the multiples by
smaller powers. -/
theorem Representable.of_doubled {n : Int} {j k : Nat} (h : Representable n)
    (hdoubled : Representable (n * 2 ^ k)) (hjk : j ≤ k) : Representable (n * 2 ^ j) := by
  obtain ⟨mantissa, shift, hmantissa, -, hn⟩ := h
  obtain ⟨mantissa', shift', hmantissa', hshift', hn'⟩ := hdoubled
  have hscaled : ∀ i : Nat, (n * 2 ^ i).natAbs = mantissa * 2 ^ (shift + i) := by
    intro i
    rw [Int.natAbs_mul, hn, Int.natAbs_pow, pow_add, Nat.mul_assoc]
    rfl
  by_cases hsmall : shift + j ≤ 253
  · exact ⟨mantissa, shift + j, hmantissa, hsmall, hscaled j⟩
  · -- the greatest exponent is too small for this mantissa, but the mantissa can take the rest
    have hsplit : mantissa * 2 ^ (shift + k - shift') = mantissa' := by
      refine Nat.eq_of_mul_eq_mul_right (Nat.two_pow_pos shift') ?_
      rw [Nat.mul_assoc, ← pow_add, Nat.sub_add_cancel (by omega), ← hscaled, hn']
    refine ⟨mantissa * 2 ^ (shift + j - shift'), shift', ?_, hshift', ?_⟩
    · calc mantissa * 2 ^ (shift + j - shift') ≤ mantissa * 2 ^ (shift + k - shift') :=
          Nat.mul_le_mul_left _ (Nat.pow_le_pow_right (by decide) (by omega))
        _ = mantissa' := hsplit
        _ < 2 ^ 24 := hmantissa'
    · rw [hscaled, Nat.mul_assoc, ← pow_add, Nat.sub_add_cancel (by omega)]

theorem natAbs_apply (s : Sign) (n : Nat) : (s.apply n).natAbs = n := by
  cases s
  · exact Int.natAbs_neg n
  · rfl

theorem Canonical.units_pack {m : Nat} {e : Int} (h : Canonical m e) (s : Sign) :
    units ⟨Float32.Model.pack (.finite s m e h.pos)⟩ =
      some (s.apply (m * 2 ^ (e + 149).toNat : Nat)) :=
  congrArg unpackedUnits (h.unpack_pack s)

theorem exists_units_iff {n : Int} : (∃ x, units x = some n) ↔ Representable n := by
  constructor
  · rintro ⟨x, hx⟩
    unfold units at hx
    generalize hu : x.toModel.unpack = u at hx
    cases u with
    | zero s =>
        obtain rfl : 0 = n := Option.some.inj hx
        exact ⟨0, 0, by decide, by decide, rfl⟩
    | finite s m e hm =>
        obtain rfl := Option.some.inj hx
        exact (canonical_of_unpack hu).representable (natAbs_apply s _)
    | infinity s => cases hx
    | notANumber => cases hx
  · intro h
    by_cases hn : n = 0
    · subst hn
      exact ⟨0, by decide +kernel⟩
    · obtain ⟨m, e, hcanonical, heq⟩ := h.canonical hn
      rcases Int.natAbs_eq n with hpos | hneg
      · exact ⟨_, (hcanonical.units_pack .positive).trans (by rw [hpos, heq]; rfl)⟩
      · exact ⟨_, (hcanonical.units_pack .negative).trans (by rw [hneg, heq]; rfl)⟩

theorem units_pack_zero (s : Sign) : units ⟨Float32.Model.pack (.zero s)⟩ = some 0 :=
  congrArg unpackedUnits unpack_packedZero

theorem apply_mul (s : Sign) (n k : Int) : s.apply (n * k) = s.apply n * k := by
  cases s
  · exact (Int.neg_mul n k).symm
  · rfl

theorem exists_apply {n : Int} (hn : n ≠ 0) : ∃ (s : Sign) (k : Nat), 0 < k ∧ n = s.apply k := by
  rcases lt_or_gt_of_ne hn with hneg | hpos
  · exact ⟨.negative, n.natAbs, by omega, by simp only [Sign.apply]; omega⟩
  · exact ⟨.positive, n.natAbs, by omega, by simp only [Sign.apply]; omega⟩

theorem normalize_apply {k : Nat} (hk : 0 < k) (s : Sign) (exponent : Int) :
    UnpackedFloat.normalize .binary32 (s.apply k) exponent .positive =
      UnpackedFloat.round .binary32 s k exponent := by
  cases s
  · have hneg : compare (-(k : Int)) 0 = .lt := Int.compare_eq_lt.2 (by omega)
    simp only [UnpackedFloat.normalize, Sign.apply, hneg, Int.neg_neg, Int.toNat_natCast]
  · have hpos : compare (k : Int) 0 = .gt := Int.compare_eq_gt.2 (by omega)
    simp only [UnpackedFloat.normalize, Sign.apply, hpos, Int.toNat_natCast]

/-- Normalizing an integer multiple of a power of two that is representable keeps it. -/
theorem units_pack_normalize {mantissa exponent : Int} (hleast : -149 ≤ exponent)
    (h : Representable (mantissa * 2 ^ (exponent + 149).toNat)) :
    units ⟨Float32.Model.pack (UnpackedFloat.normalize .binary32 mantissa exponent .positive)⟩ =
      some (mantissa * 2 ^ (exponent + 149).toNat) := by
  by_cases hzero : mantissa = 0
  · rw [hzero, Int.zero_mul]
    exact units_pack_zero .positive
  · obtain ⟨s, k, hk, rfl⟩ := exists_apply hzero
    have hscaled : s.apply k * 2 ^ (exponent + 149).toNat =
        s.apply (k * 2 ^ (exponent + 149).toNat : Nat) := by
      rw [← apply_mul]
      norm_cast
    rw [hscaled] at h ⊢
    obtain ⟨m, e, hcanonical, heq⟩ := h.canonical fun hn => by
      have := congrArg Int.natAbs hn
      rw [natAbs_apply] at this
      exact Nat.ne_of_gt (Nat.mul_pos hk (Nat.two_pow_pos _)) this
    rw [natAbs_apply] at heq
    rw [normalize_apply hk, hcanonical.round_eq s hleast heq, hcanonical.units_pack, heq]

theorem apply_shiftLeft (s : Sign) (m : Nat) {e least : Int} (hle : least ≤ e)
    (hleast : -149 ≤ least) :
    s.apply (m <<< (e - least).toNat : Nat) * 2 ^ (least + 149).toNat =
      s.apply (m * 2 ^ (e + 149).toNat : Nat) := by
  rw [Nat.shiftLeft_eq, ← apply_mul,
    show (e + 149).toNat = (e - least).toNat + (least + 149).toNat by omega,
    pow_add, ← Nat.mul_assoc]
  norm_cast

/-- Addition is exact if the sum is representable. -/
theorem units_add {x y : Float32} {a b : Int} (hx : units x = some a) (hy : units y = some b)
    (h : Representable (a + b)) : units (x + y) = some (a + b) := by
  have hadd : units (x + y) = units ⟨Float32.Model.pack
      (UnpackedFloat.add .binary32 x.toModel.unpack y.toModel.unpack)⟩ := rfl
  rw [hadd]
  unfold units at hx hy
  generalize hu : x.toModel.unpack = u at hx
  generalize hv : y.toModel.unpack = v at hy
  cases u with
  | infinity s => cases hx
  | notANumber => cases hx
  | zero s =>
      obtain rfl : 0 = a := Option.some.inj hx
      rw [Int.zero_add]
      cases v with
      | infinity t => cases hy
      | notANumber => cases hy
      | zero t =>
          obtain rfl : 0 = b := Option.some.inj hy
          simp only [UnpackedFloat.add]
          split <;> exact units_pack_zero _
      | finite t m e hm =>
          rw [← hy]
          exact (canonical_of_unpack hv).units_pack t
  | finite s m e hm =>
      cases v with
      | infinity t => cases hy
      | notANumber => cases hy
      | zero t =>
          obtain rfl : 0 = b := Option.some.inj hy
          rw [Int.add_zero, ← hx]
          exact (canonical_of_unpack hu).units_pack s
      | finite t m' e' hm' =>
          have hleast : -149 ≤ min e e' :=
            le_min (canonical_of_unpack hu).least (canonical_of_unpack hv).least
          have hsum : a + b = (s.apply (m <<< (e - min e e').toNat : Nat) +
              t.apply (m' <<< (e' - min e e').toNat : Nat)) * 2 ^ (min e e' + 149).toNat := by
            rw [Int.add_mul, apply_shiftLeft s m (min_le_left e e') hleast,
              apply_shiftLeft t m' (min_le_right e e') hleast]
            exact (congrArg₂ (· + ·) (Option.some.inj hx) (Option.some.inj hy)).symm
          rw [hsum] at h ⊢
          exact units_pack_normalize hleast h

end FieldCircuit.Single
