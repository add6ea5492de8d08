import FieldCircuit.Pacing
import FieldCircuit.Proofs.SinglePrecision

/-!
# Reciprocals of double precision

Finite positive numbers of double precision are integer multiples of the least positive one. The
reciprocal of such a number is rounded to the nearest one. It is off by no more than its last place, and
does not reach a power of two that the exact reciprocal stays below: the mantissas of a number above a
power of two and of its reciprocal cannot both be next to their ends.
-/

namespace FieldCircuit.Double

open Float.Model (Format UnpackedFloat totalExponent)
open Float.Model.UnpackedFloat

def unitsPerOne : Nat := Nat.pow 2 1074

/-- A finite positive number as a multiple of the least positive one. -/
def units (x : Float) : Nat := (doubleRatio x).1

theorem doubleRatio_eq (x : Float) : doubleRatio x = (units x, unitsPerOne) := by
  unfold units doubleRatio unitsPerOne
  dsimp only

/-- Mantissa and exponent of a positive number: the mantissa fills its bits unless the exponent is the
least one. -/
structure Canonical (m : Nat) (e : Int) : Prop where
  pos : 0 < m
  mantissa : m < 2 ^ 53
  least : -1074 ≤ e
  filled : 2 ^ 52 ≤ m ∨ e = -1074

section Fields

variable {x : Float} {m : Nat} {e : Int}

def word (x : Float) : BitVec Format.binary64.numBits := x.toBits.toBitVec

def storedExponent (x : Float) : Nat := x.toBits.toNat / 2 ^ 52 % 2 ^ 11

def storedMantissa (x : Float) : Nat := x.toBits.toNat % 2 ^ 52

theorem toNat_unpackExponent (x : Float) :
    (unpackExponent (word x)).toNat = storedExponent x := by
  simp [unpackExponent, word, storedExponent, BitVec.extractLsb_toNat, Nat.shiftRight_eq_div_pow]

theorem toNat_unpackMantissa (x : Float) :
    (unpackMantissa (word x)).toNat = storedMantissa x := by
  simp [unpackMantissa, word, storedMantissa, BitVec.extractLsb_toNat]

theorem isFiniteDouble_iff : isFiniteDouble x = true ↔ storedExponent x ≠ 2047 := by
  have hmask : x.toBits.toNat / 2 ^ 52 &&& 2047 = x.toBits.toNat / 2 ^ 52 % 2 ^ 11 :=
    Nat.and_two_pow_sub_one_eq_mod _ 11
  unfold isFiniteDouble storedExponent
  rw [bne_iff_ne, Ne, ← UInt64.toNat_inj, ← hmask]
  simp [UInt64.toNat_shiftRight, UInt64.toNat_and, Nat.shiftRight_eq_div_pow]

theorem units_eq (x : Float) : units x =
    (if storedExponent x = 0 then storedMantissa x else 2 ^ 52 + storedMantissa x) *
      2 ^ (storedExponent x - 1) := by
  unfold units doubleRatio storedExponent storedMantissa
  simp only [Nat.pow_eq]
  split
  · rename_i hzero
    rw [hzero]
  · rfl

theorem exponentBias_binary64 : (Format.binary64.exponentBias : Int) = 1023 := rfl

theorem canonical_of_unpack {s : Sign} {hm : 0 < m} (h : x.toModel.unpack = .finite s m e hm) :
    Canonical m e ∧ e ≤ 971 ∧ units x = m * 2 ^ (e + 1074).toNat := by
  have hunpack : unpack .binary64 (word x) = .finite s m e hm := h
  have hexponent := toNat_unpackExponent x
  have hmantissa := toNat_unpackMantissa x
  have hexponentLt : storedExponent x < 2 ^ 11 := Nat.mod_lt _ (by decide)
  have hmantissaLt : storedMantissa x < 2 ^ 52 := Nat.mod_lt _ (by decide)
  rw [units_eq]
  unfold unpack at hunpack
  dsimp only at hunpack
  split at hunpack
  · split at hunpack <;> cases hunpack
  · rename_i hmax
    have hbelow : storedExponent x ≠ 2047 := fun heq =>
      hmax (BitVec.eq_of_toNat_eq (hexponent.trans heq))
    split at hunpack
    · rename_i hzero
      have hstored : storedExponent x = 0 := hexponent.symm.trans (congrArg BitVec.toNat hzero)
      split at hunpack
      · cases hunpack
      · rw [hzero, exponentBias_binary64, finite.injEq] at hunpack
        obtain ⟨-, rfl, rfl⟩ := hunpack
        rw [hstored, if_pos rfl, hmantissa]
        exact ⟨⟨by omega, by omega, le_rfl, .inr rfl⟩, by decide, rfl⟩
    · rename_i hnormal
      have hstored : storedExponent x ≠ 0 := fun heq =>
        hnormal (BitVec.eq_of_toNat_eq (hexponent.trans heq))
      rw [exponentBias_binary64, finite.injEq, hexponent] at hunpack
      obtain ⟨-, hmant, rfl⟩ := hunpack
      have hm' : m = 2 ^ 52 + storedMantissa x := by
        rw [← hmantissa]
        exact hmant.symm.trans (Single.toNat_one_append _)
      refine ⟨⟨hm, by omega, by omega, .inl (by omega)⟩, by omega, ?_⟩
      rw [if_neg hstored, hm']
      congr 2
      omega

theorem storedExponent_of_infinity {s : Sign} (h : x.toModel.unpack = .infinity s) :
    storedExponent x = 2047 := by
  have hunpack : unpack .binary64 (word x) = .infinity s := h
  unfold unpack at hunpack
  dsimp only at hunpack
  split at hunpack
  · rename_i hmax
    exact (toNat_unpackExponent x).symm.trans (congrArg BitVec.toNat hmax)
  · split at hunpack
    · split at hunpack <;> cases hunpack
    · cases hunpack

theorem canonical_of_positive (hpos : 0.0 < x) (hfinite : isFiniteDouble x = true) :
    ∃ m e, ∃ h : Canonical m e, e ≤ 971 ∧ x.toModel.unpack = .finite .positive m e h.pos ∧
      units x = m * 2 ^ (e + 1074).toNat := by
  have hcompare : UnpackedFloat.lt (.zero .positive) x.toModel.unpack = true :=
    of_decide_eq_true hpos
  cases hunpack : x.toModel.unpack with
  | notANumber => rw [hunpack] at hcompare; cases hcompare
  | zero s => rw [hunpack] at hcompare; cases hcompare
  | infinity s => exact absurd (storedExponent_of_infinity hunpack) (isFiniteDouble_iff.1 hfinite)
  | finite s m e hm =>
      obtain ⟨h, hle, hunits⟩ := canonical_of_unpack hunpack
      rw [hunpack] at hcompare
      cases s with
      | negative => cases hcompare
      | positive => exact ⟨m, e, h, hle, rfl, hunits⟩

end Fields

section Packing

variable {r : Nat} {t : Int}

theorem storedExponent_pack {u : UnpackedFloat} :
    storedExponent ⟨Float.Model.pack u⟩ = (unpackExponent (pack .binary64 u)).toNat :=
  (toNat_unpackExponent _).symm

theorem storedMantissa_pack {u : UnpackedFloat} :
    storedMantissa ⟨Float.Model.pack u⟩ = (unpackMantissa (pack .binary64 u)).toNat :=
  (toNat_unpackMantissa _).symm

theorem isFiniteDouble_pack_large (h : Canonical r t) (hlarge : 972 ≤ t) :
    isFiniteDouble ⟨Float.Model.pack (.finite .positive r t h.pos)⟩ = false := by
  have hbiased : 2 ^ 11 ≤ (t + 1023 + 52).toNat + 1 := by omega
  have hpack : pack .binary64 (.finite .positive r t h.pos) = packedInfinity .binary64 .positive :=
    if_pos hbiased
  rw [← Bool.not_eq_true, isFiniteDouble_iff, not_not, storedExponent_pack, hpack, packedInfinity,
    unpackExponent_packComponents]
  rfl

theorem pack_full (h : Canonical r t) (hle : t ≤ 971) (hfull : 2 ^ 52 ≤ r) :
    pack .binary64 (.finite .positive r t h.pos) =
      packComponents .binary64 .positive (BitVec.ofNat 11 (t + 1075).toNat) (BitVec.ofNat 52 r) := by
  have hleast := h.least
  have hne : r ≠ 0 := Nat.ne_of_gt h.pos
  have hlog : Nat.log2 r + 1 = 53 := Nat.le_antisymm ((Nat.log2_lt hne).2 h.mantissa)
    (Nat.succ_le_succ ((Nat.le_log2 hne).2 hfull))
  have hfinite : ¬ 2 ^ 11 ≤ (t + 1023 + 52).toNat + 1 := by omega
  have hexponent : (t + 1023 + 52).toNat = (t + 1075).toNat := by omega
  exact (if_neg hfinite).trans ((if_pos hlog).trans (by rw [← hexponent]; rfl))

theorem pack_partial (h : Canonical r t) (hle : t ≤ 971) (hpartial : r < 2 ^ 52) :
    pack .binary64 (.finite .positive r t h.pos) =
      packComponents .binary64 .positive 0#11 (BitVec.ofNat 52 r) := by
  have hlog : ¬ Nat.log2 r + 1 = 53 := by
    have := (Nat.log2_lt (Nat.ne_of_gt h.pos)).2 hpartial
    omega
  have hfinite : ¬ 2 ^ 11 ≤ (t + 1023 + 52).toNat + 1 := by omega
  exact (if_neg hfinite).trans (if_neg hlog)

theorem units_pack (h : Canonical r t) (hle : t ≤ 971) :
    isFiniteDouble ⟨Float.Model.pack (.finite .positive r t h.pos)⟩ = true ∧
      units ⟨Float.Model.pack (.finite .positive r t h.pos)⟩ = r * 2 ^ (t + 1074).toNat := by
  have hmantissa := h.mantissa
  have hleast := h.least
  rw [isFiniteDouble_iff, units_eq, storedExponent_pack, storedMantissa_pack]
  by_cases hfull : 2 ^ 52 ≤ r
  · rw [pack_full h hle hfull, unpackExponent_packComponents, unpackMantissa_packComponents,
      BitVec.toNat_ofNat, BitVec.toNat_ofNat]
    have hexponent : (t + 1075).toNat % 2 ^ 11 = (t + 1074).toNat + 1 := by omega
    have hstored : 2 ^ 52 + r % 2 ^ 52 = r := by omega
    rw [hexponent, if_neg (Nat.succ_ne_zero _), hstored]
    exact ⟨by omega, rfl⟩
  · have hstored : (BitVec.ofNat 52 r).toNat = r := by
      rw [BitVec.toNat_ofNat]
      omega
    rw [pack_partial h hle (by omega), unpackExponent_packComponents, unpackMantissa_packComponents,
      hstored, h.filled.resolve_left hfull]
    exact ⟨by decide, rfl⟩

end Packing

section Rounding

variable {m : Nat} {e : Int}

theorem targetExponent_binary64 (n : Int) :
    Format.binary64.targetExponent n = max (n - 53) (-1074) := rfl

theorem shiftToTargetExponent_of_lt (hm : m < 2 ^ 53) (he : -1074 ≤ e) (accuracy : Accuracy) :
    shiftToTargetExponent .binary64 m e accuracy =
      (ExtendedMantissa.ofMantissaAndAccuracy m accuracy, e) := by
  have hlog : Nat.log2 m < 53 := by
    by_cases hzero : m = 0
    · rw [hzero, Nat.log2_zero]
      decide
    · exact (Nat.log2_lt hzero).2 hm
  have htarget : Format.binary64.targetExponent (totalExponent m e) ≤ e := by
    rw [targetExponent_binary64, totalExponent]
    omega
  unfold shiftToTargetExponent shiftToExponent
  dsimp only
  rw [Int.toNat_of_nonpos (by omega)]
  simp [HShiftRight.hShiftRight, Nat.repeat]

theorem roundedMantissa_ofMantissaAndAccuracy (m : Nat) (accuracy : Accuracy) :
    (ExtendedMantissa.ofMantissaAndAccuracy m accuracy).roundedMantissa =
      accuracy.roundToNearestEven m := by
  rcases accuracy with _ | (_ | _ | _) <;> rfl

theorem roundToNearestEven_bounds (m : Nat) (accuracy : Accuracy) :
    m ≤ accuracy.roundToNearestEven m ∧ accuracy.roundToNearestEven m ≤ m + 1 := by
  rcases accuracy with _ | (_ | _ | _) <;> simp only [Accuracy.roundToNearestEven] <;> omega

theorem roundWithAccuracy_of_lt {accuracy : Accuracy} (hpos : 0 < m) (he : -1074 ≤ e)
    (hrounded : accuracy.roundToNearestEven m < 2 ^ 53) (s : Sign) :
    roundWithAccuracy .binary64 s m e accuracy =
      .finite s (accuracy.roundToNearestEven m) e
        (Nat.lt_of_lt_of_le hpos (roundToNearestEven_bounds m accuracy).1) := by
  have hle := (roundToNearestEven_bounds m accuracy).1
  have hshift := shiftToTargetExponent_of_lt (Nat.lt_of_le_of_lt hle hrounded) he accuracy
  have hkeep := shiftToTargetExponent_of_lt hrounded he .exact
  unfold roundWithAccuracy
  simp only [hshift, roundedMantissa_ofMantissaAndAccuracy, hkeep]
  exact dif_neg (Nat.ne_of_gt (Nat.lt_of_lt_of_le hpos hle))

theorem roundWithAccuracy_two_pow (he : -1074 ≤ e) (s : Sign) :
    roundWithAccuracy .binary64 s (2 ^ 53) e .exact = .finite s (2 ^ 52) (e + 1) (by decide) := by
  have htarget : Format.binary64.targetExponent (totalExponent (2 ^ 53) e) = e + 1 := by
    rw [targetExponent_binary64, totalExponent, Nat.log2_two_pow]
    omega
  have hshift : shiftToTargetExponent .binary64 (2 ^ 53) e .exact =
      (ExtendedMantissa.ofMantissaAndAccuracy (2 ^ 52) .exact, e + 1) := by
    unfold shiftToTargetExponent shiftToExponent
    dsimp only
    rw [htarget, show (e + 1 - e).toNat = 1 by omega]
    exact Prod.ext (Single.shiftRight_exact (2 ^ 52) 1) rfl
  have hkeep := shiftToTargetExponent_of_lt (m := 2 ^ 52) (e := e + 1) (by decide) (by omega) .exact
  unfold roundWithAccuracy
  simp only [hshift, roundedMantissa_ofMantissaAndAccuracy, Accuracy.roundToNearestEven, hkeep]
  exact dif_neg (by decide)

end Rounding

/-- A number `r * 2 ^ t` is the rounded reciprocal of `m * 2 ^ e`. -/
structure Reciprocal (m : Nat) (e : Int) (r : Nat) (t : Int) : Prop where
  canonical : Canonical r t
  nonpos : e + t ≤ 0
  /-- It is off by no more than its last place. -/
  upper : r * m ≤ 2 ^ (-(e + t)).toNat + m
  lower : 2 ^ (-(e + t)).toNat ≤ r * m + m
  /-- It reaches the same powers of two, from one on, as the exact reciprocal. -/
  reach : ∀ p : Nat, 0 ≤ p + t → (2 ^ p ≤ r ↔ 2 ^ p * m ≤ 2 ^ (-(e + t)).toNat)
  /-- The last place is small against the exact reciprocal. -/
  last_place : 2 ^ 52 * m ≤ 2 ^ (-(e + t)).toNat ∨ t = -1074

section Dividing

variable {m : Nat} {e : Int}

def one : UnpackedFloat := .finite .positive (2 ^ 52) (-52) (by decide)

def quotientExponent (m : Nat) (e : Int) : Int := max (-(Nat.log2 m : Int) - e - 53) (-1074)

theorem log2_le (h : Canonical m e) : Nat.log2 m ≤ 52 :=
  Nat.le_of_lt_succ ((Nat.log2_lt (Nat.ne_of_gt h.pos)).2 h.mantissa)

/-- The reciprocal is a quotient of natural numbers that is rounded. -/
theorem div_one_eq (h : Canonical m e) (hle : e ≤ 971) :
    UnpackedFloat.div .binary64 one (.finite .positive m e h.pos) =
      roundWithAccuracy .binary64 .positive (2 ^ (-(e + quotientExponent m e)).toNat / m)
        (quotientExponent m e)
        (accuracyOfFraction (2 ^ (-(e + quotientExponent m e)).toNat % m) m) := by
  have htarget : Format.binary64.targetExponent
      (totalExponent (2 ^ 52) (-52) - totalExponent m e) = quotientExponent m e := by
    rw [targetExponent_binary64, totalExponent, totalExponent, Nat.log2_two_pow, quotientExponent]
    omega
  have hlog := log2_le h
  have hsmall : quotientExponent m e ≤ -52 - e := by
    unfold quotientExponent
    omega
  have hshift : 52 + (-52 - e - quotientExponent m e).toNat = (-(e + quotientExponent m e)).toNat := by
    omega
  have hcore : divCore .binary64 (2 ^ 52) (-52) m e = (2 ^ (-(e + quotientExponent m e)).toNat / m,
      quotientExponent m e, accuracyOfFraction (2 ^ (-(e + quotientExponent m e)).toNat % m) m) := by
    unfold divCore
    simp only [htarget, min_eq_right hsmall, Nat.shiftLeft_eq, ← pow_add, hshift]
  change (let (q, t, accuracy) := divCore .binary64 (2 ^ 52) (-52) m e
    roundWithAccuracy .binary64 (Sign.positive / Sign.positive) q t accuracy) = _
  rw [hcore]
  rfl

theorem rounded_quotient_bounds {n r q : Nat} (hm : 0 < m) (hq : q = n / m) (hlo : q ≤ r)
    (hhi : r ≤ q + 1) : r * m ≤ n + m ∧ n ≤ r * m + m := by
  have hfloor : q * m ≤ n := hq ▸ Nat.div_mul_le_self n m
  have hceil : n < (q + 1) * m := (Nat.div_lt_iff_lt_mul hm).1 (hq ▸ Nat.lt_succ_self _)
  have hr : q * m ≤ r * m := Nat.mul_le_mul_right m hlo
  have hr' : r * m ≤ (q + 1) * m := Nat.mul_le_mul_right m hhi
  rw [Nat.add_mul, Nat.one_mul] at hceil hr'
  omega

/-- The quotient by a number above a power of two is not next to the power of two above it. -/
theorem quotient_lt {l : Nat} (hl : l ≤ 52) (hlo : 2 ^ l < m) : 2 ^ (l + 53) / m + 1 < 2 ^ 53 := by
  have hpow : 2 ^ l ≤ 2 ^ 52 := Nat.pow_le_pow_right (by decide) hl
  have hbelow : 2 ^ (l + 53) < (2 ^ 53 - 1) * m := by
    rw [pow_add]
    omega
  have hlt := (Nat.div_lt_iff_lt_mul (Nat.lt_of_le_of_lt (Nat.zero_le _) hlo)).2 hbelow
  omega

theorem reciprocal_two_pow {l : Nat} (hl : l ≤ 52) (hle : -1074 ≤ -(l : Int) - e - 52) :
    Reciprocal (2 ^ l) e (2 ^ 52) (-(l : Int) - e - 52) where
  canonical := ⟨by decide, by decide, hle, .inl le_rfl⟩
  nonpos := by omega
  upper := by
    rw [show (-(e + (-(l : Int) - e - 52))).toNat = 52 + l by omega, pow_add]
    exact Nat.le_add_right _ _
  lower := by
    rw [show (-(e + (-(l : Int) - e - 52))).toNat = 52 + l by omega, pow_add]
    exact Nat.le_add_right _ _
  reach := fun p _ => by
    rw [show (-(e + (-(l : Int) - e - 52))).toNat = 52 + l by omega, pow_add]
    exact (Nat.mul_le_mul_right_iff (Nat.two_pow_pos l)).symm
  last_place := .inl (by
    rw [show (-(e + (-(l : Int) - e - 52))).toNat = 52 + l by omega, pow_add])

/-- A quotient that fills the mantissa and is rounded to at most the next integer is a reciprocal. -/
theorem reciprocal_of_full {l r : Nat} (hl : l ≤ 52) (hlo : 2 ^ l < m) (hhi : m < 2 ^ (l + 1))
    (hle : -1074 ≤ -(l : Int) - e - 53) (hr : 2 ^ (l + 53) / m ≤ r) (hr' : r ≤ 2 ^ (l + 53) / m + 1) :
    Reciprocal m e r (-(l : Int) - e - 53) := by
  have hexponent : (-(e + (-(l : Int) - e - 53))).toNat = l + 53 := by omega
  have hm : 0 < m := Nat.lt_of_le_of_lt (Nat.zero_le _) hlo
  have hfull : 2 ^ 52 * m ≤ 2 ^ (l + 53) := by
    have hpow : 2 ^ (l + 53) = 2 ^ 52 * 2 ^ (l + 1) := by ring
    rw [hpow]
    exact Nat.mul_le_mul_left _ hhi.le
  have hquotient : 2 ^ 52 ≤ 2 ^ (l + 53) / m := (Nat.le_div_iff_mul_le hm).2 hfull
  have hlt := quotient_lt hl hlo
  obtain ⟨hupper, hlower⟩ := rounded_quotient_bounds hm rfl hr hr'
  refine ⟨⟨by omega, by omega, hle, .inl (by omega)⟩, by omega, ?_, ?_, fun p _ => ?_, .inl ?_⟩
  · rw [hexponent]
    exact hupper
  · rw [hexponent]
    exact hlower
  · rw [hexponent, ← Nat.le_div_iff_mul_le hm]
    refine ⟨fun hp => ?_, fun hp => hp.trans hr⟩
    -- the power is not the one that the mantissa would have to be rounded up to
    have hp53 : p < 53 := (Nat.pow_lt_pow_iff_right (by decide)).1 (show 2 ^ p < 2 ^ 53 by omega)
    exact (Nat.pow_le_pow_right (by decide) (by omega)).trans hquotient
  · rw [hexponent]
    exact hfull

/-- A quotient with the least exponent is rounded to a number that is far below one. -/
theorem reciprocal_of_least {l r : Nat} (hl : l ≤ 52) (hlo : 2 ^ l ≤ m) (hhi : m < 2 ^ (l + 1))
    (hle : e ≤ 971) (hleast : -(l : Int) - e - 53 < -1074)
    (hr : 2 ^ (-(e + -1074)).toNat / m ≤ r) (hr' : r ≤ 2 ^ (-(e + -1074)).toNat / m + 1) :
    Reciprocal m e r (-1074) := by
  have hm : 0 < m := Nat.lt_of_lt_of_le (Nat.two_pow_pos l) hlo
  have hquotient : 2 ^ (-(e + -1074)).toNat / m ≤ 2 ^ 52 := by
    rw [Nat.div_le_iff_le_mul_add_pred hm]
    have hpow : 2 ^ (-(e + -1074)).toNat ≤ 2 ^ (52 + l) := Nat.pow_le_pow_right (by decide) (by omega)
    have hmul : 2 ^ 52 * 2 ^ l ≤ 2 ^ 52 * m := Nat.mul_le_mul_left _ hlo
    rw [pow_add] at hpow
    rw [Nat.mul_comm m]
    omega
  have hpos : 1 ≤ 2 ^ (-(e + -1074)).toNat / m := by
    have hpow : 2 ^ (l + 1) ≤ 2 ^ (-(e + -1074)).toNat := Nat.pow_le_pow_right (by decide) (by omega)
    rw [Nat.le_div_iff_mul_le hm]
    omega
  obtain ⟨hupper, hlower⟩ := rounded_quotient_bounds hm rfl hr hr'
  refine ⟨⟨by omega, by omega, le_rfl, .inr rfl⟩, by omega, hupper, hlower, fun p hp => ?_, .inr rfl⟩
  -- neither number comes near a power of two with such an exponent
  have hrounded : r < 2 ^ p :=
    calc r < 2 ^ 53 := by omega
      _ ≤ 2 ^ p := Nat.pow_le_pow_right (by decide) (by omega)
  have hexact : 2 ^ (-(e + -1074)).toNat < 2 ^ p * m :=
    calc 2 ^ (-(e + -1074)).toNat < 2 ^ p := Nat.pow_lt_pow_right (by decide) (by omega)
      _ ≤ 2 ^ p * m := Nat.le_mul_of_pos_right _ hm
  exact iff_of_false (Nat.not_le.2 hrounded) (Nat.not_le.2 hexact)

/-- The reciprocal of a finite positive number is rounded. -/
theorem exists_reciprocal (h : Canonical m e) (hle : e ≤ 971) :
    ∃ r t, ∃ hr : Reciprocal m e r t, UnpackedFloat.div .binary64 one (.finite .positive m e h.pos) =
      .finite .positive r t hr.canonical.pos := by
  have hl := log2_le h
  have hlo : 2 ^ Nat.log2 m ≤ m := Nat.log2_self_le (Nat.ne_of_gt h.pos)
  have hhi : m < 2 ^ (Nat.log2 m + 1) := Nat.lt_log2_self
  rw [div_one_eq h hle]
  obtain ⟨l, hlog⟩ : ∃ l, Nat.log2 m = l := ⟨_, rfl⟩
  rw [hlog] at hl hlo hhi
  by_cases hleast : -1074 ≤ -(l : Int) - e - 53
  · have hexponent : quotientExponent m e = -(l : Int) - e - 53 := by
      unfold quotientExponent
      omega
    have hshift : (-(e + (-(l : Int) - e - 53))).toNat = l + 53 := by omega
    rw [hexponent, hshift]
    rcases Nat.eq_or_lt_of_le hlo with rfl | hlt
    · have hdiv : 2 ^ (l + 53) / 2 ^ l = 2 ^ 53 := by
        rw [pow_add, Nat.mul_div_cancel_left _ (Nat.two_pow_pos l)]
      have hmod : accuracyOfFraction (2 ^ (l + 53) % 2 ^ l) (2 ^ l) = .exact := by
        rw [pow_add, Nat.mul_mod_right]
        rfl
      have hexact : (-(l : Int) - e - 53) + 1 = -(l : Int) - e - 52 := by omega
      rw [hdiv, hmod, roundWithAccuracy_two_pow hleast]
      exact ⟨2 ^ 52, _, hexact ▸ reciprocal_two_pow hl (by omega), rfl⟩
    · obtain ⟨hr, hr'⟩ := roundToNearestEven_bounds (2 ^ (l + 53) / m)
        (accuracyOfFraction (2 ^ (l + 53) % m) m)
      have hreciprocal := reciprocal_of_full hl hlt hhi hleast hr hr'
      have hpos : 0 < 2 ^ (l + 53) / m := Nat.div_pos (hhi.le.trans
        (Nat.pow_le_pow_right (by decide) (by omega))) h.pos
      exact ⟨_, _, hreciprocal,
        roundWithAccuracy_of_lt hpos hleast hreciprocal.canonical.mantissa .positive⟩
  · have hexponent : quotientExponent m e = -1074 := by
      unfold quotientExponent
      omega
    rw [hexponent]
    obtain ⟨hr, hr'⟩ := roundToNearestEven_bounds (2 ^ (-(e + -1074)).toNat / m)
      (accuracyOfFraction (2 ^ (-(e + -1074)).toNat % m) m)
    have hreciprocal := reciprocal_of_least hl hlo hhi hle (by omega) hr hr'
    have hpos : 0 < 2 ^ (-(e + -1074)).toNat / m := Nat.div_pos (hhi.le.trans
      (Nat.pow_le_pow_right (by decide) (by omega))) h.pos
    exact ⟨_, _, hreciprocal,
      roundWithAccuracy_of_lt hpos le_rfl hreciprocal.canonical.mantissa .positive⟩

end Dividing

/-- What a finite positive number stands for. -/
def value (x : Float) : ℚ := units x / unitsPerOne

section Values

variable {m r : Nat} {e t : Int}

theorem unitsPerOne_cast : (unitsPerOne : ℚ) = 2 ^ (1074 : Int) := by
  -- with a name for the exponent the power is not computed
  obtain ⟨n, hn⟩ : ∃ n : Nat, n = 1074 := ⟨_, rfl⟩
  unfold unitsPerOne
  rw [← hn, Nat.pow_eq, Nat.cast_pow, Nat.cast_ofNat, ← zpow_natCast, hn, Nat.cast_ofNat]

theorem value_eq {x : Float} (hle : -1074 ≤ e) (h : units x = m * 2 ^ (e + 1074).toNat) :
    value x = m * 2 ^ e := by
  have hexponent : ((e + 1074).toNat : Int) = e + 1074 := Int.toNat_of_nonneg (by omega)
  rw [value, h, unitsPerOne_cast, Nat.cast_mul, Nat.cast_pow, Nat.cast_ofNat, ← zpow_natCast, hexponent,
    zpow_add₀ two_ne_zero, mul_div_assoc, mul_div_cancel_right₀ _ (zpow_ne_zero _ two_ne_zero)]

namespace Reciprocal

theorem two_zpow_mul (h : Reciprocal m e r t) :
    (2 : ℚ) ^ (-(e + t)).toNat * 2 ^ t * 2 ^ e = 1 := by
  have hexponent : ((-(e + t)).toNat : Int) = -(e + t) :=
    Int.toNat_of_nonneg (by have := h.nonpos; omega)
  rw [← zpow_natCast, hexponent, ← zpow_add₀ two_ne_zero, ← zpow_add₀ two_ne_zero,
    show -(e + t) + t + e = 0 by ring, zpow_zero]

/-- The rounded reciprocal reaches a power of two if and only if the exact one does. -/
theorem two_pow_le_iff (h : Reciprocal m e r t) (k : Nat) :
    (2 : ℚ) ^ k ≤ r * 2 ^ t ↔ m * 2 ^ e ≤ (1 : ℚ) / 2 ^ k := by
  have hone := h.two_zpow_mul
  have ht : (0 : ℚ) < 2 ^ t := zpow_pos two_pos t
  have he : (0 : ℚ) < 2 ^ e := zpow_pos two_pos e
  rw [le_div_iff₀ (by positivity)]
  by_cases hk : t ≤ k
  · obtain ⟨p, hp⟩ : ∃ p : Nat, (k : Int) = p + t := ⟨(k - t).toNat, by omega⟩
    have hsplit : (2 : ℚ) ^ k = 2 ^ p * 2 ^ t := by
      rw [← zpow_natCast, hp, zpow_add₀ two_ne_zero, zpow_natCast]
    have hreach : (2 : ℚ) ^ p ≤ r ↔ (2 : ℚ) ^ p * m ≤ 2 ^ (-(e + t)).toNat := by
      exact_mod_cast h.reach p (by omega)
    rw [hsplit, mul_le_mul_iff_left₀ ht, hreach, ← mul_le_mul_iff_left₀ (mul_pos ht he)]
    rw [← mul_assoc, ← mul_assoc, hone]
    exact iff_of_eq (congrArg (· ≤ 1) (by ring))
  · -- the last place of the reciprocal alone is larger
    have hpow : (2 : ℚ) ^ k ≤ 2 ^ t := by
      rw [← zpow_natCast]
      exact zpow_le_zpow_right₀ one_le_two (by omega)
    have hr : (1 : ℚ) ≤ r := by exact_mod_cast h.canonical.pos
    have hm : (m : ℚ) ≤ 2 ^ (-(e + t)).toNat := by
      have hreach := (h.reach 0 (by omega)).1 h.canonical.pos
      rw [Nat.pow_zero, Nat.one_mul] at hreach
      exact_mod_cast hreach
    refine iff_of_true (hpow.trans (le_mul_of_one_le_left ht.le hr)) ?_
    calc (m : ℚ) * 2 ^ e * 2 ^ k ≤ m * 2 ^ e * 2 ^ t :=
          mul_le_mul_of_nonneg_left hpow (by positivity)
      _ = m * 2 ^ t * 2 ^ e := by ring
      _ ≤ 2 ^ (-(e + t)).toNat * 2 ^ t * 2 ^ e := by gcongr
      _ = 1 := hone

theorem near (h : Reciprocal m e r t) (hm : 0 < m) :
    |(r : ℚ) * 2 ^ t - 1 / ((m : ℚ) * 2 ^ e)| ≤ 1 / ((m : ℚ) * 2 ^ e) / 2 ^ 52 + 1 / 2 ^ 100 := by
  have hone := h.two_zpow_mul
  have hm' : (0 : ℚ) < m := by exact_mod_cast hm
  have ht : (0 : ℚ) < 2 ^ t := zpow_pos two_pos t
  have he : (0 : ℚ) < 2 ^ e := zpow_pos two_pos e
  have hexact : (1 : ℚ) / (m * 2 ^ e) = 2 ^ (-(e + t)).toNat / m * 2 ^ t := by
    rw [← hone]
    field_simp
  have hupper : (r : ℚ) * m ≤ 2 ^ (-(e + t)).toNat + m := by exact_mod_cast h.upper
  have hlower : (2 : ℚ) ^ (-(e + t)).toNat ≤ r * m + m := by exact_mod_cast h.lower
  have hplace : |(r : ℚ) * 2 ^ t - 1 / ((m : ℚ) * 2 ^ e)| ≤ 2 ^ t := by
    have hquotient : |(r : ℚ) - 2 ^ (-(e + t)).toNat / m| ≤ 1 := by
      rw [abs_le, neg_le_sub_iff_le_add, sub_le_iff_le_add, div_le_iff₀ hm', ← sub_le_iff_le_add',
        le_div_iff₀ hm']
      constructor <;> linarith
    rw [hexact, ← sub_mul, abs_mul, abs_of_pos ht]
    exact mul_le_of_le_one_left ht.le hquotient
  refine hplace.trans ?_
  rcases h.last_place with hlarge | rfl
  · have hratio : (1 : ℚ) ≤ 2 ^ (-(e + t)).toNat / m / 2 ^ 52 := by
      rw [le_div_iff₀ (by positivity), le_div_iff₀ hm', one_mul]
      exact_mod_cast hlarge
    calc (2 : ℚ) ^ t ≤ 2 ^ (-(e + t)).toNat / m / 2 ^ 52 * 2 ^ t := le_mul_of_one_le_left ht.le hratio
      _ = 1 / (m * 2 ^ e) / 2 ^ 52 := by
        rw [hexact]
        ring
      _ ≤ 1 / (m * 2 ^ e) / 2 ^ 52 + 1 / 2 ^ 100 := le_add_of_nonneg_right (by positivity)
  · have hleast : (2 : ℚ) ^ (-1074 : Int) ≤ 1 / 2 ^ 100 :=
      calc (2 : ℚ) ^ (-1074 : Int) ≤ 2 ^ (-100 : Int) := zpow_le_zpow_right₀ one_le_two (by decide)
        _ = 1 / 2 ^ 100 := by norm_num
    exact hleast.trans (le_add_of_nonneg_left (by positivity))

end Reciprocal

/-- A canonical number below a power of two is below it by one at least, if the power is large. -/
theorem Canonical.add_one_le (h : Canonical r t) {k : Nat} (hk : 54 ≤ k)
    (hlt : (r : ℚ) * 2 ^ t < 2 ^ k) : (r : ℚ) * 2 ^ t + 1 ≤ 2 ^ k := by
  rcases le_or_gt 0 t with hle | hneg
  · obtain ⟨n, rfl⟩ := Int.eq_ofNat_of_zero_le hle
    rw [zpow_natCast] at hlt ⊢
    have hnat : r * 2 ^ n < 2 ^ k := by exact_mod_cast hlt
    exact_mod_cast Nat.succ_le_of_lt hnat
  · have hr : (r : ℚ) ≤ 2 ^ 53 := by exact_mod_cast h.mantissa.le
    have ht : (2 : ℚ) ^ t ≤ 1 := zpow_le_one_of_nonpos₀ one_le_two hneg.le
    calc (r : ℚ) * 2 ^ t + 1 ≤ 2 ^ 53 * 1 + 1 := by gcongr
      _ ≤ 2 ^ 54 := by norm_num
      _ ≤ 2 ^ k := pow_le_pow_right₀ one_le_two hk

end Values

/-- A finite positive number is the reciprocal of a number that is too small to have one, or has one that
is near and reaches the same powers of two. -/
theorem reciprocal_spec {x : Float} (hpos : 0.0 < x) (hfinite : isFiniteDouble x = true) :
    0 < value x ∧ (isFiniteDouble (1.0 / x) = false ∧ value x ≤ 1 / 2 ^ 64 ∨
      isFiniteDouble (1.0 / x) = true ∧
        (∀ k : Nat, 2 ^ k ≤ value (1.0 / x) ↔ value x ≤ 1 / 2 ^ k) ∧
        (∀ k : Nat, 54 ≤ k → value (1.0 / x) < 2 ^ k → value (1.0 / x) + 1 ≤ 2 ^ k) ∧
        |value (1.0 / x) - 1 / value x| ≤ 1 / value x / 2 ^ 52 + 1 / 2 ^ 100) := by
  obtain ⟨m, e, h, hle, hunpack, hunits⟩ := canonical_of_positive hpos hfinite
  obtain ⟨r, t, hr, hdiv⟩ := exists_reciprocal h hle
  have hresult : 1.0 / x = ⟨Float.Model.pack (.finite .positive r t hr.canonical.pos)⟩ := by
    have hmodel : 1.0 / x =
        ⟨Float.Model.pack (UnpackedFloat.div .binary64 one x.toModel.unpack)⟩ := rfl
    rw [hmodel, hunpack, hdiv]
  have hm : (0 : ℚ) < m := by exact_mod_cast h.pos
  have he : (0 : ℚ) < 2 ^ e := zpow_pos two_pos e
  rw [hresult, value_eq h.least hunits]
  refine ⟨mul_pos hm he, ?_⟩
  by_cases hlarge : 972 ≤ t
  · refine .inl ⟨isFiniteDouble_pack_large hr.canonical hlarge, (hr.two_pow_le_iff 64).1 ?_⟩
    have hone : (1 : ℚ) ≤ r := by exact_mod_cast hr.canonical.pos
    calc (2 : ℚ) ^ 64 = 2 ^ (64 : Int) := (zpow_natCast 2 64).symm
      _ ≤ 2 ^ t := zpow_le_zpow_right₀ one_le_two (by omega)
      _ ≤ r * 2 ^ t := le_mul_of_one_le_left (zpow_pos two_pos t).le hone
  · obtain ⟨hfinite', hunits'⟩ := units_pack hr.canonical (by omega)
    rw [value_eq hr.canonical.least hunits']
    exact .inr ⟨hfinite', hr.two_pow_le_iff, fun k hk => hr.canonical.add_one_le hk, hr.near h.pos⟩

end FieldCircuit.Double
