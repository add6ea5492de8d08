import FieldCircuit.Proofs.Decimal.Rounding
import FieldCircuit.Proofs.Text.Number
import Mathlib.Data.List.TakeWhile

/-!
# The shortest decimal lies in the interval

Decimals are compared with the interval of a number in exact arithmetic, so that one that is found on a
grid lies in the interval. Nine digits are enough to find one: then the grid is finer than the gap below
the number. Zeros at the end are left out afterwards, which does not change the value.
-/

namespace FieldCircuit.Decimal

def Ratio.value (r : Ratio) : ℚ := r.num / r.den

namespace Ratio

theorem den_scaled2_pos (x : Nat) (e : Int) : 0 < (scaled2 x e).den := by
  cases e with
  | ofNat n => exact Nat.one_pos
  | negSucc n => exact Nat.two_pow_pos _

theorem value_scaled2 (x : Nat) (e : Int) : (scaled2 x e).value = x * 2 ^ e := by
  cases e with
  | ofNat n =>
      change ((x * 2 ^ n : Nat) : ℚ) / ((1 : Nat) : ℚ) = x * 2 ^ (n : Int)
      push_cast
      rw [div_one, zpow_natCast]
  | negSucc n =>
      change (x : ℚ) / ((2 ^ (n + 1) : Nat) : ℚ) = _
      rw [zpow_negSucc, div_eq_mul_inv]
      push_cast
      rfl

theorem den_over10_pos {r : Ratio} (h : 0 < r.den) (e : Int) : 0 < (r.over10 e).den := by
  cases e with
  | ofNat n => exact Nat.mul_pos h (Nat.pow_pos (by decide))
  | negSucc n => exact h

theorem value_over10 (r : Ratio) (e : Int) : (r.over10 e).value = r.value / 10 ^ e := by
  cases e with
  | ofNat n =>
      change (r.num : ℚ) / ((r.den * 10 ^ n : Nat) : ℚ) = r.num / r.den / 10 ^ (n : Int)
      push_cast
      rw [zpow_natCast, div_div]
  | negSucc n =>
      change ((r.num * 10 ^ (n + 1) : Nat) : ℚ) / (r.den : ℚ) = r.num / r.den / _
      rw [zpow_negSucc, div_inv_eq_mul]
      push_cast
      ring

variable {r : Ratio}

theorem value_le_iff (h : 0 < r.den) (a : Nat) : r.value ≤ a ↔ r.num ≤ a * r.den := by
  rw [value, div_le_iff₀ (by exact_mod_cast h)]
  norm_cast

theorem value_lt_iff (h : 0 < r.den) (a : Nat) : r.value < a ↔ r.num < a * r.den := by
  rw [value, div_lt_iff₀ (by exact_mod_cast h)]
  norm_cast

theorem le_value_iff (h : 0 < r.den) (a : Nat) : (a : ℚ) ≤ r.value ↔ a * r.den ≤ r.num := by
  rw [← not_lt, value_lt_iff h, not_lt]

theorem lt_value_iff (h : 0 < r.den) (a : Nat) : (a : ℚ) < r.value ↔ a * r.den < r.num := by
  rw [← not_le, value_le_iff h, not_le]

theorem div_le_value (h : 0 < r.den) : ((r.num / r.den : Nat) : ℚ) ≤ r.value :=
  (le_value_iff h _).2 (Nat.div_mul_le_self _ _)

theorem value_lt_div_succ (h : 0 < r.den) : r.value < ((r.num / r.den + 1 : Nat) : ℚ) :=
  (value_lt_iff h _).2 ((Nat.div_lt_iff_lt_mul h).1 (Nat.lt_succ_self _))

end Ratio

theorem roundDiv_cases (tie : Tie) (num den : Nat) :
    roundDiv tie num den = num / den ∨ roundDiv tie num den = num / den + 1 := by
  simp only [roundDiv]
  split_ifs
  · exact .inl rfl
  · exact .inr rfl
  · cases tie with
    | toEven =>
        change num / den + num / den % 2 = _ ∨ num / den + num / den % 2 = _
        omega
    | up => exact .inr rfl

namespace Interval

/-- The interval has room on both sides of the number, and does not reach zero. -/
structure Regular (i : Interval) : Prop where
  below_pos : 0 < i.below
  above_pos : 0 < i.above
  below_lt : i.below < i.value

variable {i : Interval} {unit : Int}

/-- The number, and the ends of its interval, on the grid of multiples of `10 ^ unit`. -/
def onGrid (i : Interval) (unit : Int) (quarters : Nat) : Ratio :=
  (Ratio.scaled2 quarters i.exponent).over10 unit

theorem den_onGrid_pos (i : Interval) (unit : Int) (quarters : Nat) :
    0 < (i.onGrid unit quarters).den :=
  Ratio.den_over10_pos (Ratio.den_scaled2_pos _ _) _

theorem value_onGrid (i : Interval) (unit : Int) (quarters : Nat) :
    (i.onGrid unit quarters).value = quarters * 2 ^ i.exponent / 10 ^ unit := by
  rw [onGrid, Ratio.value_over10, Ratio.value_scaled2]

theorem value_onGrid_lt {a b : Nat} (h : a < b) (i : Interval) (unit : Int) :
    (i.onGrid unit a).value < (i.onGrid unit b).value := by
  have hlt : (a : ℚ) < b := by exact_mod_cast h
  rw [value_onGrid, value_onGrid]
  gcongr

/-- A point of the grid is in the interval if it is between the ends on the grid. -/
theorem contains_of_onGrid {d : Nat} (hlo : (i.onGrid unit (i.value - i.below)).value ≤ d)
    (hhi : d ≤ (i.onGrid unit (i.value + i.above)).value)
    (hopen : i.closed = false → (i.onGrid unit (i.value - i.below)).value < d ∧
      d < (i.onGrid unit (i.value + i.above)).value) : i.Contains (d * 10 ^ unit) := by
  have hunit : (0 : ℚ) < 10 ^ unit := by positivity
  rw [value_onGrid] at hlo hhi hopen
  rw [value_onGrid] at hopen
  rw [div_le_iff₀ hunit] at hlo
  rw [le_div_iff₀ hunit] at hhi
  rw [div_lt_iff₀ hunit, lt_div_iff₀ hunit] at hopen
  exact ⟨hlo, hhi, hopen⟩

def floor (i : Interval) (unit : Int) : Nat :=
  (i.onGrid unit i.value).num / (i.onGrid unit i.value).den

theorem floor_le (i : Interval) (unit : Int) : (i.floor unit : ℚ) ≤ (i.onGrid unit i.value).value :=
  Ratio.div_le_value (i.den_onGrid_pos unit i.value)

theorem lt_floor_succ (i : Interval) (unit : Int) :
    (i.onGrid unit i.value).value < ((i.floor unit + 1 : Nat) : ℚ) :=
  Ratio.value_lt_div_succ (i.den_onGrid_pos unit i.value)

def Passes (i : Interval) (unit : Int) (d : Nat) : Prop :=
  let lo := i.onGrid unit (i.value - i.below)
  if i.closed then lo.num ≤ d * lo.den else lo.num < d * lo.den

def Stays (i : Interval) (unit : Int) (d : Nat) : Prop :=
  let hi := i.onGrid unit (i.value + i.above)
  if i.closed then d * hi.den ≤ hi.num else d * hi.den < hi.num

instance (d : Nat) : Decidable (i.Passes unit d) :=
  inferInstanceAs (Decidable (if i.closed then _ else _))

instance (d : Nat) : Decidable (i.Stays unit d) :=
  inferInstanceAs (Decidable (if i.closed then _ else _))

theorem gridPoint?_eq (i : Interval) (unit : Int) : i.gridPoint? unit =
    if i.Passes unit (i.floor unit) && i.Stays unit (i.floor unit + 1) then
      some (roundDiv .up (i.onGrid unit i.value).num (i.onGrid unit i.value).den)
    else if i.Passes unit (i.floor unit) then some (i.floor unit)
    else if i.Stays unit (i.floor unit + 1) then some (i.floor unit + 1)
    else none := rfl

theorem passes_iff {d : Nat} : i.Passes unit d ↔ (i.onGrid unit (i.value - i.below)).value ≤ d ∧
    (i.closed = false → (i.onGrid unit (i.value - i.below)).value < d) := by
  have hden := i.den_onGrid_pos unit (i.value - i.below)
  rw [Ratio.value_le_iff hden, Ratio.value_lt_iff hden, Passes]
  cases i.closed with
  | true => simp
  | false => simpa using fun h => Nat.le_of_lt h

theorem stays_iff {d : Nat} : i.Stays unit d ↔ d ≤ (i.onGrid unit (i.value + i.above)).value ∧
    (i.closed = false → d < (i.onGrid unit (i.value + i.above)).value) := by
  have hden := i.den_onGrid_pos unit (i.value + i.above)
  rw [Ratio.le_value_iff hden, Ratio.lt_value_iff hden, Stays]
  cases i.closed with
  | true => simp
  | false => simpa using fun h => Nat.le_of_lt h

/-- What is found on a grid is one of the neighbours of the number, on the right side of the end next
to it. -/
theorem gridPoint?_cases {d : Nat} (h : i.gridPoint? unit = some d) :
    (d = i.floor unit ∧ i.Passes unit d) ∨ (d = i.floor unit + 1 ∧ i.Stays unit d) := by
  rw [gridPoint?_eq] at h
  split_ifs at h with hboth hdown hup
  · rw [Bool.and_eq_true, decide_eq_true_iff, decide_eq_true_iff] at hboth
    obtain rfl := Option.some.inj h
    rcases roundDiv_cases .up (i.onGrid unit i.value).num (i.onGrid unit i.value).den with hd | hd
    · exact .inl ⟨hd, hd ▸ hboth.1⟩
    · exact .inr ⟨hd, hd ▸ hboth.2⟩
  · obtain rfl := Option.some.inj h
    exact .inl ⟨rfl, hdown⟩
  · obtain rfl := Option.some.inj h
    exact .inr ⟨rfl, hup⟩

theorem contains_gridPoint (hi : i.Regular) {d : Nat} (h : i.gridPoint? unit = some d) :
    i.Contains (d * 10 ^ unit) := by
  have hbelow := value_onGrid_lt (Nat.sub_lt_of_pos_le hi.below_pos hi.below_lt.le) i unit
  have habove := value_onGrid_lt (Nat.lt_add_of_pos_right (n := i.value) hi.above_pos) i unit
  rcases gridPoint?_cases h with ⟨hd, hpasses⟩ | ⟨hd, hstays⟩
  · obtain ⟨hlo, hopen⟩ := passes_iff.1 hpasses
    have hhi : (d : ℚ) < (i.onGrid unit (i.value + i.above)).value := by
      rw [hd]
      exact (i.floor_le unit).trans_lt habove
    exact contains_of_onGrid hlo hhi.le fun hclosed => ⟨hopen hclosed, hhi⟩
  · obtain ⟨hhi, hopen⟩ := stays_iff.1 hstays
    have hlo : (i.onGrid unit (i.value - i.below)).value < (d : ℚ) := by
      rw [hd]
      exact hbelow.trans (i.lt_floor_succ unit)
    exact contains_of_onGrid hlo.le hhi fun hclosed => ⟨hlo, hopen hclosed⟩

/-- On a grid that is at least as fine as the gap below the number there is a point of the interval. -/
theorem exists_gridPoint (hi : i.Regular) (hfine : (10 : ℚ) ^ unit ≤ i.below * 2 ^ i.exponent) :
    ∃ d, i.gridPoint? unit = some d := by
  have hunit : (0 : ℚ) < 10 ^ unit := by positivity
  have hlo : (i.onGrid unit (i.value - i.below)).value < i.floor unit := by
    have hgap : (i.onGrid unit (i.value - i.below)).value ≤ (i.onGrid unit i.value).value - 1 := by
      rw [value_onGrid, value_onGrid, Nat.cast_sub hi.below_lt.le, sub_mul, sub_div]
      exact sub_le_sub_left ((one_le_div hunit).2 hfine) _
    have hfloor := i.lt_floor_succ unit
    push_cast at hfloor
    linarith
  have hpasses : i.Passes unit (i.floor unit) := passes_iff.2 ⟨hlo.le, fun _ => hlo⟩
  rw [gridPoint?_eq]
  split_ifs
  · exact ⟨_, rfl⟩
  · exact ⟨_, rfl⟩

/-- The search ends at the first grid with a point, if there is one within its reach. -/
theorem search_spec {p : Int} {fuel n k : Nat} (hk : k < fuel)
    (h : ∃ d, i.gridPoint? (p - (n + k : Nat)) = some d) :
    i.gridPoint? (i.search p fuel n).2 = some (i.search p fuel n).1 := by
  induction fuel generalizing n k with
  | zero => omega
  | succ fuel ih =>
      cases hn : i.gridPoint? (p - n) with
      | some d => simp only [search, hn]
      | none =>
          simp only [search, hn]
          cases k with
          | zero =>
              obtain ⟨d, hd⟩ := h
              rw [Nat.add_zero, hn] at hd
              cases hd
          | succ k =>
              refine ih (k := k) (by omega) ?_
              rw [Nat.add_right_comm]
              exact h

end Interval

theorem leadingZeros_spec {num den fuel : Nat} (h : den ≤ num * 10 ^ fuel) (start : Nat) :
    ∃ k, leadingZeros num den fuel start = start + k ∧ den ≤ num * 10 ^ k := by
  induction fuel generalizing num start with
  | zero => exact ⟨0, rfl, h⟩
  | succ fuel ih =>
      rw [leadingZeros]
      by_cases hle : den ≤ num
      · exact ⟨0, if_pos hle, by rwa [Nat.pow_zero, Nat.mul_one]⟩
      · rw [if_neg hle]
        have hnext : den ≤ num * 10 * 10 ^ fuel := by rwa [Nat.mul_assoc, ← Nat.pow_succ']
        obtain ⟨k, hk, hden⟩ := ih hnext (start + 1)
        refine ⟨k + 1, by rw [hk]; omega, ?_⟩
        rwa [Nat.pow_succ', ← Nat.mul_assoc]

/-- The power of ten before the first digit is not above the number, unless this is very small. -/
theorem Ratio.pow_point_le {r : Ratio} (hden : 0 < r.den) (hsmall : r.den ≤ r.num * 10 ^ 400) :
    (10 : ℚ) ^ (r.point - 1) ≤ r.value := by
  unfold point
  split
  · rename_i hle
    have hne : r.num / r.den ≠ 0 := (Nat.div_pos hle hden).ne'
    have hpos : 0 < (Nat.toDigits 10 (r.num / r.den)).length := Nat.length_toDigits_pos
    have hcast : ((Nat.toDigits 10 (r.num / r.den)).length : Int) - 1 =
        ((Nat.toDigits 10 (r.num / r.den)).length - 1 : Nat) := by omega
    rw [hcast, zpow_natCast]
    exact le_trans (by exact_mod_cast Text.pow_length_toDigits_le hne) (div_le_value hden)
  · obtain ⟨k, hk, hle⟩ := leadingZeros_spec hsmall 0
    have hexponent : (1 : Int) - (leadingZeros r.num r.den 400 0 : Int) - 1 = -(k : Int) := by
      rw [hk]
      omega
    have hden' : (0 : ℚ) < r.den := by exact_mod_cast hden
    have hpow : (0 : ℚ) < 10 ^ k := by positivity
    rw [hexponent, zpow_neg, zpow_natCast, value, inv_eq_one_div, div_le_div_iff₀ hpow hden', one_mul]
    exact_mod_cast hle

def digitsNumber (ds : List Nat) : Nat := ds.foldl (fun n d => 10 * n + d) 0

theorem digitsNumber_digitList (n : Nat) : digitsNumber (digitList n) = n := by
  rw [digitsNumber, digitList, List.foldl_map]
  exact Nat.ofDigitChars_toDigits (by decide) (by decide)

theorem digitsNumber_append_zeros (ds : List Nat) (k : Nat) :
    digitsNumber (ds ++ List.replicate k 0) = digitsNumber ds * 10 ^ k := by
  induction k with
  | zero => rw [List.replicate_zero, List.append_nil, Nat.pow_zero, Nat.mul_one]
  | succ k ih =>
      rw [List.replicate_succ', ← List.append_assoc, digitsNumber, List.foldl_append, ← digitsNumber,
        ih]
      change 10 * (digitsNumber ds * 10 ^ k) + 0 = _
      rw [Nat.pow_succ]
      ring

theorem lt_ten_of_mem_digitList {n d : Nat} (h : d ∈ digitList n) : d < 10 := by
  obtain ⟨c, hc, rfl⟩ := List.mem_map.1 h
  have hdigit := Text.isDigit_of_mem_toDigits hc
  simp only [Char.isDigit, Bool.and_eq_true, decide_eq_true_eq] at hdigit
  have hnine : c.toNat ≤ '9'.toNat := hdigit.2
  have : '9'.toNat = '0'.toNat + 9 := rfl
  omega

theorem exists_zeros (ds : List Nat) :
    ∃ k, ds = (ds.reverse.dropWhile (· == 0)).reverse ++ List.replicate k 0 := by
  refine ⟨(ds.reverse.takeWhile (· == 0)).length, ?_⟩
  have hzeros : ds.reverse.takeWhile (· == 0) =
      List.replicate (ds.reverse.takeWhile (· == 0)).length 0 :=
    List.eq_replicate_iff.2 ⟨rfl, fun d hd => by simpa using List.mem_takeWhile_imp hd⟩
  have hsplit := List.takeWhile_append_dropWhile (p := (· == 0)) (l := ds.reverse)
  calc ds = (ds.reverse.takeWhile (· == 0) ++ ds.reverse.dropWhile (· == 0)).reverse := by
        rw [hsplit, List.reverse_reverse]
    _ = (ds.reverse.dropWhile (· == 0)).reverse ++ (ds.reverse.takeWhile (· == 0)).reverse :=
        List.reverse_append
    _ = _ := by
        rw [hzeros, List.reverse_replicate]
        simp only [List.length_replicate]

def Digits.value (d : Digits) : ℚ := digitsNumber d.digits * 10 ^ (d.point - d.digits.length)

theorem Parts.regular {bits place m : Nat} (h : Parts bits place m) :
    (Interval.ofBits bits).Regular := by
  have hpos := h.pos
  rw [h.interval]
  refine ⟨?_, Nat.two_pos, ?_⟩
  · change 0 < if m = leadingOne then 1 else 2
    split <;> decide
  · change (if m = leadingOne then 1 else 2) < 4 * m
    split <;> omega

theorem Ratio.den_scaled2_le {x : Nat} {e : Int} (hx : 0 < x) (he : -151 ≤ e) :
    (scaled2 x e).den ≤ (scaled2 x e).num * 10 ^ 400 := by
  have hbound : ∀ n, 151 ≤ n → 2 ^ 151 ≤ 10 ^ n := fun n hn =>
    (Nat.pow_le_pow_left (by decide) 151).trans (Nat.pow_le_pow_right (by decide) hn)
  have hnum : 1 * 10 ^ 400 ≤ (scaled2 x e).num * 10 ^ 400 := by
    refine Nat.mul_le_mul_right _ ?_
    cases e with
    | ofNat n => exact Nat.mul_pos hx (Nat.two_pow_pos n)
    | negSucc n => exact hx
  rw [Nat.one_mul] at hnum
  refine le_trans ?_ hnum
  cases e with
  | ofNat n => exact Nat.one_le_two_pow.trans (hbound 400 (by decide))
  | negSucc n =>
      change 2 ^ (n + 1) ≤ _
      exact (Nat.pow_le_pow_right (by decide) (by omega)).trans (hbound 400 (by decide))

/-- Nine digits suffice. -/
theorem Parts.exists_gridPoint {bits place m : Nat} (h : Parts bits place m) :
    let i := Interval.ofBits bits
    ∃ d, i.gridPoint? ((Ratio.scaled2 i.value i.exponent).point - (1 + 8 : Nat)) = some d := by
  intro i
  have hpoint : (10 : ℚ) ^ ((Ratio.scaled2 i.value i.exponent).point - 1) ≤
      i.value * 2 ^ i.exponent := by
    rw [← Ratio.value_scaled2]
    refine Ratio.pow_point_le (Ratio.den_scaled2_pos _ _) (Ratio.den_scaled2_le ?_ ?_)
    · exact Nat.lt_of_le_of_lt (Nat.zero_le _) h.regular.below_lt
    · change -151 ≤ (Interval.ofBits bits).exponent
      rw [h.interval]
      simp only
      omega
  have hvalue : (i.value : ℚ) ≤ 10 ^ 8 := by
    have hm := h.lt
    have hone : leadingOne = 2 ^ 23 := rfl
    have hle : i.value ≤ 10 ^ 8 := by
      change (Interval.ofBits bits).value ≤ _
      rw [h.interval]
      simp only
      omega
    exact_mod_cast hle
  have hbelow : (1 : ℚ) ≤ i.below := by exact_mod_cast h.regular.below_pos
  refine Interval.exists_gridPoint h.regular ?_
  have hsplit : (10 : ℚ) ^ ((Ratio.scaled2 i.value i.exponent).point - 1) =
      10 ^ ((Ratio.scaled2 i.value i.exponent).point - (1 + 8 : Nat)) * 10 ^ 8 := by
    rw [← zpow_natCast, ← zpow_add₀ (by norm_num)]
    congr 1
    push_cast
    ring
  have hunit : (0 : ℚ) < 2 ^ i.exponent := by positivity
  rw [hsplit] at hpoint
  refine le_of_mul_le_mul_right (hpoint.trans ?_) (by norm_num : (0 : ℚ) < 10 ^ 8)
  calc (i.value : ℚ) * 2 ^ i.exponent ≤ 10 ^ 8 * 2 ^ i.exponent := by gcongr
    _ ≤ (i.below * 2 ^ i.exponent) * 10 ^ 8 := by nlinarith

/-- The decimal that is found, without the zeros at its end, has the value that was found. -/
theorem Interval.value_stripped (d : Nat) (unit : Int) :
    Digits.value ⟨((digitList d).reverse.dropWhile (· == 0)).reverse, unit + (digitList d).length⟩ =
      d * 10 ^ unit := by
  obtain ⟨k, hk⟩ := exists_zeros (digitList d)
  have hd := digitsNumber_digitList d
  unfold Digits.value
  generalize ((digitList d).reverse.dropWhile (· == 0)).reverse = stripped at hk
  rw [hk] at hd ⊢
  rw [digitsNumber_append_zeros] at hd
  have hexponent : unit + ((stripped ++ List.replicate k 0).length : Int) - stripped.length = k + unit := by
    rw [List.length_append, List.length_replicate]
    push_cast
    ring
  rw [hexponent, zpow_add₀ (by norm_num), zpow_natCast, ← hd]
  push_cast
  ring

/-- The shortest decimal lies in the interval of the number. -/
theorem contains_shortest {bits : Nat} (hpos : 0 < bits) (hlt : bits < infinityBits) :
    (Interval.ofBits bits).Contains (shortest bits).value := by
  obtain ⟨place, m, h⟩ := exists_parts hpos hlt
  have hreach : 8 < 20 := by decide
  have hfound := Interval.search_spec hreach h.exists_gridPoint
  rw [shortest, Interval.value_stripped]
  exact Interval.contains_gridPoint h.regular hfound

theorem lt_ten_of_mem_shortest {bits d : Nat} (h : d ∈ (shortest bits).digits) : d < 10 := by
  have hmem := List.mem_reverse.1 h
  exact lt_ten_of_mem_digitList (List.mem_reverse.1 ((List.dropWhile_sublist _).subset hmem))

end FieldCircuit.Decimal
