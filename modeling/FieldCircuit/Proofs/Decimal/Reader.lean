import FieldCircuit.Decimal.Layout
import FieldCircuit.Decimal.Reader
import FieldCircuit.Proofs.Decimal.Shortest
import Mathlib

/-!
# Numbers are read back from their texts

The text of a number in the plain layout stands for its shortest decimal, and every decimal of the
interval is read as the number. So a parameter is read back from its text bit by bit, whether it is
finite, infinite or one of the zeros.
-/

namespace FieldCircuit.Decimal

section Digits

theorem toList_digitText (ds : List Nat) : (digitText ds).toList = ds.map Nat.digitChar := by
  rw [digitText, String.toList_ofList]

theorem toList_zeros (n : Nat) : (zeros n).toList = (List.replicate n 0).map Nat.digitChar := by
  rw [zeros, String.toList_ofList, List.map_replicate]
  rfl

theorem isDigit_digitChar {d : Nat} (h : d < 10) : (Nat.digitChar d).isDigit = true := by
  have hall : ∀ d : Fin 10, (Nat.digitChar d).isDigit = true := by decide
  exact hall ⟨d, h⟩

theorem value_digitChar {d : Nat} (h : d < 10) : (Nat.digitChar d).toNat - '0'.toNat = d := by
  have hall : ∀ d : Fin 10, (Nat.digitChar d).toNat - '0'.toNat = d := by decide
  exact hall ⟨d, h⟩

variable {ds : List Nat}

theorem isDigit_of_mem_digitChars (h : ∀ d ∈ ds, d < 10) :
    ∀ c ∈ ds.map Nat.digitChar, c.isDigit = true := by
  intro c hc
  obtain ⟨d, hd, rfl⟩ := List.mem_map.1 hc
  exact isDigit_digitChar (h d hd)

theorem digitsValue_digitChars (h : ∀ d ∈ ds, d < 10) :
    digitsValue (ds.map Nat.digitChar) = digitsNumber ds := by
  have hfold : ∀ n, (ds.map Nat.digitChar).foldl (fun n c => 10 * n + (c.toNat - '0'.toNat)) n =
      ds.foldl (fun n d => 10 * n + d) n := by
    induction ds with
    | nil => exact fun n => rfl
    | cons d ds ih =>
        intro n
        rw [List.map_cons, List.foldl_cons, List.foldl_cons, value_digitChar (h d List.mem_cons_self)]
        exact ih (fun d hd => h d (List.mem_cons_of_mem _ hd)) _
  exact hfold 0

theorem digitsNumber_zeros_append (k : Nat) (ds : List Nat) :
    digitsNumber (List.replicate k 0 ++ ds) = digitsNumber ds := by
  induction k with
  | zero => rfl
  | succ k ih => exact ih

end Digits

theorem spanDigits_append {ds rest : List Char} (h : ∀ c ∈ ds, c.isDigit = true)
    (hrest : ∀ c ∈ rest.head?, c.isDigit = false) : spanDigits (ds ++ rest) = (ds, rest) := by
  have hstop : rest.takeWhile Char.isDigit = [] ∧ rest.dropWhile Char.isDigit = rest := by
    cases rest with
    | nil => exact ⟨rfl, rfl⟩
    | cons c rest =>
        have hc := hrest c rfl
        simp [hc]
  rw [spanDigits, List.takeWhile_append_of_pos h, List.dropWhile_append_of_pos h, hstop.1, hstop.2,
    List.append_nil]

theorem spanDigits_self {ds : List Char} (h : ∀ c ∈ ds, c.isDigit = true) :
    spanDigits ds = (ds, []) := by
  have happend : spanDigits (ds ++ []) = (ds, []) := spanDigits_append h (by rintro c ⟨⟩)
  rwa [List.append_nil] at happend

theorem decimalBits?_point {whole fraction : List Char} (hw : ∀ c ∈ whole, c.isDigit = true)
    (hf : ∀ c ∈ fraction, c.isDigit = true) (hne : whole ≠ []) :
    decimalBits? (whole ++ '.' :: fraction) =
      some (bitsOfDecimal (digitsValue (whole ++ fraction)) (-(fraction.length : Int))) := by
  have hfirst : spanDigits (whole ++ '.' :: fraction) = (whole, '.' :: fraction) :=
    spanDigits_append hw (by rintro c ⟨⟩; rfl)
  simp only [decimalBits?, hfirst, spanDigits_self hf, List.isEmpty_eq_false_iff.2 hne, Bool.false_and,
    Bool.false_eq_true, if_false, exponent?, Option.map_some, zero_sub]

theorem decimalBits?_whole {whole : List Char} (hw : ∀ c ∈ whole, c.isDigit = true) (hne : whole ≠ []) :
    decimalBits? whole = some (bitsOfDecimal (digitsValue whole) 0) := by
  simp only [decimalBits?, spanDigits_self hw, List.isEmpty_eq_false_iff.2 hne, Bool.false_and,
    Bool.false_eq_true, if_false, exponent?, Option.map_some, List.append_nil, List.length_nil,
    Nat.cast_zero, sub_zero]

structure Written (d : Digits) (whole fraction : List Nat) : Prop where
  nonempty : whole ≠ []
  lt_ten : ∀ x ∈ whole ++ fraction, x < 10
  value : (digitsNumber (whole ++ fraction) : ℚ) * 10 ^ (-(fraction.length : Int)) = d.value

theorem written_of_zeros_before {d : Digits} (h : ∀ x ∈ d.digits, x < 10) {k : Nat}
    (hk : d.point = -(k : Int)) : Written d [0] (List.replicate k 0 ++ d.digits) := by
  refine ⟨List.cons_ne_nil _ _, ?_, ?_⟩
  · intro x hx
    rw [List.mem_append, List.mem_singleton, List.mem_append, List.mem_replicate] at hx
    rcases hx with rfl | ⟨-, rfl⟩ | hx
    · decide
    · decide
    · exact h x hx
  · have hzeros : [0] ++ (List.replicate k 0 ++ d.digits) = List.replicate (k + 1) 0 ++ d.digits := rfl
    rw [hzeros, digitsNumber_zeros_append, Digits.value, List.length_append, List.length_replicate, hk]
    congr 2
    push_cast
    ring

theorem written_of_point_inside {d : Digits} (h : ∀ x ∈ d.digits, x < 10) {k : Nat}
    (hk : d.point = k) (hpos : 0 < k) (hinside : k < d.digits.length) :
    Written d (d.digits.take k) (d.digits.drop k) := by
  refine ⟨?_, ?_, ?_⟩
  · intro hnil
    have hlength := congrArg List.length hnil
    rw [List.length_take, List.length_nil] at hlength
    omega
  · rw [List.take_append_drop]
    exact h
  · rw [List.take_append_drop, Digits.value, hk, List.length_drop]
    congr 2
    omega

theorem written_of_zeros_after {d : Digits} (h : ∀ x ∈ d.digits, x < 10) {j : Nat}
    (hj : d.point - d.digits.length = j) (hpos : 0 < d.point) :
    Written d (d.digits ++ List.replicate j 0) [] := by
  refine ⟨?_, ?_, ?_⟩
  · intro hnil
    have hlength := congrArg List.length hnil
    rw [List.length_append, List.length_replicate, List.length_nil] at hlength
    omega
  · intro x hx
    rw [List.append_nil, List.mem_append, List.mem_replicate] at hx
    rcases hx with hx | ⟨-, rfl⟩
    · exact h x hx
    · decide
  · rw [List.append_nil, digitsNumber_append_zeros, Digits.value, hj, zpow_natCast]
    push_cast
    rw [List.length_nil, Nat.cast_zero, neg_zero, zpow_zero, mul_one]

/-- The plain layout of a number consists of digits with at most one point, and has the value of the
number. -/
theorem exists_written {d : Digits} (h : ∀ x ∈ d.digits, x < 10) :
    ∃ whole fraction, Written d whole fraction ∧
      ((fraction = [] ∧ (d.positional false).toList = whole.map Nat.digitChar) ∨
        (d.positional false).toList =
          whole.map Nat.digitChar ++ '.' :: fraction.map Nat.digitChar) := by
  unfold Digits.positional
  simp only
  split
  · rename_i hpoint
    obtain ⟨k, hk⟩ := Int.exists_eq_neg_ofNat hpoint
    refine ⟨_, _, written_of_zeros_before h hk, .inr ?_⟩
    rw [hk, neg_neg, Int.toNat_natCast, String.toList_append, String.toList_append, toList_zeros,
      toList_digitText, List.map_append]
    rfl
  · rename_i hpoint
    have hpos := Int.not_le.1 hpoint
    split
    · rename_i hinside
      obtain ⟨k, hk⟩ := Int.eq_ofNat_of_zero_le hpos.le
      refine ⟨_, _, written_of_point_inside h hk (by omega) (by omega), .inr ?_⟩
      rw [hk, Int.toNat_natCast, String.toList_append, String.toList_append, toList_digitText,
        toList_digitText, List.append_assoc]
      rfl
    · rename_i hinside
      obtain ⟨j, hj⟩ := Int.eq_ofNat_of_zero_le (Int.sub_nonneg.2 (Int.not_lt.1 hinside))
      refine ⟨_, _, written_of_zeros_after h hj hpos, .inl ⟨rfl, ?_⟩⟩
      rw [hj, Int.toNat_natCast, String.toList_append, String.toList_append, toList_zeros,
        toList_digitText, List.map_append]
      exact List.append_nil _

theorem Interval.Contains.bounds {bits : Nat} (hpos : 0 < bits) (hlt : bits < infinityBits) {x : ℚ}
    (hx : (Interval.ofBits bits).Contains x) : (2 : ℚ) ^ (-150 : Int) ≤ x ∧ x < 2 ^ (128 : Int) := by
  obtain ⟨place, m, h⟩ := exists_parts hpos hlt
  rw [h.interval] at hx
  obtain ⟨hlo, hhi, -⟩ := hx
  have hm := h.lt
  have hmpos := h.pos
  have hplace := h.place_le
  have hone : leadingOne = 2 ^ 23 := rfl
  constructor
  · refine le_trans ?_ hlo
    have hquarters : (2 : ℚ) ≤ ((4 * m - if m = leadingOne then 1 else 2 : Nat) : ℚ) := by
      have : 2 ≤ 4 * m - if m = leadingOne then 1 else 2 := by split <;> omega
      exact_mod_cast this
    calc (2 : ℚ) ^ (-150 : Int) = 2 * 2 ^ (-151 : Int) := by norm_num
      _ ≤ 2 * 2 ^ ((place : Int) - 151) := by
          gcongr
          · norm_num
          · omega
      _ ≤ _ := by gcongr
  · refine lt_of_le_of_lt hhi ?_
    have hquarters : ((4 * m + 2 : Nat) : ℚ) < 2 ^ 26 := by
      have : 4 * m + 2 < 2 ^ 26 := by omega
      exact_mod_cast this
    calc ((4 * m + 2 : Nat) : ℚ) * 2 ^ ((place : Int) - 151)
        < 2 ^ 26 * 2 ^ ((place : Int) - 151) := by gcongr
      _ ≤ 2 ^ 26 * 2 ^ (102 : Int) := by
          gcongr
          · norm_num
          · omega
      _ = 2 ^ (128 : Int) := by norm_num

theorem point_le_of_lt {m : Nat} {e : Int} (hm : m ≠ 0) (h : (m : ℚ) * 10 ^ e < 2 ^ (128 : Int)) :
    e + (Nat.toDigits 10 m).length ≤ 50 := by
  by_contra hfar
  have hdigits : (10 : ℚ) ^ ((Nat.toDigits 10 m).length - 1) ≤ m := by
    exact_mod_cast Text.pow_length_toDigits_le hm
  have hlength : 0 < (Nat.toDigits 10 m).length := Nat.length_toDigits_pos
  have hle : (10 : ℚ) ^ (50 : Int) ≤ m * 10 ^ e :=
    calc (10 : ℚ) ^ (50 : Int) ≤ 10 ^ (((Nat.toDigits 10 m).length - 1 : Nat) + e : Int) := by
          gcongr
          · norm_num
          · omega
      _ = 10 ^ ((Nat.toDigits 10 m).length - 1) * 10 ^ e := by
          rw [zpow_add₀ (by norm_num), zpow_natCast]
      _ ≤ m * 10 ^ e := by gcongr
  exact absurd (hle.trans_lt h) (by norm_num)

theorem le_point_of_le {m : Nat} {e : Int} (h : (2 : ℚ) ^ (-150 : Int) ≤ (m : ℚ) * 10 ^ e) :
    -60 ≤ e + (Nat.toDigits 10 m).length := by
  by_contra hfar
  have hdigits : (m : ℚ) < 10 ^ (Nat.toDigits 10 m).length := by
    exact_mod_cast Text.lt_pow_length_toDigits m
  have hten : (0 : ℚ) < 10 ^ e := by positivity
  have hlt : (m : ℚ) * 10 ^ e < 10 ^ (-60 : Int) :=
    calc (m : ℚ) * 10 ^ e < 10 ^ (Nat.toDigits 10 m).length * 10 ^ e := by gcongr
      _ = 10 ^ (((Nat.toDigits 10 m).length : Int) + e) := by
          rw [zpow_add₀ (by norm_num), zpow_natCast]
      _ ≤ 10 ^ (-60 : Int) := by
          gcongr
          · norm_num
          · omega
  exact absurd (h.trans_lt hlt) (by norm_num)

/-- Decimals of the interval of a number are read as the number. -/
theorem bitsOfDecimal_eq {bits m : Nat} {e : Int} (hpos : 0 < bits) (hlt : bits < infinityBits)
    (hx : (Interval.ofBits bits).Contains ((m : ℚ) * 10 ^ e)) : bitsOfDecimal m e = bits := by
  obtain ⟨hlo, hhi⟩ := hx.bounds hpos hlt
  have hm : m ≠ 0 := by
    rintro rfl
    rw [Nat.cast_zero, zero_mul] at hlo
    exact absurd hlo (by norm_num)
  have hlarge : ¬50 < e + (Nat.toDigits 10 m).length := Int.not_lt.2 (point_le_of_lt hm hhi)
  have hsmall : ¬e + (Nat.toDigits 10 m).length < -60 := Int.not_lt.2 (le_point_of_le hlo)
  obtain ⟨place, significand, hparts⟩ := exists_parts hpos hlt
  unfold bitsOfDecimal
  rw [if_neg hm]
  simp only [if_neg hlarge, if_neg hsmall]
  cases e with
  | ofNat n =>
      refine hparts.bitsOfRatio_eq hlt Nat.one_pos ?_
      have hvalue : ((m * 10 ^ n : Nat) : ℚ) / ((1 : Nat) : ℚ) = m * 10 ^ (n : Int) := by
        push_cast
        rw [div_one, zpow_natCast]
      exact hvalue ▸ hx
  | negSucc n =>
      refine hparts.bitsOfRatio_eq hlt (Nat.pow_pos (by decide)) ?_
      have hvalue : (m : ℚ) / ((10 ^ (n + 1) : Nat) : ℚ) = m * 10 ^ Int.negSucc n := by
        rw [zpow_negSucc, div_eq_mul_inv]
        push_cast
        rfl
      exact hvalue ▸ hx

/-- The shortest decimal of a number is read as the number. -/
theorem decimalBits?_shortest {bits : Nat} (hpos : 0 < bits) (hlt : bits < infinityBits) :
    decimalBits? ((shortest bits).layout plain).toList = some bits := by
  obtain ⟨whole, fraction, hwritten, htext⟩ :=
    exists_written (d := shortest bits) fun x => lt_ten_of_mem_shortest
  have hwhole : ∀ x ∈ whole, x < 10 := fun x hx => hwritten.lt_ten x (List.mem_append_left _ hx)
  have hfraction : ∀ x ∈ fraction, x < 10 := fun x hx => hwritten.lt_ten x (List.mem_append_right _ hx)
  have hne : whole.map Nat.digitChar ≠ [] := by simpa using hwritten.nonempty
  have hbits : bitsOfDecimal (digitsNumber (whole ++ fraction)) (-(fraction.length : Int)) = bits := by
    refine bitsOfDecimal_eq hpos hlt ?_
    rw [hwritten.value]
    exact contains_shortest hpos hlt
  change decimalBits? ((shortest bits).positional false).toList = _
  rcases htext with ⟨rfl, htext⟩ | htext
  · rw [htext, decimalBits?_whole (isDigit_of_mem_digitChars hwhole) hne, digitsValue_digitChars hwhole]
    rw [List.append_nil] at hbits
    exact congrArg some hbits
  · rw [htext, decimalBits?_point (isDigit_of_mem_digitChars hwhole)
      (isDigit_of_mem_digitChars hfraction) hne, ← List.map_append,
      digitsValue_digitChars hwritten.lt_ten, List.length_map, hbits]

theorem exists_head_shortest (bits : Nat) : ∃ c rest,
    ((shortest bits).layout plain).toList = c :: rest ∧ c.isDigit = true := by
  obtain ⟨whole, fraction, hwritten, htext⟩ :=
    exists_written (d := shortest bits) fun x => lt_ten_of_mem_shortest
  obtain ⟨x, whole, rfl⟩ := List.exists_cons_of_ne_nil hwritten.nonempty
  have hdigit := isDigit_digitChar (hwritten.lt_ten x List.mem_cons_self)
  rcases htext with ⟨-, htext⟩ | htext
  · exact ⟨_, _, htext, hdigit⟩
  · exact ⟨_, _, htext, hdigit⟩

theorem toLower_of_isDigit {c : Char} (h : c.isDigit = true) : c.toLower = c := by
  simp only [Char.isDigit, Bool.and_eq_true, decide_eq_true_eq] at h
  have hnine : c.toNat ≤ 57 := h.2
  unfold Char.toLower
  rw [dif_neg]
  rintro ⟨hlo, -⟩
  have hletter : 65 ≤ c.toNat := hlo
  omega

theorem unsignedBits?_of_digit {c : Char} (h : c.isDigit = true) (rest : List Char) :
    unsignedBits? (c :: rest) = decimalBits? (c :: rest) := by
  have hname : ∀ (letter : Char) (name : List Char), letter.isDigit = false →
      String.ofList ((c :: rest).map Char.toLower) ≠ String.ofList (letter :: name) := by
    intro letter name hletter heq
    have hhead := (List.cons.inj (String.ofList_injective heq)).1
    rw [toLower_of_isDigit h] at hhead
    rw [← hhead, h] at hletter
    cases hletter
  have hinf : String.ofList ((c :: rest).map Char.toLower) ≠ "inf" := hname 'i' ['n', 'f'] rfl
  have hinfinity : String.ofList ((c :: rest).map Char.toLower) ≠ "infinity" :=
    hname 'i' ['n', 'f', 'i', 'n', 'i', 't', 'y'] rfl
  have hnan : String.ofList ((c :: rest).map Char.toLower) ≠ "nan" := hname 'n' ['a', 'n'] rfl
  simp only [unsignedBits?, hinf, hinfinity, hnan, or_self, if_false]

theorem unsignedBits?_shortest {bits : Nat} (hpos : 0 < bits) (hlt : bits < infinityBits) :
    unsignedBits? ((shortest bits).layout plain).toList = some bits := by
  obtain ⟨c, rest, htext, hdigit⟩ := exists_head_shortest bits
  rw [htext, unsignedBits?_of_digit hdigit, ← htext]
  exact decimalBits?_shortest hpos hlt

theorem single?_of_digit {c : Char} (h : c.isDigit = true) (rest : List Char) :
    single? (c :: rest) =
      (unsignedBits? (c :: rest)).map fun b => Float32.ofBits (UInt32.ofNat b) := by
  unfold single?
  split
  · rename_i heq
    rw [(List.cons.inj heq).1] at h
    cases h
  · rename_i heq
    rw [(List.cons.inj heq).1] at h
    cases h
  · rfl

section Classes

open Float.Model.UnpackedFloat

variable (x : Float32)

theorem exponent_eq (b : BitVec 32) :
    (@unpackExponent .binary32 b).toNat = b.toNat / 2 ^ 23 % 2 ^ 8 := by
  simp [unpackExponent, BitVec.extractLsb, BitVec.extractLsb'_toNat, Nat.shiftRight_eq_div_pow]

theorem fraction_eq (b : BitVec 32) :
    (@unpackMantissa .binary32 b).toNat = b.toNat % 2 ^ 23 := by
  simp [unpackMantissa, BitVec.extractLsb, BitVec.extractLsb'_toNat]

/-- The greatest exponent is that of the infinite numbers and of what is not a number. -/
theorem special_exponent :
    (x.isInf = true → x.toBits.toNat / 2 ^ 23 % 2 ^ 8 = 255 ∧ x.toBits.toNat % 2 ^ 23 = 0) ∧
      (x.toBits.toNat / 2 ^ 23 % 2 ^ 8 = 255 → x.isInf = true ∨ x.isNaN = true) := by
  change ((unpack .binary32 x.toBits.toBitVec).isInf = true → _) ∧
    (_ → (unpack .binary32 x.toBits.toBitVec).isInf = true ∨
      (unpack .binary32 x.toBits.toBitVec).isNaN = true)
  have hfraction := fraction_eq x.toBits.toBitVec
  have hexponent := exponent_eq x.toBits.toBitVec
  rw [UInt32.toNat_toBitVec] at hfraction hexponent
  rw [← hfraction, ← hexponent]
  simp only [unpack]
  by_cases he : @unpackExponent .binary32 x.toBits.toBitVec = -1#8
  · rw [if_pos he]
    by_cases hm : @unpackMantissa .binary32 x.toBits.toBitVec = 0#23
    · rw [if_pos hm, he, hm]
      exact ⟨fun _ => ⟨rfl, rfl⟩, fun _ => .inl rfl⟩
    · rw [if_neg hm]
      exact ⟨fun h => (by cases h), fun _ => .inr rfl⟩
  · rw [if_neg he]
    refine ⟨fun h => ?_, fun h => absurd (BitVec.toNat_inj.1 h) he⟩
    split at h
    · split at h <;> cases h
    · cases h

theorem eq_of_toNat_toBits {n : Nat} (h : x.toBits.toNat = n) : x = Float32.ofBits (UInt32.ofNat n) := by
  rw [← h, UInt32.ofNat_toNat, Float32.ofBits_toBits]

theorem eq_of_isInf (h : x.isInf = true) : x = Float32.ofBits (UInt32.ofNat infinityBits) ∨
    x = Float32.ofBits (UInt32.ofNat (infinityBits + signBit)) := by
  obtain ⟨hexponent, hfraction⟩ := (special_exponent x).1 h
  have hlt : x.toBits.toNat < 2 ^ 32 := x.toBits.toNat_lt
  have hbits : x.toBits.toNat = infinityBits ∨ x.toBits.toNat = infinityBits + signBit := by
    have hinfinity : infinityBits = 255 * 2 ^ 23 := rfl
    have hsign : signBit = 256 * 2 ^ 23 := rfl
    omega
  rcases hbits with hbits | hbits
  · exact .inl (eq_of_toNat_toBits x hbits)
  · exact .inr (eq_of_toNat_toBits x hbits)

theorem magnitude_lt (hnan : x.isNaN = false) (hinf : x.isInf = false) :
    x.toBits.toNat % signBit < infinityBits := by
  have hexponent : x.toBits.toNat / 2 ^ 23 % 2 ^ 8 ≠ 255 := by
    intro h
    rcases (special_exponent x).2 h with h | h
    · rw [hinf] at h
      cases h
    · rw [hnan] at h
      cases h
  have hinfinity : infinityBits = 255 * 2 ^ 23 := rfl
  have hsign : signBit = 256 * 2 ^ 23 := rfl
  rw [hinfinity, hsign]
  omega

end Classes

def magnitudeText (magnitude : Nat) : String :=
  if magnitude = 0 then "0" else (shortest magnitude).layout plain

theorem unsignedBits?_magnitudeText {magnitude : Nat} (h : magnitude < infinityBits) :
    unsignedBits? (magnitudeText magnitude).toList = some magnitude := by
  unfold magnitudeText
  split
  · rename_i hzero
    rw [hzero]
    rfl
  · rename_i hzero
    exact unsignedBits?_shortest (Nat.pos_of_ne_zero hzero) h

theorem exists_head_magnitudeText (magnitude : Nat) : ∃ c rest,
    (magnitudeText magnitude).toList = c :: rest ∧ c.isDigit = true := by
  unfold magnitudeText
  split
  · exact ⟨'0', [], rfl, rfl⟩
  · exact exists_head_shortest magnitude

theorem finiteText_eq (x : Float32) : finiteText plain x =
    (if x.toBits.toNat < signBit then "" else "-") ++ magnitudeText (x.toBits.toNat % signBit) := by
  unfold finiteText magnitudeText
  simp only [plain, Bool.false_eq_true, if_false]
  split
  · rfl
  · rfl

/-- A finite number is read back from its text. -/
theorem single?_finiteText {x : Float32} (h : x.toBits.toNat % signBit < infinityBits) :
    single? (finiteText plain x).toList = some x := by
  have hread := unsignedBits?_magnitudeText h
  have hbound : x.toBits.toNat < 2 * signBit := x.toBits.toNat_lt
  rw [finiteText_eq, String.toList_append]
  by_cases hsign : x.toBits.toNat < signBit
  · obtain ⟨c, rest, htext, hdigit⟩ := exists_head_magnitudeText (x.toBits.toNat % signBit)
    rw [if_pos hsign, htext]
    change single? (c :: rest) = _
    rw [single?_of_digit hdigit, ← htext, hread, Nat.mod_eq_of_lt hsign, Option.map_some]
    exact congrArg some (eq_of_toNat_toBits x rfl).symm
  · have hsplit : x.toBits.toNat % signBit + signBit = x.toBits.toNat := by
      rw [Nat.mod_eq_sub_mod (Nat.le_of_not_lt hsign), Nat.mod_eq_of_lt (by omega)]
      omega
    rw [if_neg hsign]
    change (unsignedBits? (magnitudeText _).toList).map _ = _
    rw [hread, Option.map_some, hsplit]
    exact congrArg some (eq_of_toNat_toBits x rfl).symm

theorem single?_parameterText {x : Float32} (h : x.isNaN = false) :
    single? (parameterText x).toList = some x := by
  rw [parameterText, h, if_neg Bool.false_ne_true]
  by_cases hinf : x.isInf = true
  · rw [if_pos hinf]
    rcases eq_of_isInf x hinf with rfl | rfl
    · have hpositive : (0 : Float32) < Float32.ofBits (UInt32.ofNat infinityBits) := by decide +kernel
      rw [if_pos hpositive]
      rfl
    · have hnegative : ¬(0 : Float32) < Float32.ofBits (UInt32.ofNat (infinityBits + signBit)) := by
        decide +kernel
      rw [if_neg hnegative]
      rfl
  · rw [if_neg hinf]
    have hmagnitude := magnitude_lt x h (by simpa using hinf)
    exact single?_finiteText hmagnitude

end FieldCircuit.Decimal
