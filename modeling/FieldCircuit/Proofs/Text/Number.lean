import FieldCircuit.Text.Number
import Mathlib.Algebra.Order.Group.Nat
import Mathlib.Data.List.Basic

/-!
# Numbers in text

The decimal digits of a number are read back as the number. How many they are says how large the number
is.
-/

namespace FieldCircuit.Text

theorem toList_decimal (n : Nat) : (decimal n).toList = Nat.toDigits 10 n := by
  rw [decimal, Nat.toString_eq_repr, Nat.toList_repr]

theorem isDigit_of_mem_toDigits {n : Nat} {c : Char} (h : c ∈ Nat.toDigits 10 n) :
    c.isDigit = true :=
  Nat.isDigit_of_mem_toDigits (by decide) (by decide) h

theorem lt_pow_length_toDigits (n : Nat) : n < 10 ^ (Nat.toDigits 10 n).length :=
  (Nat.length_toDigits_le_iff (by decide) Nat.length_toDigits_pos).1 (Nat.le_refl _)

theorem pow_length_toDigits_le {n : Nat} (h : n ≠ 0) :
    10 ^ ((Nat.toDigits 10 n).length - 1) ≤ n := by
  obtain hone | hmore := Nat.eq_zero_or_pos ((Nat.toDigits 10 n).length - 1)
  · rw [hone]
    exact Nat.pos_of_ne_zero h
  · refine Nat.le_of_not_lt fun hlt => ?_
    have := (Nat.length_toDigits_le_iff (b := 10) (by decide) hmore).2 hlt
    omega

theorem digit?_eq_some {c : Char} (h : c.isDigit = true) :
    digit? c = some (c.toNat - '0'.toNat) := by
  simp only [Char.isDigit, Bool.and_eq_true, decide_eq_true_eq] at h
  exact if_pos h

theorem digitsFrom?_eq_some {ds : List Char} (h : ∀ c ∈ ds, c.isDigit = true) (value : Nat) :
    digitsFrom? value ds = some (Nat.ofDigitChars 10 ds value) := by
  induction ds generalizing value with
  | nil => rfl
  | cons c ds ih =>
      rw [digitsFrom?, digit?_eq_some (h c List.mem_cons_self), Option.bind_some]
      exact ih (fun d hd => h d (List.mem_cons_of_mem _ hd)) _

theorem size?_of_unsigned {s : List Char} (h : ∀ rest, s ≠ '+' :: rest) :
    size? s = if s.isEmpty then none
      else (digitsFrom? 0 s).bind fun n => if n < sizeBound then some n else none := by
  unfold size?
  split
  · exact absurd rfl (h _)
  · rfl

/-- A machine size is read back from its digits. -/
theorem size?_decimal {n : Nat} (h : n < sizeBound) : size? (decimal n).toList = some n := by
  have hdigits : ∀ c ∈ Nat.toDigits 10 n, c.isDigit = true := fun c => isDigit_of_mem_toDigits
  have hunsigned : ∀ rest, Nat.toDigits 10 n ≠ '+' :: rest := by
    intro rest heq
    exact absurd (hdigits '+' (heq ▸ List.mem_cons_self)) (by decide)
  have hnonempty : (Nat.toDigits 10 n).isEmpty = false := List.isEmpty_eq_false_iff.2 Nat.toDigits_ne_nil
  rw [toList_decimal, size?_of_unsigned hunsigned, hnonempty, digitsFrom?_eq_some hdigits,
    Nat.ofDigitChars_toDigits (by decide) (by decide)]
  simp only [Bool.false_eq_true, if_false, Option.bind_some, if_pos h]

theorem lt_of_size?_eq_some {s : List Char} {n : Nat} (h : size? s = some n) : n < sizeBound := by
  have hchecked : ∀ digits : List Char, (if digits.isEmpty then none
      else (digitsFrom? 0 digits).bind fun n => if n < sizeBound then some n else none) = some n →
      n < sizeBound := by
    intro digits h
    split at h
    · cases h
    · obtain ⟨m, -, hm⟩ := Option.bind_eq_some_iff.1 h
      split at hm
      · rename_i hlt
        exact Option.some.inj hm ▸ hlt
      · cases hm
  exact hchecked _ h

end FieldCircuit.Text
