import FieldCircuit.Opcode.Border
import Mathlib.Algebra.Ring.Periodic

/-!
# Continuing an axis

A border policy continues the samples of an axis beyond its ends: by nothing, periodically, or by the
sample at the end. On an axis whose extent is a signed machine size, resolving a position is reading the
continuation there.
-/

namespace FieldCircuit.Border

variable {α : Type}

/-- A function on the integers continues its values on an axis of `n` samples beyond the axis. -/
def Continues (policy : Border) (n : Nat) (f : Int → Option α) : Prop :=
  match policy with
  | .zero => ∀ i : Int, i < 0 ∨ n ≤ i → f i = none
  | .cyclic => Function.Periodic f n
  | .clamp => ∀ i : Int, (i < 0 → f i = f 0) ∧ (n ≤ i → f i = f (n - 1))

/-- The sample that stands for a position on an axis of `n` samples. -/
def place (policy : Border) (n : Nat) (position : Int) : Option Nat :=
  match policy with
  | .zero => if 0 ≤ position ∧ position < n then some position.toNat else none
  | .cyclic => some (position % n).toNat
  | .clamp => some (max 0 (min position (n - 1))).toNat

variable {policy : Border} {n : Nat}

theorem place_lt (hpos : 0 < n) (position : Int) : ∀ i ∈ policy.place n position, i < n := by
  intro i hi
  cases policy with
  | zero =>
      obtain ⟨hin, heq⟩ := Option.ite_none_right_eq_some.1 hi
      rw [← Option.some.inj heq]
      omega
  | cyclic =>
      rw [← Option.some.inj hi]
      have hlt := Int.emod_lt_of_pos position (by omega : (0 : Int) < n)
      omega
  | clamp =>
      rw [← Option.some.inj hi]
      omega

theorem place_of_lt {i : Nat} (hi : i < n) : policy.place n i = some i := by
  cases policy with
  | zero => exact if_pos ⟨Int.natCast_nonneg i, by exact_mod_cast hi⟩
  | cyclic => exact congrArg some (by rw [Int.emod_eq_of_lt (by omega) (by omega)]; rfl)
  | clamp => exact congrArg some (by omega)

theorem resolve_eq_place (policy : Border) (position : Int) (hpos : 0 < n) (hlt : n < signedBound) :
    policy.resolve position n = .ok (policy.place n position) := by
  have hsigned : signedExtent n = n := if_pos hlt
  unfold resolve
  simp only [hsigned]
  cases policy with
  | zero => rfl
  | cyclic =>
      simp only
      rw [if_neg (by omega), if_neg (by omega)]
      rfl
  | clamp =>
      simp only
      rw [if_neg (by omega)]
      rfl

/-- A continuation has, at every position, the value at the sample that stands for the position. -/
theorem Continues.eq_bind_place {f : Int → Option α} (h : policy.Continues n f) (hpos : 0 < n)
    (position : Int) : f position = (policy.place n position).bind fun i => f i := by
  cases policy with
  | zero =>
      by_cases hin : 0 ≤ position ∧ position < n
      · simp [place, hin]
      · rw [place, if_neg hin]
        exact h position (by omega)
  | cyclic =>
      have hperiod : f (position % n) = f position := by
        rw [Int.emod_def, mul_comm]
        exact Function.Periodic.sub_int_mul_eq h _
      have hnonneg := Int.emod_nonneg position (by omega : (n : Int) ≠ 0)
      rw [place, Option.bind_some, Int.toNat_of_nonneg hnonneg, hperiod]
  | clamp =>
      obtain ⟨hbelow, habove⟩ := h position
      rw [place, Option.bind_some, Int.toNat_of_nonneg (le_max_left _ _)]
      by_cases hlow : position < 0
      · rw [hbelow hlow, max_eq_left (by omega)]
      · by_cases hhigh : (n : Int) ≤ position
        · rw [habove hhigh, min_eq_right (by omega), max_eq_right (by omega)]
        · rw [min_eq_left (by omega), max_eq_right (by omega)]

theorem continues_bind_place (policy : Border) (hpos : 0 < n) (f : Nat → Option α) :
    policy.Continues n fun position => (policy.place n position).bind f := by
  cases policy with
  | zero =>
      intro i hi
      simp only [place]
      rw [if_neg (by omega)]
      rfl
  | cyclic =>
      intro i
      simp [place]
  | clamp =>
      intro i
      simp only [place, Option.bind_some]
      constructor
      · intro hi
        congr 2
        omega
      · intro hi
        congr 2
        omega

/-- A function on the plane continues the samples of an image on both axes. -/
structure Extends (policy : Border) (rows columns : Nat) (x : Array α) (f : Int → Int → Option α) :
    Prop where
  samples : ∀ r < rows, ∀ c < columns, f (r : Nat) (c : Nat) = x[r * columns + c]?
  alongRows : ∀ c, policy.Continues rows fun r => f r c
  alongColumns : ∀ r, policy.Continues columns fun c => f r c

def extended (policy : Border) (rows columns : Nat) (x : Array α) (r c : Int) : Option α :=
  (policy.place rows r).bind fun i => (policy.place columns c).bind fun j => x[i * columns + j]?

variable {rows columns : Nat} {x : Array α}

theorem extends_extended (policy : Border) (hrows : 0 < rows) (hcolumns : 0 < columns)
    (x : Array α) : policy.Extends rows columns x (policy.extended rows columns x) where
  samples := by
    intro r hr c hc
    rw [extended, place_of_lt hr, Option.bind_some, place_of_lt hc, Option.bind_some]
  alongRows c := policy.continues_bind_place hrows fun i =>
    (policy.place columns c).bind fun j => x[i * columns + j]?
  alongColumns r := by
    simp only [extended, Option.bind_comm (policy.place rows r)]
    exact policy.continues_bind_place hcolumns _

theorem Extends.eq_extended {f : Int → Int → Option α} (h : policy.Extends rows columns x f)
    (hrows : 0 < rows) (hcolumns : 0 < columns) : f = policy.extended rows columns x := by
  funext r c
  rw [extended, (h.alongRows c).eq_bind_place hrows r]
  refine Option.bind_congr fun i hi => ?_
  rw [(h.alongColumns i).eq_bind_place hcolumns c]
  exact Option.bind_congr fun j hj => h.samples i (place_lt hrows r i hi) j (place_lt hcolumns c j hj)

end FieldCircuit.Border
