import FieldCircuit.Proofs.Kernel.Reduction
import Mathlib.Logic.Function.Iterate

/-!
# Trees of additions

A reduction is written over any kind of words. Over trees of additions it computes its own
additions, which shows in which order and over which points it adds up. In a balanced tree every
addition combines partial sums over equally many points. A doubling tree is balanced because it has
nothing but zeros that are added from the left and pairs of doubling trees of one size; if all
points hold the same value, its sum is that value doubled once per level.
-/

namespace FieldCircuit

variable {α : Type}

/-- A sum of points, as the additions that make it up. -/
inductive SumTree
  | zero
  | point (i : Nat)
  | add (left right : SumTree)
  deriving DecidableEq, Repr

namespace SumTree

def count : SumTree → Nat
  | zero => 0
  | point _ => 1
  | add left right => left.count + right.count

/-- Every addition combines partial sums over equally many points, unless one of them has no points.
-/
def Balanced : SumTree → Prop
  | zero => True
  | point _ => True
  | add left right => left.Balanced ∧ right.Balanced ∧
      (left.count = 0 ∨ right.count = 0 ∨ left.count = right.count)

def eval (plus : α → α → α) (zero' : α) (leaf : Nat → α) : SumTree → α
  | zero => zero'
  | point i => leaf i
  | add left right => plus (left.eval plus zero' leaf) (right.eval plus zero' leaf)

theorem count_eq_eval (s : SumTree) : s.count = s.eval (· + ·) 0 fun _ => 1 := by
  induction s with
  | zero => rfl
  | point i => rfl
  | add left right ihl ihr => rw [count, eval, ihl, ihr]

section Eval

variable (plus : α → α → α) (zero' : α) (leaf : Nat → α)

theorem eval_treeFold (levels : Nat) (f : Nat → SumTree) :
    (Reduction.treeFold add levels f).eval plus zero' leaf =
      Reduction.treeFold plus levels fun i => (f i).eval plus zero' leaf := by
  induction levels generalizing f with
  | zero => rfl
  | succ levels ih => rw [Reduction.treeFold, ih]; rfl

theorem eval_foldl (l : List Nat) (f : Nat → SumTree) (acc : SumTree) :
    (l.foldl (fun acc i => add acc (f i)) acc).eval plus zero' leaf =
      l.foldl (fun acc i => plus acc ((f i).eval plus zero' leaf))
        (acc.eval plus zero' leaf) := by
  induction l generalizing acc with
  | nil => rfl
  | cons i l ih => exact ih (add acc (f i))

theorem eval_dealt (levels : Nat) (share : Nat → List Nat) (f : Nat → SumTree) :
    (Reduction.dealt add zero levels share f).eval plus zero' leaf =
      Reduction.dealt plus zero' levels share fun i => (f i).eval plus zero' leaf := by
  simp only [Reduction.dealt, eval_treeFold, eval_foldl, eval]

theorem eval_finished (levels groups : Nat) (f : Nat → SumTree) :
    (Reduction.finished add zero levels groups f).eval plus zero' leaf =
      Reduction.finished plus zero' levels groups fun g => (f g).eval plus zero' leaf := by
  unfold Reduction.finished
  split
  · exact eval_dealt plus zero' leaf levels _ f
  · rfl

end Eval

/-- A sum over two to the power of `k` points that doubles `k` times. -/
inductive Doubling : Nat → SumTree → Prop
  | point (i : Nat) : Doubling 0 (point i)
  | first {k : Nat} {s : SumTree} (h : Doubling k s) : Doubling k (add zero s)
  | pair {k : Nat} {left right : SumTree} (hleft : Doubling k left) (hright : Doubling k right) :
      Doubling (k + 1) (add left right)

namespace Doubling

variable {k : Nat} {s : SumTree}

theorem count_eq (h : Doubling k s) : s.count = 2 ^ k := by
  induction h with
  | point i => rfl
  | first _ ih => rw [count, count, ih, Nat.zero_add]
  | pair _ _ ihl ihr => rw [count, ihl, ihr, pow_succ, Nat.mul_two]

theorem balanced (h : Doubling k s) : s.Balanced := by
  induction h with
  | point i => trivial
  | first _ ih => exact ⟨trivial, ih, .inl rfl⟩
  | pair hleft hright ihl ihr =>
      exact ⟨ihl, ihr, .inr (.inr (hleft.count_eq.trans hright.count_eq.symm))⟩

/-- If all points hold the same value, the sum is that value doubled, provided that zero is neutral
for the partial sums. -/
theorem eval_const {plus : α → α → α} {zero' v : α} (h : Doubling k s)
    (hzero : ∀ j ≤ k, plus zero' ((fun x => plus x x)^[j] v) = (fun x => plus x x)^[j] v) :
    s.eval plus zero' (fun _ => v) = (fun x => plus x x)^[k] v := by
  induction h with
  | point i => rfl
  | @first k s _ ih => rw [eval, eval, ih hzero, hzero k (Nat.le_refl k)]
  | @pair k left right _ _ ihl ihr =>
      have hzero' := fun j (hj : j ≤ k) => hzero j (Nat.le_succ_of_le hj)
      rw [eval, ihl hzero', ihr hzero', Function.iterate_succ_apply']

theorem treeFold {levels : Nat} {f : Nat → SumTree} (h : ∀ i < 2 ^ levels, Doubling k (f i)) :
    Doubling (k + levels) (Reduction.treeFold add levels f) := by
  induction levels generalizing k f with
  | zero => exact h 0 (by simp)
  | succ levels ih =>
      have hpow : 2 ^ (levels + 1) = 2 ^ levels + 2 ^ levels := by rw [pow_succ, Nat.mul_two]
      rw [show k + (levels + 1) = k + 1 + levels by omega]
      exact ih fun i hi => .pair (h i (by omega)) (h (i + 2 ^ levels) (by omega))

theorem foldl {a : Nat} (ha : a ≤ 1) {l : List Nat} (hl : l.length = 2 ^ a) {f : Nat → SumTree}
    (h : ∀ i ∈ l, Doubling k (f i)) :
    Doubling (k + a) (l.foldl (fun acc i => add acc (f i)) zero) := by
  obtain rfl | rfl : a = 0 ∨ a = 1 := by omega
  · obtain ⟨i, rfl⟩ := List.length_eq_one_iff.1 hl
    exact .first (h i (by simp))
  · obtain ⟨i, j, rfl⟩ := List.length_eq_two.1 hl
    exact .pair (.first (h i (by simp))) (h j (by simp))

theorem dealt {levels a : Nat} (ha : a ≤ 1) {share : Nat → List Nat}
    (hshare : ∀ lid < 2 ^ levels, (share lid).length = 2 ^ a) {f : Nat → SumTree}
    (h : ∀ lid < 2 ^ levels, ∀ i ∈ share lid, Doubling k (f i)) :
    Doubling (k + a + levels) (Reduction.dealt add zero levels share f) :=
  treeFold fun lid hlid => foldl ha (hshare lid hlid) (h lid hlid)

end Doubling

/-- A balanced tree has balanced leaves. -/
theorem Balanced.of_treeFold {levels : Nat} {f : Nat → SumTree}
    (h : (Reduction.treeFold add levels f).Balanced) : ∀ i < 2 ^ levels, (f i).Balanced := by
  induction levels generalizing f with
  | zero =>
      intro i hi
      obtain rfl : i = 0 := by omega
      exact h
  | succ levels ih =>
      intro i hi
      rw [pow_succ] at hi
      by_cases hlt : i < 2 ^ levels
      · exact (ih h i hlt).1
      · have hright := (ih h (i - 2 ^ levels) (by omega)).2.1
        rwa [Nat.sub_add_cancel (by omega)] at hright

/-- A balanced sequence of additions starts from a balanced sum and adds balanced sums. -/
theorem Balanced.of_foldl {l : List Nat} {f : Nat → SumTree} {acc : SumTree}
    (h : (l.foldl (fun acc i => add acc (f i)) acc).Balanced) :
    acc.Balanced ∧ ∀ i ∈ l, (f i).Balanced := by
  induction l generalizing acc with
  | nil => exact ⟨h, by simp⟩
  | cons i l ih =>
      obtain ⟨hadd, hrest⟩ := ih h
      exact ⟨hadd.1, List.forall_mem_cons.2 ⟨hadd.2.1, hrest⟩⟩

/-- In a balanced sequence of additions the second sum has as many points as the first. -/
theorem Balanced.count_second {i j : Nat} {l : List Nat} {f : Nat → SumTree}
    (h : ((i :: j :: l).foldl (fun acc i => add acc (f i)) zero).Balanced)
    (hi : 0 < (f i).count) (hj : 0 < (f j).count) : (f i).count = (f j).count := by
  have hsecond : (add (add zero (f i)) (f j)).Balanced :=
    (Balanced.of_foldl (show (l.foldl _ (add (add zero (f i)) (f j))).Balanced from h)).1
  have hcount := hsecond.2.2
  simp only [count, Nat.zero_add] at hcount
  omega

/-- A balanced sequence of additions has at most two, unless its sums grow. -/
theorem Balanced.length_le_two {i : Nat} {l : List Nat} {f : Nat → SumTree}
    (h : ((i :: l).foldl (fun acc i => add acc (f i)) zero).Balanced)
    (hpos : ∀ j ∈ i :: l, 0 < (f j).count) (hle : ∀ j ∈ l, (f j).count ≤ (f i).count) :
    l.length ≤ 1 := by
  match l with
  | [] => simp
  | [j] => simp
  | j :: k :: l =>
      have hthird : (add (add (add zero (f i)) (f j)) (f k)).Balanced :=
        (Balanced.of_foldl
          (show (l.foldl _ (add (add (add zero (f i)) (f j)) (f k))).Balanced from h)).1
      have hcount := hthird.2.2
      simp only [count, Nat.zero_add] at hcount
      have hi := hpos i (by simp)
      have hj := hpos j (by simp)
      have hk := hpos k (by simp)
      have hki := hle k (by simp)
      omega

end SumTree

end FieldCircuit
