import FieldCircuit.Proofs.Stores
import Mathlib.Algebra.BigOperators.Group.Finset.Basic
import Mathlib.Algebra.BigOperators.Intervals
import Mathlib.Logic.Function.Basic

/-!
# Arrays as tables of functions

Local memory is easiest to reason about as a function on positions. `table n f` is the array of the
values of `f` below `n`: reading it is applying `f`, and storing into it is updating `f`. Strided walks
over the positions below a bound, one for every remainder, meet each position once.
-/

namespace FieldCircuit

variable {α : Type}

def table (n : Nat) (f : Nat → α) : Array α := Array.ofFn fun i : Fin n => f i

@[simp] theorem size_table (n : Nat) (f : Nat → α) : (table n f).size = n := by
  simp [table]

theorem getElem?_table {n : Nat} {f : Nat → α} {i : Nat} (h : i < n) :
    (table n f)[i]? = some (f i) := by
  simp [table, h]

theorem getD_table {n : Nat} {f : Nat → α} {i : Nat} (h : i < n) (d : α) :
    (table n f).getD i d = f i := by
  rw [Array.getD_eq_getD_getElem?, getElem?_table h, Option.getD_some]

theorem table_congr {n : Nat} {f g : Nat → α} (h : ∀ i < n, f i = g i) : table n f = table n g := by
  unfold table
  congr 1
  funext i
  exact h i i.isLt

theorem fetch_table {n : Nat} {f : Nat → α} {i : Nat} (h : i < n) :
    fetch (table n f) i = .ok (f i) :=
  fetch_eq_ok_iff.2 (getElem?_table h)

theorem store_table {n : Nat} {f : Nat → α} {i : Nat} (x : α) (h : i < n) :
    store (table n f) i x = .ok (table n (Function.update f i x)) := by
  rw [store_eq_ok_setIfInBounds x (by simpa using h)]
  congr 1
  apply Array.ext_getElem?
  intro j
  by_cases hj : j < n
  · rw [getElem?_table hj, Array.getElem?_setIfInBounds]
    by_cases hij : i = j
    · subst hij
      simp [h]
    · rw [if_neg hij, getElem?_table hj, Function.update_of_ne (Ne.symm hij)]
  · rw [Array.getElem?_eq_none (by simp; omega), Array.getElem?_eq_none (by simp; omega)]

theorem toArray_map_range (n : Nat) (f : Nat → α) : ((List.range n).map f).toArray = table n f := by
  apply Array.ext_getElem?
  intro i
  by_cases hi : i < n
  · rw [getElem?_table hi]
    simp [hi]
  · rw [Array.getElem?_eq_none (by simp; omega), Array.getElem?_eq_none (by simp; omega)]

theorem replicate_eq_table (n : Nat) (x : α) : Array.replicate n x = table n fun _ => x := by
  apply Array.ext_getElem?
  intro i
  by_cases hi : i < n
  · rw [getElem?_table hi]
    simp [hi]
  · rw [Array.getElem?_eq_none (by simp; omega), Array.getElem?_eq_none (by simp; omega)]

theorem eq_table_getD (a : Array α) (d : α) : a = table a.size fun i => a.getD i d := by
  apply Array.ext_getElem?
  intro i
  by_cases hi : i < a.size
  · rw [getElem?_table hi]
    simp [hi]
  · rw [Array.getElem?_eq_none (by omega), Array.getElem?_eq_none (by simp; omega)]

theorem map_eq_table {β : Type} (f : α → β) (a : Array α) (d : α) :
    a.map f = table a.size fun i => f (a.getD i d) := by
  apply Array.ext_getElem?
  intro i
  by_cases hi : i < a.size
  · rw [getElem?_table hi]
    simp [hi]
  · rw [Array.getElem?_eq_none (by simp; omega), Array.getElem?_eq_none (by simp; omega)]

theorem zipWith_eq_table {β γ : Type} (f : α → β → γ) {a : Array α} {b : Array β}
    (h : b.size = a.size) (d : α) (d' : β) :
    Array.zipWith f a b = table a.size fun i => f (a.getD i d) (b.getD i d') := by
  apply Array.ext_getElem?
  intro i
  by_cases hi : i < a.size
  · rw [getElem?_table hi]
    simp [hi, h]
  · rw [Array.getElem?_eq_none (by simp; omega), Array.getElem?_eq_none (by simp; omega)]

theorem toList_table (n : Nat) (f : Nat → α) : (table n f).toList = (List.range n).map f := by
  rw [← toArray_map_range]

theorem zipIdx_toList_table (n : Nat) (f : Nat → α) :
    (table n f).toList.zipIdx = (List.range n).map fun i => (f i, i) := by
  rw [toList_table]
  apply List.ext_getElem?
  intro i
  by_cases hi : i < n <;> simp [hi]

theorem fetch_getD {a : Array α} {i : Nat} (h : i < a.size) (d : α) :
    fetch a i = .ok (a.getD i d) := by
  rw [fetch_eq_ok h]
  simp [Array.getD, h]

theorem eq_getD_of_fetch {a : Array α} {i : Nat} {x : α} (h : fetch a i = .ok x) (d : α) :
    x = a.getD i d := by
  rw [Array.getD_eq_getD_getElem?, fetch_eq_ok_iff.1 h, Option.getD_some]

theorem Fills.stored_eq_table {n : Nat} {l : List (Nat × α)} (h : Fills n l) {a : Array α}
    (ha : a.size = n) {f : Nat → α} (hf : ∀ s ∈ l, s.2 = f s.1) : stored a l = table n f := by
  apply Array.ext_getElem?
  intro i
  by_cases hi : i < n
  · rw [getElem?_stored_of_mem (by omega) (h.covers i hi) fun s hs hsi => by rw [hf s hs, hsi],
      getElem?_table hi]
  · rw [Array.getElem?_eq_none (by simp; omega), Array.getElem?_eq_none (by simp; omega)]

theorem nodup_strided {first bound step : Nat} (hstep : 0 < step) :
    (strided first bound step).Nodup := by
  unfold strided
  refine List.Nodup.map (fun i j hij => ?_) List.nodup_range
  exact Nat.eq_of_mul_eq_mul_right hstep (Nat.add_left_cancel hij)

theorem length_strided (first bound step : Nat) :
    (strided first bound step).length = (bound - first + step - 1) / step := by
  rw [strided, List.length_map, List.length_range]

theorem strided_cons {first bound step : Nat} (hstep : 0 < step) (hfirst : first < bound) :
    strided first bound step = first :: strided (first + step) bound step := by
  have hcount : (bound - first + step - 1) / step =
      (bound - (first + step) + step - 1) / step + 1 := by
    by_cases hlast : bound ≤ first + step
    · have hrest : (bound - (first + step) + step - 1) / step = 0 := Nat.div_eq_of_lt (by omega)
      rw [hrest]
      exact Nat.div_eq_of_lt_le (by omega) (by omega)
    · rw [← Nat.add_div_right _ hstep]
      congr 1
      omega
  unfold strided
  rw [hcount, List.range_succ_eq_map, List.map_cons, List.map_map, Nat.zero_mul, Nat.add_zero]
  congr 1
  apply List.map_congr_left
  intro i _
  simp only [Function.comp_apply, Nat.succ_eq_add_one, Nat.add_mul, Nat.one_mul]
  omega

theorem strided_eq_singleton {first bound step : Nat} (hfirst : first < bound)
    (hlast : bound ≤ first + step) : strided first bound step = [first] := by
  have hstep : 0 < step := by omega
  have hrest : (strided (first + step) bound step).length = 0 := by
    rw [length_strided]
    exact Nat.div_eq_of_lt (by omega)
  rw [strided_cons hstep hfirst, List.length_eq_zero_iff.1 hrest]

theorem length_strided_rows {threads groups rows group lid : Nat} (hlid : lid < threads)
    (hgroup : group < rows) :
    (strided (group * threads + lid) (rows * threads) (groups * threads)).length =
      (rows - group + groups - 1) / groups := by
  rw [length_strided, Nat.mul_comm groups threads, ← Nat.div_div_eq_div_mul]
  congr 1
  obtain ⟨left, rfl⟩ : ∃ left, rows = group + left + 1 := ⟨rows - group - 1, by omega⟩
  have hrows : (group + left + 1) * threads = group * threads + left * threads + threads := by
    rw [Nat.add_mul, Nat.add_mul, Nat.one_mul]
  have hgroups : groups * threads = threads * groups := Nat.mul_comm _ _
  rw [show group + left + 1 - group + groups - 1 = left + groups by omega, hrows]
  apply Nat.div_eq_of_lt_le
  · rw [Nat.add_mul]
    omega
  · rw [Nat.succ_mul, Nat.add_mul]
    omega

theorem length_strided_mul {first step : Nat} (hfirst : first < step) (n : Nat) :
    (strided first (n * step) step).length = n := by
  obtain rfl | hn := Nat.eq_zero_or_pos n
  · rw [length_strided, Nat.zero_mul, Nat.zero_sub, Nat.zero_add]
    exact Nat.div_eq_of_lt (by omega)
  · have hrows : (strided (0 * step + first) (n * step) (1 * step)).length = (n - 0 + 1 - 1) / 1 :=
      length_strided_rows hfirst hn
    rw [Nat.zero_mul, Nat.zero_add, Nat.one_mul] at hrows
    rw [hrows, Nat.div_one]
    omega

theorem toFinset_strided {first bound step : Nat} (hfirst : first < step) :
    (strided first bound step).toFinset = {i ∈ Finset.range bound | i % step = first} := by
  ext i
  rw [List.mem_toFinset, mem_strided (by omega), Finset.mem_filter, Finset.mem_range]
  constructor
  · rintro ⟨hle, hlt, hmod⟩
    refine ⟨hlt, ?_⟩
    obtain ⟨k, hk⟩ := Nat.dvd_of_mod_eq_zero hmod
    rw [show i = step * k + first by omega, Nat.mul_add_mod, Nat.mod_eq_of_lt hfirst]
  · rintro ⟨hlt, hmod⟩
    have hle : first ≤ i := hmod ▸ Nat.mod_le i step
    refine ⟨hle, hlt, ?_⟩
    have hdiv := Nat.div_add_mod i step
    rw [show i - first = step * (i / step) by omega, Nat.mul_mod_right]

theorem sum_strided {M : Type} [AddCommMonoid M] (f : Nat → M) (bound : Nat) {step : Nat}
    (hstep : 0 < step) :
    ∑ first ∈ Finset.range step, ((strided first bound step).map f).sum =
      ∑ i ∈ Finset.range bound, f i := by
  rw [← Finset.sum_fiberwise_of_maps_to (s := Finset.range bound) (t := Finset.range step)
    (g := fun i => i % step) fun i _ => Finset.mem_range.2 (Nat.mod_lt i hstep)]
  apply Finset.sum_congr rfl
  intro first hfirst
  rw [← toFinset_strided (Finset.mem_range.1 hfirst), List.sum_toFinset f (nodup_strided hstep)]

theorem sum_range_mul {M : Type} [AddCommMonoid M] (f : Nat → M) (m n : Nat) :
    ∑ i ∈ Finset.range m, ∑ j ∈ Finset.range n, f (i * n + j) =
      ∑ k ∈ Finset.range (m * n), f k := by
  induction m with
  | zero => simp
  | succ m ih => rw [Finset.sum_range_succ, ih, Nat.succ_mul, Finset.sum_range_add]

theorem sum_range_digits {M : Type} [AddCommMonoid M] (f : Nat → Nat → M) (m n : Nat) :
    ∑ i ∈ Finset.range m, ∑ j ∈ Finset.range n, f i j =
      ∑ k ∈ Finset.range (m * n), f (k / n) (k % n) := by
  rw [← sum_range_mul]
  apply Finset.sum_congr rfl
  intro i _
  apply Finset.sum_congr rfl
  intro j hj
  have hlt := Finset.mem_range.1 hj
  rw [Nat.mul_comm i n, Nat.mul_add_div (by omega), Nat.div_eq_of_lt hlt, Nat.add_zero,
    Nat.mul_add_mod, Nat.mod_eq_of_lt hlt]

end FieldCircuit
