import FieldCircuit.Proofs.Outcome
import Mathlib.Data.List.Basic
import Mathlib.Data.List.Nodup

/-!
# Stores

A launch is a list of stores into its output. The stores succeed exactly if all of them lie inside,
and then they are a plain fold, `stored`. A list of stores that reaches every position, `Fills`, leaves
nothing of the previous contents; if moreover the values are a function of the positions, the result
is the table of that function.
-/

namespace FieldCircuit

variable {α β : Type}

/-- The array after some stores; those outside of it have no effect. -/
def stored (a : Array α) (stores : List (Nat × α)) : Array α :=
  stores.foldl (fun a s => a.setIfInBounds s.1 s.2) a

@[simp] theorem stored_nil (a : Array α) : stored a [] = a := rfl

@[simp] theorem stored_cons (a : Array α) (s : Nat × α) (l : List (Nat × α)) :
    stored a (s :: l) = stored (a.setIfInBounds s.1 s.2) l := rfl

@[simp] theorem size_stored (a : Array α) (l : List (Nat × α)) : (stored a l).size = a.size := by
  induction l generalizing a with
  | nil => rfl
  | cons s l ih => rw [stored_cons, ih, Array.size_setIfInBounds]

/-- Stores at distinct positions may be performed in any order. -/
theorem stored_perm {l r : List (Nat × α)} (hperm : l.Perm r) (hdistinct : (l.map Prod.fst).Nodup)
    (a : Array α) : stored a l = stored a r := by
  refine hperm.foldl_eq' (fun s hs t ht b => ?_) a
  by_cases hst : s = t
  · rw [hst]
  · have hne : s.1 ≠ t.1 := fun h => hst (List.inj_on_of_nodup_map hdistinct hs ht h)
    exact Array.setIfInBounds_comm _ _ hne

theorem store_eq_ok_setIfInBounds {a : Array α} {i : Nat} (x : α) (h : i < a.size) :
    store a i x = .ok (a.setIfInBounds i x) := by
  rw [store_eq_ok x h, Array.setIfInBounds, dif_pos h]

theorem storeAll_eq_ok {a : Array α} {l : List (Nat × α)} (h : ∀ s ∈ l, s.1 < a.size) :
    storeAll a l = .ok (stored a l) := by
  refine (foldlM_eq_ok (p := fun b => b.size = a.size) rfl ?_).1
  intro b s hs hb
  have hlt : s.1 < b.size := by rw [hb]; exact h s hs
  exact ⟨store_eq_ok_setIfInBounds s.2 hlt, by simpa using hb⟩

theorem getElem?_stored_of_forall_ne {a : Array α} {l : List (Nat × α)} {i : Nat}
    (h : ∀ s ∈ l, s.1 ≠ i) : (stored a l)[i]? = a[i]? := by
  induction l generalizing a with
  | nil => rfl
  | cons s l ih =>
      rw [stored_cons, ih fun t ht => h t (by simp [ht]),
        Array.getElem?_setIfInBounds_ne (h s (by simp))]

theorem getElem?_stored_of_mem {a : Array α} {l : List (Nat × α)} {i : Nat} {x : α}
    (hi : i < a.size) (hmem : ∃ s ∈ l, s.1 = i) (h : ∀ s ∈ l, s.1 = i → s.2 = x) :
    (stored a l)[i]? = some x := by
  induction l generalizing a with
  | nil => simp at hmem
  | cons s l ih =>
      rw [stored_cons]
      by_cases hl : ∃ t ∈ l, t.1 = i
      · exact ih (by simpa using hi) hl fun t ht => h t (by simp [ht])
      · have hne : ∀ t ∈ l, t.1 ≠ i := fun t ht hti => hl ⟨t, ht, hti⟩
        have hs : s.1 = i := by
          obtain ⟨t, ht, hti⟩ := hmem
          rcases List.mem_cons.1 ht with rfl | ht
          · exact hti
          · exact absurd hti (hne t ht)
        rw [getElem?_stored_of_forall_ne hne, hs, Array.getElem?_setIfInBounds_self_of_lt hi,
          h s (by simp) hs]

theorem getElem?_stored_congr {a b : Array α} {l : List (Nat × α)} {i : Nat}
    (hab : a.size = b.size) (hmem : ∃ s ∈ l, s.1 = i) : (stored a l)[i]? = (stored b l)[i]? := by
  induction l generalizing a b with
  | nil => simp at hmem
  | cons s l ih =>
      rw [stored_cons, stored_cons]
      by_cases hl : ∃ t ∈ l, t.1 = i
      · exact ih (by simpa using hab) hl
      · have hne : ∀ t ∈ l, t.1 ≠ i := fun t ht hti => hl ⟨t, ht, hti⟩
        rw [getElem?_stored_of_forall_ne hne, getElem?_stored_of_forall_ne hne]
        obtain ⟨t, ht, hti⟩ := hmem
        rcases List.mem_cons.1 ht with rfl | ht
        · rw [Array.getElem?_setIfInBounds, Array.getElem?_setIfInBounds, if_pos hti, if_pos hti, hab]
        · exact absurd hti (hne t ht)

theorem forall₂_exists_left {q : α → β → Prop} {l : List α} {r : List β} (h : List.Forall₂ q l r)
    {b : β} (hb : b ∈ r) : ∃ a ∈ l, q a b := by
  induction h with
  | nil => cases hb
  | cons hq _ ih =>
      rcases List.mem_cons.1 hb with rfl | hb
      · exact ⟨_, by simp, hq⟩
      · obtain ⟨a, ha, hqa⟩ := ih hb
        exact ⟨a, by simp [ha], hqa⟩

theorem forall₂_exists_right {q : α → β → Prop} {l : List α} {r : List β} (h : List.Forall₂ q l r)
    {a : α} (ha : a ∈ l) : ∃ b ∈ r, q a b :=
  forall₂_exists_left h.flip ha

theorem forall₂_getElem?_left {q : α → β → Prop} {l : List α} {r : List β}
    (h : List.Forall₂ q l r) {i : Nat} {a : α} (hi : l[i]? = some a) :
    ∃ b, r[i]? = some b ∧ q a b := by
  induction h generalizing i with
  | nil => cases hi
  | cons hab _ ih => cases i with
    | zero => exact ⟨_, rfl, Option.some.inj hi ▸ hab⟩
    | succ i => exact ih hi

theorem forall₂_getElem?_right {q : α → β → Prop} {l : List α} {r : List β}
    (h : List.Forall₂ q l r) {i : Nat} {b : β} (hi : r[i]? = some b) :
    ∃ a, l[i]? = some a ∧ q a b :=
  forall₂_getElem?_left h.flip hi

/-- The stores lie inside an output of `n` words and leave none of them out. -/
structure Fills (n : Nat) (stores : List (Nat × α)) : Prop where
  inside : ∀ s ∈ stores, s.1 < n
  covers : ∀ i < n, ∃ s ∈ stores, s.1 = i

namespace Fills

variable {n : Nat} {l : List (Nat × α)}

theorem storeAll_eq_ok (h : Fills n l) {a : Array α} (ha : a.size = n) :
    storeAll a l = .ok (stored a l) :=
  FieldCircuit.storeAll_eq_ok fun s hs => by rw [ha]; exact h.inside s hs

/-- Nothing is left of the previous contents of an output that has been filled. -/
theorem stored_congr (h : Fills n l) {a b : Array α} (ha : a.size = n) (hb : b.size = n) :
    stored a l = stored b l := by
  apply Array.ext_getElem?
  intro i
  by_cases hi : i < n
  · exact getElem?_stored_congr (ha.trans hb.symm) (h.covers i hi)
  · rw [Array.getElem?_eq_none (by simp; omega), Array.getElem?_eq_none (by simp; omega)]

theorem of_map {l : List β} (index : β → Nat) (value : β → α)
    (inside : ∀ b ∈ l, index b < n) (covers : ∀ i < n, ∃ b ∈ l, index b = i) :
    Fills n (l.map fun b => (index b, value b)) where
  inside := by
    intro s hs
    obtain ⟨b, hb, rfl⟩ := List.mem_map.1 hs
    exact inside b hb
  covers := by
    intro i hi
    obtain ⟨b, hb, h⟩ := covers i hi
    exact ⟨_, List.mem_map_of_mem hb, h⟩

theorem of_forall₂ {l : List β} {groups : List (List (Nat × α))} {positions : β → List Nat}
    (h : List.Forall₂ (fun b group => group.map Prod.fst = positions b) l groups)
    (inside : ∀ b ∈ l, ∀ i ∈ positions b, i < n) (covers : ∀ i < n, ∃ b ∈ l, i ∈ positions b) :
    Fills n groups.flatten where
  inside := by
    intro s hs
    obtain ⟨group, hgroup, hs⟩ := List.mem_flatten.1 hs
    obtain ⟨b, hb, hpos⟩ := forall₂_exists_left h hgroup
    exact inside b hb s.1 (hpos ▸ List.mem_map_of_mem hs)
  covers := by
    intro i hi
    obtain ⟨b, hb, hib⟩ := covers i hi
    obtain ⟨group, hgroup, hpos⟩ := forall₂_exists_right h hb
    rw [← hpos] at hib
    obtain ⟨s, hs, rfl⟩ := List.mem_map.1 hib
    exact ⟨s, List.mem_flatten.2 ⟨group, hgroup, hs⟩, rfl⟩

end Fills

theorem mem_strided {first bound step i : Nat} (hstep : 0 < step) :
    i ∈ strided first bound step ↔ first ≤ i ∧ i < bound ∧ (i - first) % step = 0 := by
  unfold strided
  rw [List.mem_map]
  constructor
  · rintro ⟨k, hk, rfl⟩
    rw [List.mem_range, Nat.lt_div_iff_mul_lt hstep] at hk
    have hmod : (first + k * step - first) % step = 0 := by simp
    have hcomm : step * k = k * step := Nat.mul_comm _ _
    exact ⟨by omega, by omega, hmod⟩
  · rintro ⟨hle, hlt, hmod⟩
    refine ⟨(i - first) / step, ?_, ?_⟩
    · rw [List.mem_range, Nat.lt_div_iff_mul_lt hstep]
      have hdiv := Nat.div_add_mod (i - first) step
      have hcomm : step * ((i - first) / step) = (i - first) / step * step := Nat.mul_comm _ _
      omega
    · have hdiv := Nat.div_add_mod' (i - first) step
      omega

end FieldCircuit
