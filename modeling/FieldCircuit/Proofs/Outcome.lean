import FieldCircuit.Size
import Mathlib.Data.List.Forall2

/-!
# Computations that may fail

What follows from the success of a sequence of computations, and when such a sequence succeeds. A
sequence succeeds with given results exactly if every member does, so that a proof can pass from a
program with faults to the program without them in one step.
-/

namespace FieldCircuit

variable {ε ε' α β : Type}

@[simp] theorem ok_bind (a : α) (f : α → Except ε β) : (Except.ok a >>= f) = f a := rfl

@[simp] theorem error_bind (e : ε) (f : α → Except ε β) : (Except.error e >>= f) = .error e := rfl

theorem bind_eq_ok_iff {x : Except ε α} {f : α → Except ε β} {b : β} :
    (x >>= f) = .ok b ↔ ∃ a, x = .ok a ∧ f a = .ok b := by
  cases x with
  | error e => simp
  | ok a => simp

theorem mapError_eq_ok_iff {f : ε → ε'} {x : Except ε α} {a : α} :
    x.mapError f = .ok a ↔ x = .ok a := by
  cases x <;> simp [Except.mapError]

theorem map_eq_ok_iff {f : α → β} {x : Except ε α} {b : β} :
    (f <$> x) = .ok b ↔ ∃ a, x = .ok a ∧ f a = b := by
  cases x <;> simp [Functor.map, Except.map]

/-- Computing something for every member of a list succeeds exactly if all computations do. -/
theorem mapM_eq_ok_iff {f : α → Except ε β} {l : List α} {r : List β} :
    l.mapM f = .ok r ↔ List.Forall₂ (fun a b => f a = .ok b) l r := by
  induction l generalizing r with
  | nil =>
      rw [List.mapM_nil, List.forall₂_nil_left_iff]
      exact ⟨fun h => (Except.ok.inj h).symm, fun h => by rw [h]; rfl⟩
  | cons a l ih =>
      rw [List.mapM_cons, bind_eq_ok_iff, List.forall₂_cons_left_iff]
      constructor
      · rintro ⟨b, hb, h⟩
        obtain ⟨bs, hbs, hr⟩ := bind_eq_ok_iff.1 h
        exact ⟨b, bs, hb, ih.1 hbs, (Except.ok.inj hr).symm⟩
      · rintro ⟨b, bs, hb, hbs, rfl⟩
        exact ⟨b, hb, bind_eq_ok_iff.2 ⟨bs, ih.2 hbs, rfl⟩⟩

theorem mapM_eq_ok {f : α → Except ε β} {g : α → β} {l : List α} (h : ∀ a ∈ l, f a = .ok (g a)) :
    l.mapM f = .ok (l.map g) := by
  rw [mapM_eq_ok_iff, List.forall₂_map_right_iff, List.forall₂_same]
  exact h

theorem mapM_exists_ok {f : α → Except ε β} {q : α → β → Prop} {l : List α}
    (h : ∀ a ∈ l, ∃ b, f a = .ok b ∧ q a b) : ∃ r, l.mapM f = .ok r ∧ List.Forall₂ q l r := by
  induction l with
  | nil => exact ⟨[], rfl, .nil⟩
  | cons a l ih =>
      obtain ⟨b, hb, hq⟩ := h a (by simp)
      obtain ⟨r, hr, hqs⟩ := ih fun a' ha' => h a' (by simp [ha'])
      refine ⟨b :: r, ?_, .cons hq hqs⟩
      rw [List.mapM_cons, hb, ok_bind, hr]
      rfl

/-- Doing something for every member of a list succeeds exactly if it does for each. -/
theorem forM_eq_ok_iff {f : α → Except ε Unit} {l : List α} :
    l.forM f = .ok () ↔ ∀ a ∈ l, f a = .ok () := by
  induction l with
  | nil => simp [List.forM_nil, pure, Except.pure]
  | cons a l ih =>
      change (f a >>= fun _ => l.forM f) = _ ↔ _
      rw [bind_eq_ok_iff, List.forall_mem_cons, ← ih]
      exact ⟨fun ⟨_, ha, h⟩ => ⟨ha, h⟩, fun ⟨ha, h⟩ => ⟨_, ha, h⟩⟩

/-- A fold whose steps are known to succeed under an invariant is a plain fold, and the invariant holds
at its end. -/
theorem foldlM_eq_ok {f : β → α → Except ε β} {g : β → α → β} {p : β → Prop} {l : List α} {b : β}
    (hb : p b) (h : ∀ b a, a ∈ l → p b → f b a = .ok (g b a) ∧ p (g b a)) :
    l.foldlM f b = .ok (l.foldl g b) ∧ p (l.foldl g b) := by
  induction l generalizing b with
  | nil => exact ⟨rfl, hb⟩
  | cons a l ih =>
      obtain ⟨hf, hg⟩ := h b a (by simp) hb
      have hrest := ih hg fun b a' ha' => h b a' (by simp [ha'])
      rw [List.foldlM_cons, hf, ok_bind, List.foldl_cons]
      exact hrest

/-- A fold that has succeeded is the plain fold of what its steps do when they succeed. -/
theorem eq_foldl_of_foldlM_eq_ok {f : β → α → Except ε β} {g : β → α → β} {l : List α} {b r : β}
    (h : l.foldlM f b = .ok r) (hstep : ∀ b, ∀ a ∈ l, ∀ b', f b a = .ok b' → b' = g b a) :
    r = l.foldl g b := by
  induction l generalizing b with
  | nil => exact (Except.ok.inj h).symm
  | cons a l ih =>
      rw [List.foldlM_cons, bind_eq_ok_iff] at h
      obtain ⟨c, hc, hrest⟩ := h
      rw [List.foldl_cons, ← hstep b a (by simp) c hc]
      exact ih hrest fun b a' ha' => hstep b a' (by simp [ha'])

theorem foldlM_exists_ok {f : β → α → Except ε β} {l : List α}
    (h : ∀ b, ∀ a ∈ l, ∃ b', f b a = .ok b') (b : β) : ∃ b', l.foldlM f b = .ok b' := by
  induction l generalizing b with
  | nil => exact ⟨b, rfl⟩
  | cons a l ih =>
      obtain ⟨c, hc⟩ := h b a (by simp)
      obtain ⟨b', hb'⟩ := ih (fun b a' ha' => h b a' (by simp [ha'])) c
      exact ⟨b', by rw [List.foldlM_cons, hc, ok_bind, hb']⟩

/-- A fold that goes through states of a relation: each step succeeds and moves on to the next. -/
theorem foldlM_range_eq_ok {f : β → Nat → Except ε β} {p : Nat → β → Prop} {n : Nat} {b : β}
    (hb : p 0 b) (h : ∀ i b, i < n → p i b → ∃ b', f b i = .ok b' ∧ p (i + 1) b') :
    ∃ b', (List.range n).foldlM f b = .ok b' ∧ p n b' := by
  induction n with
  | zero => exact ⟨b, rfl, hb⟩
  | succ n ih =>
      obtain ⟨c, hc, hinv⟩ := ih fun i b hi => h i b (by omega)
      obtain ⟨b', hb', hinv'⟩ := h n c (by omega) hinv
      refine ⟨b', ?_, hinv'⟩
      rw [List.range_succ, List.foldlM_append, hc, ok_bind, List.foldlM_cons, hb', ok_bind]
      rfl

theorem fetch_eq_ok_iff {a : Array α} {i : Nat} {x : α} : fetch a i = .ok x ↔ a[i]? = some x := by
  unfold fetch
  split
  · rename_i h
    rw [Array.getElem?_eq_getElem h]
    simp
  · rename_i h
    rw [Array.getElem?_eq_none (by omega)]
    simp

theorem modify_eq_setIfInBounds {a : Array α} {i : Nat} {x : α} (h : a[i]? = some x) (f : α → α) :
    a.modify i f = a.setIfInBounds i (f x) := by
  apply Array.ext_getElem?
  intro j
  rw [Array.getElem?_modify, Array.getElem?_setIfInBounds]
  by_cases hij : i = j
  · subst hij
    obtain ⟨hlt, rfl⟩ := Array.getElem?_eq_some_iff.1 h
    simp [hlt]
  · simp [hij]

end FieldCircuit
