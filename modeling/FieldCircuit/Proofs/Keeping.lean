import Mathlib.Data.List.Forall2

/-!
# Computations that keep an invariant

A computation with a state and errors keeps an invariant of the state if it does so whether it succeeds
or fails, and if what it returns when it succeeds is as promised. Such facts compose along the structure
of the computation.
-/

namespace FieldCircuit

variable {ε σ α β γ : Type}

theorem run_bind (x : ExceptT ε (StateM σ) α) (f : α → ExceptT ε (StateM σ) β) (s : σ) :
    (x >>= f).run.run s = match x.run.run s with
      | (.ok a, s') => (f a).run.run s'
      | (.error e, s') => (.error e, s') := by
  change (match (x.run.run s).1 with
    | .ok a => (f a).run
    | .error e => Pure.pure (.error e)).run (x.run.run s).2 = _
  rcases x.run.run s with ⟨_ | a, s'⟩ <;> rfl

theorem liftM_ok_bind (a : α) (f : α → ExceptT ε (StateM σ) β) :
    ((liftM (Except.ok a : Except ε α) : ExceptT ε (StateM σ) α) >>= f) = f a := rfl

theorem liftM_bind_eq {x : Except ε α} {g : α → Except ε β} {f : α → ExceptT ε (StateM σ) γ}
    {k : β → ExceptT ε (StateM σ) γ} (h : ∀ a, x = .ok a → f a = liftM (g a) >>= k) :
    ((liftM x : ExceptT ε (StateM σ) α) >>= f) = liftM (x >>= g) >>= k := by
  cases x with
  | error e => rfl
  | ok a => exact h a rfl

theorem run_get (s : σ) : (get : ExceptT ε (StateM σ) σ).run.run s = (.ok s, s) := rfl

theorem run_modify (f : σ → σ) (s : σ) :
    (modify f : ExceptT ε (StateM σ) PUnit).run.run s = (.ok ⟨⟩, f s) := rfl

theorem run_tryCatch (x : ExceptT ε (StateM σ) α) (handler : ε → ExceptT ε (StateM σ) α) (s : σ) :
    (MonadExcept.tryCatch x handler).run.run s = match x.run.run s with
      | (.ok a, s') => (.ok a, s')
      | (.error e, s') => (handler e).run.run s' := by
  change (match (x.run.run s).1 with
    | .ok a => (Pure.pure (Except.ok a) : StateM σ (Except ε α))
    | .error e => (handler e).run).run (x.run.run s).2 = _
  rcases x.run.run s with ⟨_ | a, s'⟩ <;> rfl

/-- A loop that fails does so in one of its turns, after the turns before have succeeded. -/
theorem exists_of_run_forM_eq_error {l : List α} {f : α → ExceptT ε (StateM σ) PUnit} {e : ε}
    {s s' : σ} (h : (l.forM f).run.run s = (.error e, s')) : ∃ done a later mid, l = done ++ a :: later ∧
      (done.forM f).run.run s = (.ok ⟨⟩, mid) ∧ (f a).run.run mid = (.error e, s') := by
  induction l generalizing s with
  | nil => cases h
  | cons a l ih =>
      change (f a >>= fun _ => l.forM f).run.run s = _ at h
      rw [run_bind] at h
      rcases hfirst : (f a).run.run s with ⟨e' | _, t⟩
      · rw [hfirst] at h
        exact ⟨[], a, l, s, rfl, rfl, hfirst.trans h⟩
      · rw [hfirst] at h
        obtain ⟨done, b, later, mid, rfl, hdone, hb⟩ := ih h
        refine ⟨a :: done, b, later, mid, rfl, ?_, hb⟩
        change (f a >>= fun _ => done.forM f).run.run s = _
        rw [run_bind, hfirst]
        exact hdone

/-- The computation keeps the invariant, and what it returns has the property. -/
def Keeps (inv : σ → Prop) (x : ExceptT ε (StateM σ) α) (p : α → Prop) : Prop :=
  ∀ s, inv s → inv (x.run.run s).2 ∧ ∀ a, (x.run.run s).1 = .ok a → p a

namespace Keeps

variable {inv : σ → Prop} {x : ExceptT ε (StateM σ) α} {p : α → Prop}

theorem anything (x : ExceptT ε (StateM σ) α) : Keeps (fun _ => True) x fun _ => True :=
  fun _ _ => ⟨trivial, fun _ _ => trivial⟩

theorem mono {q : α → Prop} (h : Keeps inv x p) (hp : ∀ a, p a → q a) :
    Keeps inv x q :=
  fun s hs => ⟨(h s hs).1, fun a ha => hp a ((h s hs).2 a ha)⟩

theorem pure {a : α} (ha : p a) : Keeps inv (Pure.pure a : ExceptT ε (StateM σ) α) p := by
  intro s hs
  refine ⟨hs, ?_⟩
  rintro _ ⟨⟩
  exact ha

theorem get : Keeps inv (MonadState.get : ExceptT ε (StateM σ) σ) fun _ => True :=
  fun _ hs => ⟨hs, fun _ _ => trivial⟩

theorem throw (e : ε) : Keeps inv (MonadExcept.throw e : ExceptT ε (StateM σ) α) p := by
  intro s hs
  exact ⟨hs, fun a ha => by cases ha⟩

theorem bind {f : α → ExceptT ε (StateM σ) β} {q : β → Prop} (h : Keeps inv x p)
    (hf : ∀ a, p a → Keeps inv (f a) q) : Keeps inv (x >>= f) q := by
  intro s hs
  obtain ⟨hinv, hp⟩ := h s hs
  rw [run_bind]
  generalize x.run.run s = r at hinv hp
  obtain ⟨result, s'⟩ := r
  cases result with
  | error e => exact ⟨hinv, fun a ha => by cases ha⟩
  | ok a => exact hf a (hp a rfl) s' hinv

theorem tryCatch {handler : ε → ExceptT ε (StateM σ) α} (h : Keeps inv x p)
    (hhandler : ∀ e, Keeps inv (handler e) p) :
    Keeps inv (MonadExcept.tryCatch x handler) p := by
  intro s hs
  obtain ⟨hinv, hp⟩ := h s hs
  rw [run_tryCatch]
  generalize x.run.run s = r at hinv hp
  obtain ⟨result, s'⟩ := r
  cases result with
  | error e => exact hhandler e s' hinv
  | ok a => exact ⟨hinv, hp⟩

/-- What is returned in spite of a handler that always fails has not been through it. -/
theorem of_rethrow {handler : ε → ExceptT ε (StateM σ) α} {s s' : σ} {a : α}
    (hrun : (MonadExcept.tryCatch x handler).run.run s = (.ok a, s')) (hs : inv s)
    (hhandler : ∀ e s b, ((handler e).run.run s).1 ≠ .ok b) (h : Keeps inv x p) : p a := by
  rw [run_tryCatch] at hrun
  have hreturned := (h s hs).2
  generalize x.run.run s = r at hrun hreturned
  obtain ⟨result, t⟩ := r
  cases result with
  | error e => exact absurd (congrArg Prod.fst hrun) (hhandler e t a)
  | ok b => exact hreturned a (congrArg Prod.fst hrun)

theorem lift {y : Except ε α} (h : ∀ a, y = .ok a → p a) :
    Keeps inv (liftM y : ExceptT ε (StateM σ) α) p := by
  intro s hs
  cases y with
  | error e => exact ⟨hs, fun a ha => by cases ha⟩
  | ok a =>
      refine ⟨hs, ?_⟩
      rintro _ ⟨⟩
      exact h a rfl

theorem lift_bind {y : Except ε β} {f : β → ExceptT ε (StateM σ) α} (h : ∀ b, Keeps inv (f b) p) :
    Keeps inv (liftM y >>= f) p :=
  (Keeps.lift fun _ _ => trivial).bind fun b (_ : True) => h b

theorem lift_snd {y : Except ε (α × β)} {q : β → Prop} (h : ∀ a b, y = .ok (a, b) → q b) :
    Keeps inv (do return (← (liftM y : ExceptT ε (StateM σ) (α × β))).2) q :=
  (Keeps.lift (p := fun x => q x.2) fun x hx => h x.1 x.2 hx).bind fun _ hx => Keeps.pure hx

theorem forM {l : List α} {f : α → ExceptT ε (StateM σ) PUnit}
    (h : ∀ a ∈ l, Keeps inv (f a) fun _ => True) : Keeps inv (l.forM f) fun _ => True := by
  induction l with
  | nil => exact Keeps.pure trivial
  | cons a l ih =>
      change Keeps inv (f a >>= fun _ => l.forM f) _
      exact (h a (List.mem_cons_self ..)).bind fun _ _ =>
        ih fun b hb => h b (List.mem_cons_of_mem _ hb)

end Keeps

end FieldCircuit
