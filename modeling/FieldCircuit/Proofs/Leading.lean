import FieldCircuit.Proofs.Keeping

/-!
# Where computations lead

A computation with a state and errors leads from a state to others: what is known of the state at its
end depends on what it returns, or on the error that it fails with. Such facts compose along the
structure of the computation.
-/

namespace FieldCircuit

variable {ε σ α β : Type}

/-- Started in the state `s`, the computation ends as `post` says if it succeeds, and as `fail` says if
it fails. -/
def Leads (x : ExceptT ε (StateM σ) α) (s : σ) (post : α → σ → Prop) (fail : ε → σ → Prop) : Prop :=
  (∀ a s', x.run.run s = (.ok a, s') → post a s') ∧ ∀ e s', x.run.run s = (.error e, s') → fail e s'

namespace Leads

variable {x : ExceptT ε (StateM σ) α} {s : σ} {post : α → σ → Prop} {fail : ε → σ → Prop}

theorem mono {post' : α → σ → Prop} {fail' : ε → σ → Prop} (h : Leads x s post fail)
    (hpost : ∀ a s, post a s → post' a s) (hfail : ∀ e s, fail e s → fail' e s) :
    Leads x s post' fail' :=
  ⟨fun a s' hrun => hpost a s' (h.1 a s' hrun), fun e s' hrun => hfail e s' (h.2 e s' hrun)⟩

theorem pure {a : α} (h : post a s) : Leads (Pure.pure a : ExceptT ε (StateM σ) α) s post fail := by
  refine ⟨?_, fun e s' hrun => by cases hrun⟩
  rintro _ _ ⟨⟩
  exact h

theorem throw {e : ε} (h : fail e s) :
    Leads (MonadExcept.throw e : ExceptT ε (StateM σ) α) s post fail := by
  refine ⟨fun a s' hrun => (by cases hrun), ?_⟩
  rintro _ _ ⟨⟩
  exact h

theorem bind {mid : α → σ → Prop} {f : α → ExceptT ε (StateM σ) β} {post : β → σ → Prop}
    (h : Leads x s mid fail) (hf : ∀ a s', mid a s' → Leads (f a) s' post fail) :
    Leads (x >>= f) s post fail := by
  obtain ⟨hok, herror⟩ := h
  unfold Leads
  rw [run_bind]
  generalize x.run.run s = r at hok herror
  obtain ⟨result, s'⟩ := r
  cases result with
  | ok a => exact hf a s' (hok a s' rfl)
  | error e =>
      refine ⟨fun a t hrun => (by cases hrun), ?_⟩
      rintro _ _ ⟨⟩
      exact herror e s' rfl

theorem of_both {p : σ → Prop} (h : Leads x s (fun _ => p) fun _ => p) : p (x.run.run s).2 := by
  obtain ⟨hok, herror⟩ := h
  generalize x.run.run s = r at hok herror
  obtain ⟨result, s'⟩ := r
  cases result with
  | ok a => exact hok a s' rfl
  | error e => exact herror e s' rfl

theorem of_end {p : σ → Prop} (h : p (x.run.run s).2) : Leads x s (fun _ => p) fun _ => p :=
  ⟨fun _ _ hrun => (hrun ▸ h :), fun _ _ hrun => (hrun ▸ h :)⟩

theorem of_ok {a : α} {s' : σ} (hrun : x.run.run s = (.ok a, s')) (h : post a s') :
    Leads x s post fail := by
  unfold Leads
  rw [hrun]
  refine ⟨?_, fun e t hrun => by cases hrun⟩
  rintro _ _ ⟨⟩
  exact h

theorem of_error {e : ε} {s' : σ} (hrun : x.run.run s = (.error e, s')) (h : fail e s') :
    Leads x s post fail := by
  unfold Leads
  rw [hrun]
  refine ⟨fun a t hrun => (by cases hrun), ?_⟩
  rintro _ _ ⟨⟩
  exact h

theorem map {f : α → β} {post : β → σ → Prop} (h : Leads x s (fun a s' => post (f a) s') fail) :
    Leads (f <$> x) s post fail := by
  rw [map_eq_pure_bind]
  exact h.bind fun a s' ha => .pure ha

theorem tryCatch {mid : ε → σ → Prop} {handler : ε → ExceptT ε (StateM σ) α} (h : Leads x s post mid)
    (hhandler : ∀ e s', mid e s' → Leads (handler e) s' post fail) :
    Leads (MonadExcept.tryCatch x handler) s post fail := by
  obtain ⟨hok, herror⟩ := h
  unfold Leads
  rw [run_tryCatch]
  generalize x.run.run s = r at hok herror
  obtain ⟨result, s'⟩ := r
  cases result with
  | error e => exact hhandler e s' (herror e s' rfl)
  | ok a =>
      refine ⟨?_, fun e t hrun => by cases hrun⟩
      rintro _ _ ⟨⟩
      exact hok a s' rfl

/-- An invariant holds at the end of a loop, and after a failure if it is not broken then. -/
theorem forM {l : List α} {f : α → ExceptT ε (StateM σ) PUnit} {inv : σ → Prop} (hs : inv s)
    (hf : ∀ a ∈ l, ∀ s, inv s → Leads (f a) s (fun _ s' => inv s') fail) :
    Leads (l.forM f) s (fun _ s' => inv s') fail := by
  induction l generalizing s with
  | nil => exact .pure hs
  | cons a l ih =>
      refine (hf a (List.mem_cons_self ..) s hs).bind fun _ s' hs' => ?_
      exact ih hs' fun b hb => hf b (List.mem_cons_of_mem a hb)

theorem update {f : σ → σ} {post : PUnit → σ → Prop} (h : post ⟨⟩ (f s)) :
    Leads (modify f : ExceptT ε (StateM σ) PUnit) s post fail := by
  refine ⟨?_, fun e s' hrun => by cases hrun⟩
  rintro _ _ ⟨⟩
  exact h

theorem and_fail {fail' : ε → σ → Prop} (h : Leads x s post fail)
    (h' : Leads x s (fun _ _ => True) fail') :
    Leads x s post fun e s' => fail' e s' ∧ fail e s' :=
  ⟨h.1, fun e s' hrun => ⟨h'.2 e s' hrun, h.2 e s' hrun⟩⟩

theorem of_keeps {inv : σ → Prop} {p : α → Prop} (h : Keeps inv x p) (hs : inv s) :
    Leads x s (fun a s' => p a ∧ inv s') fun _ s' => inv s' := by
  obtain ⟨hinv, hp⟩ := h s hs
  refine ⟨fun a s' hrun => ?_, fun e s' hrun => ?_⟩ <;> rw [hrun] at hinv hp
  · exact ⟨hp a rfl, hinv⟩
  · exact hinv

theorem lift {y : Except ε α} (hok : ∀ a, y = .ok a → post a s) (herror : ∀ e, y = .error e → fail e s) :
    Leads (liftM y : ExceptT ε (StateM σ) α) s post fail := by
  cases y with
  | ok a => exact .pure (hok a rfl)
  | error e => exact .throw (herror e rfl)

/-! What a computation does after a first step that only reads or replaces the state. -/

variable {post : β → σ → Prop}

theorem bind_pure {a : α} {f : α → ExceptT ε (StateM σ) β} (h : Leads (f a) s post fail) :
    Leads (Pure.pure a >>= f) s post fail :=
  h

theorem bind_get {f : σ → ExceptT ε (StateM σ) β} (h : Leads (f s) s post fail) :
    Leads (MonadState.get >>= f) s post fail :=
  h

theorem bind_set {t : σ} {f : PUnit → ExceptT ε (StateM σ) β} (h : Leads (f ⟨⟩) t post fail) :
    Leads (MonadStateOf.set t >>= f) s post fail :=
  h

theorem bind_update {g : σ → σ} {f : PUnit → ExceptT ε (StateM σ) β}
    (h : Leads (f ⟨⟩) (g s) post fail) : Leads (modify g >>= f) s post fail :=
  h

theorem bind_lift {y : Except ε α} {f : α → ExceptT ε (StateM σ) β}
    (hok : ∀ a, y = .ok a → Leads (f a) s post fail) (herror : ∀ e, y = .error e → fail e s) :
    Leads (liftM y >>= f) s post fail := by
  cases y with
  | ok a => exact hok a rfl
  | error e =>
      refine ⟨fun a s' hrun => (by cases hrun), ?_⟩
      rintro _ _ ⟨⟩
      exact herror e rfl

end Leads

/-- The computation keeps the invariant, unless it fails with an error of a kind, and what it returns has
the property. -/
def KeepsUnless (bad : ε → Prop) (inv : σ → Prop) (x : ExceptT ε (StateM σ) α) (p : α → Prop) : Prop :=
  ∀ s, inv s → Leads x s (fun a s' => p a ∧ inv s') fun e s' => ¬bad e → inv s'

section

variable {bad : ε → Prop} {inv : σ → Prop} {x : ExceptT ε (StateM σ) α} {p : α → Prop}

theorem Keeps.unless (h : Keeps inv x p) : KeepsUnless bad inv x p :=
  fun _ hs => (Leads.of_keeps h hs).mono (fun _ _ h => h) fun _ _ h _ => h

theorem KeepsUnless.anything (x : ExceptT ε (StateM σ) α) :
    KeepsUnless (fun _ => False) (fun _ => True) x fun _ => True :=
  (Keeps.anything x).unless

theorem KeepsUnless.pure {a : α} (ha : p a) :
    KeepsUnless bad inv (Pure.pure a : ExceptT ε (StateM σ) α) p :=
  (Keeps.pure ha).unless

theorem KeepsUnless.bind {f : α → ExceptT ε (StateM σ) β} {q : β → Prop} (h : KeepsUnless bad inv x p)
    (hf : ∀ a, p a → KeepsUnless bad inv (f a) q) : KeepsUnless bad inv (x >>= f) q :=
  fun s hs => (h s hs).bind fun a s' ha => hf a ha.1 s' ha.2

theorem KeepsUnless.lift_bind {y : Except ε β} {f : β → ExceptT ε (StateM σ) α}
    (h : ∀ b, KeepsUnless bad inv (f b) p) : KeepsUnless bad inv (liftM y >>= f) p :=
  KeepsUnless.bind (Keeps.lift (p := fun _ => True) fun _ _ => trivial).unless fun b _ => h b

end

end FieldCircuit
