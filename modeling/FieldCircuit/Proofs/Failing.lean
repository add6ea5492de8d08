import FieldCircuit.Kernel.Error
import FieldCircuit.Proofs.Outcome

/-!
# How computations fail

A computation fails only in some ways if every error that it can end with is of that kind. Such facts
compose along the structure of the computation, and a step may use that the earlier ones succeeded.
-/

namespace FieldCircuit

variable {ε α β : Type}

/-- Every error that the computation can end with is of a kind. -/
def FailsOnly (p : ε → Prop) (x : Except ε α) : Prop := ∀ e, x = .error e → p e

namespace FailsOnly

variable {p : ε → Prop} {x : Except ε α}

theorem ok (a : α) : FailsOnly p (.ok a : Except ε α) := fun _ h => by cases h

theorem of_ok {a : α} (h : x = .ok a) : FailsOnly p x := h ▸ ok a

theorem error {e : ε} (h : p e) : FailsOnly p (.error e : Except ε α) := by
  rintro _ ⟨⟩
  exact h

theorem bind {f : α → Except ε β} (h : FailsOnly p x) (hf : ∀ a, x = .ok a → FailsOnly p (f a)) :
    FailsOnly p (x >>= f) := by
  cases x with
  | error e => exact error (h e rfl)
  | ok a => exact hf a rfl

theorem bind_of_ok {a : α} {f : α → Except ε β} (h : x = .ok a) (hf : FailsOnly p (f a)) :
    FailsOnly p (x >>= f) := by
  rw [h]
  exact hf

theorem ite {c : Prop} [Decidable c] {y : Except ε α} (hx : c → FailsOnly p x)
    (hy : ¬c → FailsOnly p y) : FailsOnly p (if c then x else y) := by
  split
  · exact hx ‹c›
  · exact hy ‹¬c›

theorem mapM {f : α → Except ε β} {l : List α} (h : ∀ a ∈ l, FailsOnly p (f a)) :
    FailsOnly p (l.mapM f) := by
  induction l with
  | nil => exact ok []
  | cons a l ih =>
      rw [List.mapM_cons]
      exact (h a List.mem_cons_self).bind fun b _ =>
        (ih fun a' ha' => h a' (List.mem_cons_of_mem _ ha')).bind fun bs _ => ok (b :: bs)

theorem forM {f : α → Except ε PUnit} {l : List α} (h : ∀ a ∈ l, FailsOnly p (f a)) :
    FailsOnly p (l.forM f) := by
  induction l with
  | nil => exact ok _
  | cons a l ih =>
      exact (h a List.mem_cons_self).bind fun _ _ => ih fun a' ha' => h a' (List.mem_cons_of_mem _ ha')

theorem allM {f : α → Except ε Bool} {l : List α} (h : ∀ a ∈ l, FailsOnly p (f a)) :
    FailsOnly p (l.allM f) := by
  induction l with
  | nil => exact ok true
  | cons a l ih =>
      rw [List.allM]
      refine (h a List.mem_cons_self).bind fun b _ => ?_
      cases b with
      | false => exact ok false
      | true => exact ih fun a' ha' => h a' (List.mem_cons_of_mem _ ha')

theorem liftFault {p : KernelError → Prop} {q : Fault → Prop} {x : Except Fault α}
    (h : FailsOnly q x) (hp : ∀ fault, q fault → p (.fault fault)) :
    FailsOnly p (liftM x : Except KernelError α) := by
  cases x with
  | error fault => exact error (hp fault (h fault rfl))
  | ok a => exact ok a

end FailsOnly

end FieldCircuit
