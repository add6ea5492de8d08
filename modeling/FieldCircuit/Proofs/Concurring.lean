import FieldCircuit.Proofs.Outcome

/-!
# Computations that concur

Two computations that may fail concur if they fail with the same error, or both succeed with results
that are related. Sequences concur if their parts do.
-/

namespace FieldCircuit

variable {ε α β γ δ : Type}

/-- Both computations fail with the same error, or both succeed with related results. -/
inductive Concur (r : α → β → Prop) : Except ε α → Except ε β → Prop
  | error (e : ε) : Concur r (.error e) (.error e)
  | ok {a : α} {b : β} (h : r a b) : Concur r (.ok a) (.ok b)

namespace Concur

variable {r : α → β → Prop} {s : γ → δ → Prop} {x : Except ε α} {y : Except ε β}

theorem refl {r : α → α → Prop} (h : ∀ a, r a a) (x : Except ε α) : Concur r x x := by
  cases x with
  | error e => exact .error e
  | ok a => exact .ok (h a)

theorem imp {r' : α → β → Prop} (h : Concur r x y) (himp : ∀ a b, r a b → r' a b) :
    Concur r' x y := by
  cases h with
  | error e => exact .error e
  | ok h => exact .ok (himp _ _ h)

theorem bind {f : α → Except ε γ} {g : β → Except ε δ} (h : Concur r x y)
    (hf : ∀ a b, r a b → Concur s (f a) (g b)) : Concur s (x >>= f) (y >>= g) := by
  cases h with
  | error e => exact .error e
  | ok h => exact hf _ _ h

theorem bind_same {f : α → Except ε γ} {g : α → Except ε δ} (x : Except ε α)
    (hf : ∀ a, Concur s (f a) (g a)) : Concur s (x >>= f) (x >>= g) :=
  (refl (r := Eq) (fun _ => rfl) x).bind fun a _ h => h ▸ hf a

theorem trans {r' : β → γ → Prop} {z : Except ε γ} (h : Concur r x y) (h' : Concur r' y z) :
    Concur (fun a c => ∃ b, r a b ∧ r' b c) x z := by
  cases h with
  | error e => cases h' with
    | error => exact .error e
  | ok h => cases h' with
    | ok h' => exact .ok ⟨_, h, h'⟩

theorem symm (h : Concur r x y) : Concur (fun b a => r a b) y x := by
  cases h with
  | error e => exact .error e
  | ok h => exact .ok h

end Concur

end FieldCircuit
