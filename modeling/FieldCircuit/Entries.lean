/-!
# Entries

Lists of entries that are found by a key. Entering a key replaces the entry that was there.
-/

namespace FieldCircuit

variable {α β : Type} [BEq α]

def without (key : α) (entries : List (α × β)) : List (α × β) := entries.filter (·.1 != key)

def entered (key : α) (x : β) (entries : List (α × β)) : List (α × β) :=
  (key, x) :: without key entries

@[simp] theorem lookup_entered_self [ReflBEq α] (key : α) (x : β) (entries : List (α × β)) :
    (entered key x entries).lookup key = some x := by
  simp [entered]

theorem lookup_without_of_ne [LawfulBEq α] {key other : α} (h : other ≠ key)
    (entries : List (α × β)) : (without key entries).lookup other = entries.lookup other := by
  induction entries with
  | nil => rfl
  | cons e rest ih =>
    obtain ⟨k, x⟩ := e
    simp only [without, List.filter_cons] at ih ⊢
    by_cases hk : k = key
    · have ho : (other == key) = false := by simpa using h
      simp [hk, List.lookup_cons, ih, ho]
    · simp [hk, List.lookup_cons, ih]

theorem lookup_entered_of_ne [LawfulBEq α] {key other : α} (h : other ≠ key) (x : β)
    (entries : List (α × β)) : (entered key x entries).lookup other = entries.lookup other := by
  have ho : (other == key) = false := by simpa using h
  rw [entered, List.lookup_cons, ho, lookup_without_of_ne h]

end FieldCircuit
