import FieldCircuit.Entries
import Mathlib.Algebra.BigOperators.Group.List.Lemmas
import Mathlib.Algebra.GroupWithZero.Nat
import Mathlib.Data.List.Nodup

/-!
# Entries with distinct keys

Entering and removing entries keeps their keys distinct. Where keys are distinct, looking up a key is
the same as being among the entries, and a sum over the entries changes by the entry of the key alone.
-/

namespace FieldCircuit

variable {α β : Type} [BEq α] [LawfulBEq α] {entries : List (α × β)}

omit [LawfulBEq α] in
theorem nodup_without (h : (entries.map Prod.fst).Nodup) (key : α) :
    ((without key entries).map Prod.fst).Nodup :=
  h.sublist (List.filter_sublist.map Prod.fst)

theorem mem_keys_without {key other : α} :
    other ∈ (without key entries).map Prod.fst ↔ other ≠ key ∧ other ∈ entries.map Prod.fst := by
  simp only [without, List.mem_map, List.mem_filter, bne_iff_ne]
  constructor
  · rintro ⟨e, ⟨he, hne⟩, rfl⟩
    exact ⟨hne, e, he, rfl⟩
  · rintro ⟨hne, e, he, rfl⟩
    exact ⟨e, ⟨he, hne⟩, rfl⟩

theorem mem_keys_entered {key other : α} {x : β} :
    other ∈ (entered key x entries).map Prod.fst ↔ other = key ∨ other ∈ entries.map Prod.fst := by
  rw [entered, List.map_cons, List.mem_cons, mem_keys_without]
  by_cases h : other = key <;> simp [h]

theorem nodup_entered (h : (entries.map Prod.fst).Nodup) (key : α) (x : β) :
    ((entered key x entries).map Prod.fst).Nodup :=
  List.nodup_cons.2 ⟨fun hmem => (mem_keys_without.1 hmem).1 rfl, nodup_without h key⟩

theorem without_of_notMem {key : α} (h : key ∉ entries.map Prod.fst) : without key entries = entries := by
  refine List.filter_eq_self.2 fun e he => bne_iff_ne.2 fun hkey => h ?_
  exact hkey ▸ List.mem_map_of_mem he

theorem lookup_without_self (key : α) (entries : List (α × β)) :
    (without key entries).lookup key = none := by
  rw [List.lookup_eq_none_iff]
  intro e he
  have hne := (List.mem_filter.1 he).2
  rw [bne_iff_ne] at hne
  simpa using hne.symm

theorem lookup_of_mem (h : (entries.map Prod.fst).Nodup) {e : α × β} (he : e ∈ entries) :
    entries.lookup e.1 = some e.2 := by
  induction entries with
  | nil => cases he
  | cons e' entries ih =>
      obtain ⟨k, x⟩ := e'
      obtain ⟨hfresh, hrest⟩ := List.nodup_cons.1 h
      rcases List.mem_cons.1 he with rfl | he
      · simp
      · have hne : e.1 ≠ k := fun heq => hfresh (List.mem_map.2 ⟨e, he, heq⟩)
        rw [List.lookup_cons, beq_eq_false_iff_ne.2 hne]
        exact ih hrest he

theorem mem_of_lookup {key : α} {x : β} (h : entries.lookup key = some x) : (key, x) ∈ entries := by
  obtain ⟨before, after, rfl, -⟩ := List.lookup_eq_some_iff.1 h
  exact List.mem_append_right _ (List.mem_cons_self ..)

/-- A sum over entries is what the entry of a key contributes and what the others do. -/
theorem sum_without (f : α × β → Nat) (h : (entries.map Prod.fst).Nodup) (key : α) :
    (entries.map f).sum =
      (entries.lookup key).elim 0 (fun x => f (key, x)) + ((without key entries).map f).sum := by
  induction entries with
  | nil => rfl
  | cons e entries ih =>
      obtain ⟨k, x⟩ := e
      obtain ⟨hfresh, hrest⟩ := List.nodup_cons.1 h
      by_cases hk : k = key
      · subst hk
        have hwithout : without k ((k, x) :: entries) = entries := by
          rw [← without_of_notMem hfresh]
          simp [without]
        simp [hwithout]
      · have hlookup : ((k, x) :: entries).lookup key = entries.lookup key := by
          rw [List.lookup_cons, beq_eq_false_iff_ne.2 (Ne.symm hk)]
        have hwithout : without key ((k, x) :: entries) = (k, x) :: without key entries := by
          simp [without, hk]
        rw [hlookup, hwithout, List.map_cons, List.map_cons, List.sum_cons, List.sum_cons, ih hrest]
        omega

omit [LawfulBEq α] in
theorem sum_entered (f : α × β → Nat) (key : α) (x : β) :
    ((entered key x entries).map f).sum = f (key, x) + ((without key entries).map f).sum := by
  simp [entered]

theorem sum_replaced (f : α × β → Nat) (h : (entries.map Prod.fst).Nodup) (key : α) (x : β) :
    ((entered key x entries).map f).sum + (entries.lookup key).elim 0 (fun x => f (key, x)) =
      (entries.map f).sum + f (key, x) := by
  rw [sum_entered, sum_without f h key]
  omega

end FieldCircuit
