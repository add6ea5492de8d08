import FieldCircuit.Proofs.Failing
import FieldCircuit.Proofs.Stores

/-!
# Phases between barriers

Between two barriers the threads of a workgroup run side by side, in no particular order. Here they take
turns: a thread computes a value from the memory and then puts it back. If no thread changes what
another one reads or writes, `RaceFree`, then the order of the turns does not matter.
-/

namespace FieldCircuit

variable {σ ι α β : Type}

def phase (word : σ → ι → Except Fault β) (put : σ → ι → β → Except Fault σ) (threads : List ι)
    (s : σ) : Except Fault σ :=
  threads.foldlM (fun s i => word s i >>= put s i) s

/-- The order in which some threads take turns does not matter. -/
def AnyOrder (threads : List ι) (run : List ι → Except Fault σ) : Prop :=
  ∀ order, order.Perm threads → run order = run threads

theorem AnyOrder.comp {κ : Type} {threads : List ι} {run : List κ → Except Fault σ}
    {walk : ι → List κ} (h : AnyOrder (threads.flatMap walk) run) :
    AnyOrder threads fun order => run (order.flatMap walk) :=
  fun _ horder => h _ (horder.flatMap_right walk)

/-- Two computations that read the same state, and can only fail in one way, can be exchanged. -/
theorem bind_exchange {fault : Fault} {x : Except Fault α} {y : Except Fault β}
    (hx : FailsOnly (· = fault) x) (hy : FailsOnly (· = fault) y) (f : α → β → Except Fault σ) :
    (x >>= fun a => y >>= fun b => f a b) = y >>= fun b => x >>= fun a => f a b := by
  cases x with
  | ok a => rfl
  | error e =>
      cases y with
      | ok b => rfl
      | error e' => rw [error_bind, error_bind, hx e rfl, hy e' rfl]

/-- No thread changes what another one reads or writes. Faults count as results: all of them are of
one kind. -/
structure RaceFree (threads : List ι) (word : σ → ι → Except Fault β)
    (put : σ → ι → β → Except Fault σ) : Prop where
  /-- What a thread puts back does not change what another one computes. -/
  stable : ∀ i ∈ threads, ∀ j ∈ threads, i ≠ j →
    ∀ s x s', put s i x = .ok s' → word s' j = word s j
  /-- Two threads put back at places of their own. -/
  apart : ∀ i ∈ threads, ∀ j ∈ threads, i ≠ j → ∀ s x y,
    (put s i x >>= fun s' => put s' j y) = put s j y >>= fun s' => put s' i x
  word_fails : ∀ s i, FailsOnly (· = .outOfRange) (word s i)
  put_fails : ∀ s i x, FailsOnly (· = .outOfRange) (put s i x)

namespace RaceFree

variable {threads : List ι} {word : σ → ι → Except Fault β} {put : σ → ι → β → Except Fault σ}

theorem turns_eq (h : RaceFree threads word put) {i j : ι} (hi : i ∈ threads) (hj : j ∈ threads)
    (hij : i ≠ j) (s : σ) :
    (word s i >>= put s i >>= fun s' => word s' j >>= put s' j) =
      word s i >>= fun x => word s j >>= fun y => put s i x >>= fun s' => put s' j y := by
  rw [bind_assoc]
  congr 1
  funext x
  rw [bind_exchange (h.word_fails s j) (h.put_fails s i x)]
  cases hput : put s i x with
  | error e => rfl
  | ok s' => rw [ok_bind, ok_bind, h.stable i hi j hj hij s x s' hput]

theorem turns_comm (h : RaceFree threads word put) {i j : ι} (hi : i ∈ threads) (hj : j ∈ threads)
    (s : σ) :
    (word s i >>= put s i >>= fun s' => word s' j >>= put s' j) =
      word s j >>= put s j >>= fun s' => word s' i >>= put s' i := by
  by_cases hij : i = j
  · rw [hij]
  · rw [h.turns_eq hi hj hij, h.turns_eq hj hi (Ne.symm hij),
      bind_exchange (h.word_fails s i) (h.word_fails s j)]
    simp only [h.apart i hi j hj hij s]

/-- The threads of a phase without races may take their turns in any order. -/
theorem anyOrder (h : RaceFree threads word put) (s : σ) :
    AnyOrder threads fun order => phase word put order s := by
  intro order horder
  simp only [phase, List.foldlM_eq_foldl]
  refine horder.foldl_eq' (fun i hi j hj x => ?_) _
  cases x with
  | error e => rfl
  | ok s => exact h.turns_comm (horder.mem_iff.1 hi) (horder.mem_iff.1 hj) s

end RaceFree

section Slots

variable {a : Array α} {i j : Nat}

theorem fetch_setIfInBounds_of_ne (hij : i ≠ j) (x : α) :
    fetch (a.setIfInBounds i x) j = fetch a j := by
  simp only [fetch, Array.size_setIfInBounds]
  split
  · rw [Array.getElem_setIfInBounds_ne _ hij]
  · rfl

theorem fetch_fails (a : Array α) (i : Nat) : FailsOnly (· = .outOfRange) (fetch a i) := by
  unfold fetch
  split
  · exact .ok _
  · exact .error rfl

theorem store_fails (a : Array α) (i : Nat) (x : α) : FailsOnly (· = .outOfRange) (store a i x) := by
  unfold store
  split
  · exact .ok _
  · exact .error rfl

theorem eq_setIfInBounds_of_store {a' : Array α} {x : α} (h : store a i x = .ok a') :
    a' = a.setIfInBounds i x := by
  by_cases hi : i < a.size
  · rw [store_eq_ok_setIfInBounds x hi] at h
    exact (Except.ok.inj h).symm
  · rw [store, dif_neg hi] at h
    cases h

theorem store_comm (hij : i ≠ j) (a : Array α) (x y : α) :
    (store a i x >>= fun a' => store a' j y) = store a j y >>= fun a' => store a' i x := by
  simp only [store]
  by_cases hi : i < a.size <;> by_cases hj : j < a.size
  · simp [hi, hj, Array.set_comm _ _ hij]
  all_goals simp [hi, hj]

/-- Threads that store at positions of their own, which the other ones do not read. -/
theorem RaceFree.of_slots {threads : List ι} {word : Array α → ι → Except Fault α} (slot : ι → Nat)
    (hslot : ∀ i ∈ threads, ∀ j ∈ threads, i ≠ j → slot i ≠ slot j)
    (hword : ∀ i ∈ threads, ∀ j ∈ threads, i ≠ j →
      ∀ a x, word (a.setIfInBounds (slot i) x) j = word a j)
    (hfails : ∀ a i, FailsOnly (· = .outOfRange) (word a i)) :
    RaceFree threads word fun a i x => store a (slot i) x where
  stable := by
    intro i hi j hj hij a x a' hput
    rw [eq_setIfInBounds_of_store hput]
    exact hword i hi j hj hij a x
  apart := fun i hi j hj hij a x y => store_comm (hslot i hi j hj hij) a x y
  word_fails := hfails
  put_fails := fun a i x => store_fails a (slot i) x

end Slots

end FieldCircuit
