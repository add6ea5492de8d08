import FieldCircuit.Proofs.Kernel.Launch

/-!
# Sound operations

A program is total for some sizes if its stores succeed on all words of these sizes and fill the
output. Stages are sound if each is total for the sizes of its slots and reads, besides inputs, only
slots that an earlier stage has filled, the output being filled at the end. Sound stages can always
be run, change no input, and leave in the output words that depend on nothing but the inputs.
-/

namespace FieldCircuit

variable {α : Type}

/-- The program succeeds on all words of the given sizes, and fills an output of `target` words. -/
def Program.Total (p : Program) (w : WorkGroup) (sources : List Nat) (target : Nat) : Prop :=
  ∀ (α : Type) (ar : Arithmetic α) (inputs : List (Array α)), inputs.map Array.size = sources →
    ∃ stores, p.stores ar w inputs = .ok stores ∧ Fills target stores

/-- The stages are total for the sizes of their slots, and read only inputs and slots that have been
filled before; `known` are those filled at the start. -/
inductive SoundStages (size : Slot → Option Nat) : List Slot → List Stage → Prop
  | nil {known : List Slot} (output : Slot.output 0 ∈ known) : SoundStages size known []
  | cons {known : List Slot} {s : Stage} {rest : List Stage} {sources : List Slot} {target : Slot}
      {lengths : List Nat} {length : Nat} (binds : s.Binds size sources target)
      (sourceSizes : sources.map size = lengths.map some) (targetSize : size target = some length)
      (total : s.program.Total s.workgroup lengths length)
      (filled : ∀ slot ∈ sources, slot.isInput = true ∨ slot ∈ known)
      (others : SoundStages size (target :: known) rest) : SoundStages size known (s :: rest)

def Sized (size : Slot → Option Nat) (σ : Slot → Array α) : Prop :=
  ∀ slot n, size slot = some n → (σ slot).size = n

theorem Sized.update {size : Slot → Option Nat} {σ : Slot → Array α} (h : Sized size σ)
    (target : Slot) {words : Array α} (hwords : words.size = (σ target).size) :
    Sized size (Function.update σ target words) := by
  intro slot n hn
  by_cases heq : slot = target
  · subst heq
    rw [Function.update_self, hwords, h slot n hn]
  · rw [Function.update_of_ne heq, h slot n hn]

theorem Sized.map_size {size : Slot → Option Nat} {σ : Slot → Array α} (h : Sized size σ)
    {sources : List Slot} {sizes : List Nat} (hsizes : sources.map size = sizes.map some) :
    (sources.map σ).map Array.size = sizes := by
  induction sources generalizing sizes with
  | nil => cases sizes with
    | nil => rfl
    | cons n sizes => cases hsizes
  | cons slot sources ih => cases sizes with
    | nil => cases hsizes
    | cons n sizes =>
        obtain ⟨hn, hrest⟩ := List.cons.inj hsizes
        rw [List.map_cons, List.map_cons, ih hrest, h slot n hn]

theorem Performs.sized {ar : Arithmetic α} {size : Slot → Option Nat} {stages : List Stage}
    {σ σ' : Slot → Array α} (h : Performs ar size stages σ σ') (hσ : Sized size σ) :
    Sized size σ' := by
  induction h with
  | nil σ => exact hσ
  | cons binds runs others ih => exact ih (hσ.update _ (Program.run_size runs))

theorem Performs.input_eq {ar : Arithmetic α} {size : Slot → Option Nat} {stages : List Stage}
    {σ σ' : Slot → Array α} (h : Performs ar size stages σ σ') {slot : Slot}
    (hslot : slot.isInput = true) : σ' slot = σ slot := by
  induction h with
  | nil σ => rfl
  | @cons s rest σ σ' sources target words binds _ _ ih =>
      have hne : slot ≠ target := by
        rintro rfl
        rw [binds.writable] at hslot
        cases hslot
      rw [ih, Function.update_of_ne hne]

/-- Two runs of sound stages that agree on inputs and on what is filled at the start both succeed, and
agree on the output in the end. -/
theorem SoundStages.performs_pair {size : Slot → Option Nat} {known : List Slot}
    {stages : List Stage} (h : SoundStages size known stages) (ar : Arithmetic α)
    {σ τ : Slot → Array α} (hσ : Sized size σ) (hτ : Sized size τ)
    (agree : ∀ slot n, size slot = some n → slot.isInput = true ∨ slot ∈ known → σ slot = τ slot) :
    ∃ σ' τ', Performs ar size stages σ σ' ∧ Performs ar size stages τ τ' ∧
      ∀ n, size (.output 0) = some n → σ' (.output 0) = τ' (.output 0) := by
  induction h generalizing σ τ with
  | nil output =>
      exact ⟨σ, τ, .nil σ, .nil τ, fun n hn => agree _ n hn (.inr output)⟩
  | @cons known s rest sources target sizes n binds hsizes hn total filled _ ih =>
      have hread : sources.map σ = sources.map τ := by
        apply List.map_congr_left
        intro slot hslot
        obtain ⟨m, hm⟩ := binds.size_source hslot
        exact agree slot m hm (filled slot hslot)
      obtain ⟨stores, hstores, hfills⟩ := total α ar (sources.map σ) (hσ.map_size hsizes)
      have hrun : ∀ ρ : Slot → Array α, Sized size ρ → sources.map ρ = sources.map σ →
          s.program.run ar s.workgroup (sources.map ρ) (ρ target) =
            .ok (stored (ρ target) stores) := by
        intro ρ hρ heq
        rw [heq, Program.run, hstores, ok_bind, hfills.storeAll_eq_ok (hρ target n hn)]
      have hsame : stored (σ target) stores = stored (τ target) stores :=
        hfills.stored_congr (hσ target n hn) (hτ target n hn)
      obtain ⟨σ', τ', hσ', hτ', hout⟩ := ih
        (hσ.update target (size_stored (σ target) stores))
        (hτ.update target (size_stored (τ target) stores)) (by
          intro slot m hm hslot
          by_cases heq : slot = target
          · subst heq
            rw [Function.update_self, Function.update_self, hsame]
          · rw [Function.update_of_ne heq, Function.update_of_ne heq]
            refine agree slot m hm (hslot.imp_right fun hmem => ?_)
            exact (List.mem_cons.1 hmem).resolve_left heq)
      exact ⟨σ', τ', .cons binds (hrun σ hσ rfl) hσ', .cons binds (hrun τ hτ hread.symm) hτ', hout⟩

def Operation.Sound (op : Operation) (inputs : List FieldType) : Prop :=
  SoundStages (op.slotWords inputs) [] op.stages

/-- A sound operation performs on all words of the right sizes. -/
theorem Operation.Sound.performs {op : Operation} {inputs : List FieldType} (h : op.Sound inputs)
    (ar : Arithmetic α) {σ : Slot → Array α} (hσ : Sized (op.slotWords inputs) σ) :
    ∃ σ', Performs ar (op.slotWords inputs) op.stages σ σ' := by
  obtain ⟨σ', -, hperf, -⟩ := SoundStages.performs_pair h ar hσ hσ fun _ _ _ _ => rfl
  exact ⟨σ', hperf⟩

end FieldCircuit
