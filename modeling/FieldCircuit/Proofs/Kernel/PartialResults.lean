import FieldCircuit.Proofs.Kernel.PointStages
import FieldCircuit.Proofs.Kernel.Reduction

/-!
# Rows of partial results

Filter adjoints and reductions of fields share a shape: a first stage leaves one row of partial results
per workgroup, and if there are several rows a block reduction adds them up, column by column. Such an
operation is sound if its first stage is total. It leaves what a deal of the rows to the threads of the
block reduction leaves, which in a commutative monoid is the sum over the rows.
-/

namespace FieldCircuit.Synthesis.Reduction

variable {α : Type} {op : ReduceOp} {groups width : Nat}

theorem IsBlock.total {s : Stage} {words : Nat} (h : IsBlock s op groups width words) :
    s.program.Total s.workgroup [groups * width] width := by
  obtain ⟨levels, hlevels⟩ := h.threads
  rw [h.program]
  exact BlockReduction.total (k := ⟨op, groups, width⟩) hlevels (Nat.le_of_eq h.groupCount.symm)

/-- What a block reduction leaves of partial results: every column is dealt out to its threads. -/
theorem IsBlock.run_eq_ok {ar : Arithmetic α} {s : Stage} {words levels : Nat}
    (h : IsBlock s op groups width words) (hlevels : s.workgroup.localThreads = 2 ^ levels)
    (f : Nat → Nat → α) {output : Array α} (houtput : output.size = width) :
    s.program.run ar s.workgroup [table (groups * width) fun n => f (n / width) (n % width)] output =
      .ok (table width fun i => Reduction.dealt (op.combine ar) (op.identity ar) levels
        (fun lid => strided lid groups (2 ^ levels)) fun g => f g i) := by
  rw [h.program, BlockReduction.run_eq_ok hlevels (Nat.le_of_eq h.groupCount.symm) ar
    (size_table _ _) houtput]
  congr 1
  apply table_congr
  intro i hi
  simp only [BlockReduction.share]
  rw [Reduction.treeFold_folded]
  refine Reduction.dealt_congr fun lid _ g hg => ?_
  have hlt : g * width + i < groups * width :=
    lt_mul_of_digits ((mem_strided (Nat.two_pow_pos levels)).1 hg).2.1 hi
  rw [getD_table hlt, digits_div hi, digits_mod hi]

namespace Rows

variable {first : Stage} {operation : Operation} {inputs : List FieldType}

theorem sound (h : Rows first op groups width operation.stages operation.intermediates)
    (houtput : operation.output.words = width)
    (htakes : first.Takes (operandSlots inputs)
      (firstTarget (decide (1 < groups)) (groups * width) width))
    (htotal : first.program.Total first.workgroup (inputs.map FieldType.words) (groups * width)) :
    operation.Sound inputs := by
  generalize hstages : operation.stages = stages at h
  generalize hinter : operation.intermediates = intermediates at h
  cases h with
  | single one =>
      rw [one, decide_eq_false (by decide), firstTarget_false, ← houtput] at htakes
      rw [one, Nat.one_mul, ← houtput] at htotal
      exact Operation.sound_of_single hstages htakes htotal
  | pair several isBlock =>
      rw [decide_eq_true several, firstTarget_true] at htakes
      exact Operation.sound_of_pair hstages hinter htakes (houtput ▸ isBlock.takes) htotal
        (houtput ▸ isBlock.total)

/-- The stages leave what is left of the columns of the rows that the first one leaves. -/
theorem performs_finished {ar : Arithmetic α}
    (h : Rows first op groups width operation.stages operation.intermediates) {levels : Nat}
    (hlevels : ∀ finish ∈ operation.stages.tail, finish.workgroup.localThreads = 2 ^ levels)
    (houtput : operation.output.words = width) {σ : Slot → Array α}
    (hσ : Sized (operation.slotWords inputs) σ)
    (htakes : first.Takes (operandSlots inputs)
      (firstTarget (decide (1 < groups)) (groups * width) width)) {f : Nat → Nat → α}
    (hrun : ∀ output : Array α, output.size = groups * width →
      first.program.run ar first.workgroup (((operandSlots inputs).map Prod.fst).map σ) output =
        .ok (table (groups * width) fun n => f (n / width) (n % width))) :
    ∃ σ', Performs ar (operation.slotWords inputs) operation.stages σ σ' ∧
      σ' (.output 0) = table width fun i =>
        Reduction.finished (op.combine ar) (op.identity ar) levels groups fun g => f g i := by
  have hreads := operation.slotWords_operandSlots inputs
  have hapart : ∀ slot : Slot, slot.isInput = false → slot ∉ (operandSlots inputs).map Prod.fst := by
    intro slot hslot hmem
    obtain ⟨r, hr, rfl⟩ := List.mem_map.1 hmem
    obtain ⟨i, t, -, rfl⟩ := mem_operandSlots hr
    cases hslot
  have hout : (σ (.output 0)).size = width := (hσ (.output 0) _ rfl).trans houtput
  generalize hstages : operation.stages = stages at h hlevels ⊢
  generalize hinter : operation.intermediates = intermediates at h
  cases h with
  | single one =>
      subst one
      rw [decide_eq_false (by decide), firstTarget_false] at htakes
      have hbinds : first.Binds (operation.slotWords inputs) _ _ :=
        htakes.binds hreads (congrArg some houtput) rfl (hapart _ rfl)
      refine ⟨_, .cons hbinds (hrun _ (by rw [hout, Nat.one_mul])) (.nil _), ?_⟩
      rw [Function.update_self, Nat.one_mul]
      apply table_congr
      intro i hi
      rw [Reduction.finished, if_neg (by decide), Nat.div_eq_of_lt hi, Nat.mod_eq_of_lt hi]
  | @pair finish several isBlock =>
      have hpartial : operation.slotWords inputs (.intermediate 0) = some (groups * width) := by
        simp [Operation.slotWords, hinter]
      rw [decide_eq_true several, firstTarget_true] at htakes
      have hbinds : first.Binds (operation.slotWords inputs) _ _ :=
        htakes.binds hreads hpartial rfl (hapart _ rfl)
      have hbinds' : finish.Binds (operation.slotWords inputs) _ _ :=
        isBlock.takes.binds (by simpa using hpartial) (congrArg some houtput) rfl (by simp)
      refine ⟨_, .cons hbinds (hrun _ (hσ _ _ hpartial)) (.cons hbinds' ?_ (.nil _)),
        Function.update_self ..⟩
      simp only [List.map_cons, List.map_nil, Function.update_self, Reduction.finished, if_pos several]
      exact isBlock.run_eq_ok (hlevels finish (by simp)) f hout

/-- The workgroups of the finishing stage, if there is one, have a power of two of threads. -/
theorem exists_levels {stages : List Stage} {intermediates : List Nat}
    (h : Rows first op groups width stages intermediates) :
    0 < groups ∧ ∃ levels, ∀ finish ∈ stages.tail, finish.workgroup.localThreads = 2 ^ levels := by
  cases h with
  | single one => exact ⟨by omega, 0, by simp⟩
  | pair several isBlock =>
      obtain ⟨levels, hlevels⟩ := isBlock.threads
      exact ⟨by omega, levels, by simpa using hlevels⟩

/-- In a commutative monoid the stages leave the sum of the rows that the first one leaves. -/
theorem performs [AddCommMonoid α] {ar : Arithmetic α}
    (h : Rows first op groups width operation.stages operation.intermediates)
    (hcombine : ∀ x y, op.combine ar x y = x + y) (hidentity : op.identity ar = 0)
    (houtput : operation.output.words = width) {σ : Slot → Array α}
    (hσ : Sized (operation.slotWords inputs) σ)
    (htakes : first.Takes (operandSlots inputs)
      (firstTarget (decide (1 < groups)) (groups * width) width)) {f : Nat → Nat → α}
    (hrun : ∀ output : Array α, output.size = groups * width →
      first.program.run ar first.workgroup (((operandSlots inputs).map Prod.fst).map σ) output =
        .ok (table (groups * width) fun n => f (n / width) (n % width))) :
    ∃ σ', Performs ar (operation.slotWords inputs) operation.stages σ σ' ∧
      σ' (.output 0) = table width fun i => ∑ g ∈ Finset.range groups, f g i := by
  obtain ⟨hgroups, levels, hlevels⟩ := h.exists_levels
  obtain ⟨σ', hperforms, hwords⟩ := h.performs_finished hlevels houtput hσ htakes hrun
  refine ⟨σ', hperforms, hwords.trans (table_congr fun i _ => ?_)⟩
  rw [hidentity, Reduction.finished_eq_sum hcombine levels hgroups]

end Rows

end FieldCircuit.Synthesis.Reduction
