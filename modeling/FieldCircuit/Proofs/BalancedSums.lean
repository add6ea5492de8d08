import FieldCircuit.Proofs.FieldReduction
import FieldCircuit.Proofs.Kernel.PlaneTree
import FieldCircuit.Proofs.SinglePrecision

/-!
# Balanced sums of fields

The sum over a plane of a power of two of points is balanced exactly if the plane is dealt out
evenly on the device. A constant field is then doubled once per level, so that its sum is exact in
single precision whenever it is representable. The number of workgroups is limited by the compute
units of the device, and a plane of more points than two for every thread of all workgroups is not
dealt out evenly.
-/

namespace FieldCircuit

namespace SumTree.Doubling

open Single

variable {k : Nat} {s : SumTree}

/-- In single precision doubling is exact as far as the doubled number is representable. -/
theorem units_eval (h : Doubling k s) {v : Float32} {n : Int} (hv : units v = some n)
    (hsum : Representable (n * 2 ^ k)) :
    units (s.eval Arithmetic.single.add Arithmetic.single.zero fun _ => v) = some (n * 2 ^ k) := by
  have hn : Representable n := exists_units_iff.1 ⟨v, hv⟩
  induction h with
  | point i => rw [pow_zero, mul_one]; exact hv
  | @first k s _ ih =>
      have hadd := units_add (x := 0.0) (a := 0) (by decide +kernel) (ih hsum) (by rwa [zero_add])
      rwa [zero_add] at hadd
  | @pair k left right _ _ ihl ihr =>
      have hdouble : n * 2 ^ (k + 1) = n * 2 ^ k + n * 2 ^ k := by ring
      have hhalf := hn.of_doubled hsum (Nat.le_succ k)
      rw [hdouble] at hsum ⊢
      exact units_add (ihl hhalf) (ihr hhalf) hsum

end SumTree.Doubling

namespace Synthesis.Reduction

/-- One or two points for every thread that takes points, and one or two workgroups for every thread
that finishes. -/
def DealtEvenly (points : Nat) (caps : Capabilities) : Prop :=
  points ∣ 2 * (threadCount points caps * groupCount points caps) ∧
    groupCount points caps ≤ 2 * threadCount points caps

instance (points : Nat) (caps : Capabilities) : Decidable (DealtEvenly points caps) :=
  inferInstanceAs (Decidable (_ ∧ _))

/-- A power of two of points is a power of two of rows, which the workgroups share, and the threads
of the finishing stage are limited by those of the first. -/
theorem rows_of_two_pow (p : Nat) (caps : Capabilities) :
    ∃ k levels levels', 2 ^ p = 2 ^ k * 2 ^ levels ∧ threadCount (2 ^ p) caps = 2 ^ levels ∧
      groupCount (2 ^ p) caps ≤ 2 ^ k ∧ threadCount (groupCount (2 ^ p) caps) caps = 2 ^ levels' ∧
      (1 < groupCount (2 ^ p) caps →
        2 ^ levels' = min (ceilPowerOfTwo (groupCount (2 ^ p) caps)) (2 ^ levels)) := by
  have hpos := Nat.two_pow_pos p
  obtain ⟨levels, hlevels⟩ := threadCount_eq (2 ^ p) caps
  obtain ⟨levels', hlevels'⟩ := threadCount_eq (groupCount (2 ^ p) caps) caps
  have hthreads : 2 ^ levels = min (2 ^ p) (threadLimit caps) := by
    rw [← hlevels, threadCount, Nat.max_eq_left hpos, ceilPowerOfTwo_two_pow]
  have hle : levels ≤ p :=
    (Nat.pow_le_pow_iff_right (a := 2) (by decide)).1 (hthreads ▸ Nat.min_le_left _ _)
  have hsplit : 2 ^ p = 2 ^ (p - levels) * 2 ^ levels := by
    rw [← pow_add, Nat.sub_add_cancel hle]
  have hgroups : groupCount (2 ^ p) caps = min (2 ^ (p - levels)) (groupLimit caps) := by
    rw [groupCount, hlevels, hsplit, ceilDiv, Nat.mul_div_cancel _ (Nat.two_pow_pos levels),
      Nat.mul_mod_left, if_pos rfl, Nat.add_zero]
  refine ⟨p - levels, levels, levels', hsplit, hlevels, hgroups ▸ Nat.min_le_left _ _, hlevels', ?_⟩
  intro hseveral
  -- with several workgroups the threads of the first stage are as many as the device allows
  have hfewer : 2 ^ levels < 2 ^ p := by
    have hrows : 1 < 2 ^ (p - levels) := by omega
    rw [hsplit]
    exact (Nat.lt_mul_iff_one_lt_left (Nat.two_pow_pos levels)).2 hrows
  rw [← hlevels', threadCount, Nat.max_eq_left hseveral.le]
  omega

end Synthesis.Reduction

/-- For every tensor element the operation performs the additions of a tree on the points of its
plane, whatever the words and their addition are. -/
def Operation.AddsAlong (op : Operation) (t : FieldType) (s : SumTree) : Prop :=
  ∀ ⦃α : Type⦄ (ar : Arithmetic α) ⦃x output : Array α⦄ ⦃intermediates : List (Array α)⦄,
    op.Accepts [t] [x] output intermediates →
      (op.run ar [x] [output] intermediates).result = .ok () ∧
        (op.run ar [x] [output] intermediates).outputs = [table t.elements fun e =>
          s.eval ar.add ar.zero fun p => x.getD (e * t.points + p) ar.zero]

/-- What a sum of a field performs. -/
theorem Synthesis.addsAlong_ofPlane {t : FieldType} {caps : Capabilities} {op : Operation}
    {levels levels' : Nat} (hop : synthesize (.fieldReduce .sum) [t] caps = .ok op)
    (hlevels : Reduction.threadCount t.points caps = 2 ^ levels)
    (hlevels' : Reduction.threadCount (Reduction.groupCount t.points caps) caps = 2 ^ levels') :
    op.AddsAlong t (.ofPlane levels levels' t.points (Reduction.groupCount t.points caps)) := by
  intro α ar x output intermediates haccepts
  obtain ⟨_, result, heq, hinput, hresult, hbuild⟩ := synthesize_fieldReduce hop
  obtain rfl : t = _ := by simpa using heq
  obtain ⟨houtput, plane, isPlane, hthreads, hrows, hthreads'⟩ :=
    Reduction.build_shape hresult hbuild
  have hσ : Sized (op.slotWords [t]) (Operation.slots [x] output intermediates) :=
    haccepts.holds.words
  have hfinish : ∀ finish ∈ op.stages.tail, finish.workgroup.localThreads = 2 ^ levels' :=
    fun finish hmem => (hthreads' finish hmem).trans hlevels'
  obtain ⟨σ', hperforms, hwords⟩ :=
    hrows.performs_ofPlane isPlane (hthreads.trans hlevels) hfinish hinput hresult houtput hσ
  obtain ⟨hrun, houtputs⟩ := Operation.run_of_performs haccepts hperforms
  refine ⟨hrun, ?_⟩
  rw [houtputs, hwords]
  simp only [SumTree.eval_ofPlane]
  rfl

theorem getD_replicate_words {α : Type} {t : FieldType} (hwords : t.words = t.elements * t.points)
    (v d : α) {e p : Nat} (he : e < t.elements) (hp : p < t.points) :
    (Array.replicate t.words v).getD (e * t.points + p) d = v := by
  have hlt : e * t.points + p < t.words := hwords ▸ lt_mul_of_digits he hp
  simp [Array.getD, hlt]

theorem Operation.AddsAlong.constant {op : Operation} {t : FieldType} {levels levels' groups : Nat}
    (h : op.AddsAlong t (.ofPlane levels levels' t.points groups))
    (hwords : t.words = t.elements * t.points) (hgroups : 0 < groups) {α : Type} {ar : Arithmetic α}
    {v : α} {output : Array α} {intermediates : List (Array α)}
    (haccepts : op.Accepts [t] [Array.replicate t.words v] output intermediates) :
    (op.run ar [Array.replicate t.words v] [output] intermediates).outputs =
      [table t.elements fun _ =>
        (SumTree.ofPlane levels levels' t.points groups).eval ar.add ar.zero fun _ => v] := by
  rw [(h ar haccepts).2]
  congr 1
  apply table_congr
  intro e he
  exact SumTree.eval_ofPlane_congr hgroups ar.add ar.zero fun p hp =>
    getD_replicate_words hwords v ar.zero he hp

open Synthesis.Reduction in
/-- Sums of fields with a power of two of points: the executed reduction performs the additions of
one tree for every tensor element. The tree has every point once and is balanced exactly if the
plane is dealt out evenly on the device. In that case a constant field is doubled once per level,
which in single precision is exact whenever the sum is representable. -/
theorem fieldReduce_sum_balanced_iff {t : FieldType} {caps : Capabilities} {op : Operation}
    {p : Nat} (hpoints : t.points = 2 ^ p)
    (hop : Synthesis.synthesize (.fieldReduce .sum) [t] caps = .ok op) :
    ∃ s : SumTree, op.AddsAlong t s ∧ s.count = t.points ∧
      (s.Balanced ↔ DealtEvenly t.points caps) ∧
      (DealtEvenly t.points caps →
        (∀ (α : Type) (ar : Arithmetic α) (v : α) (output : Array α)
            (intermediates : List (Array α)),
          (∀ x, ar.add ar.zero x = x) →
          op.Accepts [t] [Array.replicate t.words v] output intermediates →
          (op.run ar [Array.replicate t.words v] [output] intermediates).outputs =
            [table t.elements fun _ => (fun x => ar.add x x)^[p] v]) ∧
        ∀ (v sum : Float32) (n : Int) (output : Array Float32)
            (intermediates : List (Array Float32)),
          Single.units v = some n → Single.units sum = some (n * t.points) →
          op.Accepts [t] [Array.replicate t.words v] output intermediates →
          ∃ w, Single.units w = some (n * t.points) ∧
            (op.run .single [Array.replicate t.words v] [output] intermediates).outputs =
              [table t.elements fun _ => w]) := by
  obtain ⟨k, levels, levels', hrows, hlevels, hle, hlevels', hfinish⟩ := rows_of_two_pow p caps
  rw [← hpoints] at hrows hlevels hle hlevels' hfinish
  have hgroups := groupCount_pos t.points_pos caps
  have hadds := Synthesis.addsAlong_ofPlane hop hlevels hlevels'
  have hwords : t.words = t.elements * t.points := by
    obtain ⟨_, _, heq, hinput, -, -⟩ := Synthesis.synthesize_fieldReduce hop
    obtain rfl : t = _ := by simpa using heq
    exact hinput
  have hcount : (SumTree.ofPlane levels levels' t.points (groupCount t.points caps)).count =
      t.points := SumTree.count_ofPlane hgroups
  have heven : DealtEvenly t.points caps ↔ 2 ^ k ∣ 2 * groupCount t.points caps ∧
      groupCount t.points caps ≤ 2 * 2 ^ levels := by
    unfold DealtEvenly
    rw [hlevels, Nat.mul_comm (2 ^ levels), ← Nat.mul_assoc, hrows,
      Nat.mul_dvd_mul_iff_right (Nat.two_pow_pos levels)]
  refine ⟨_, hadds, hcount, ?_, fun hdealt => ?_⟩
  · rw [heven]
    generalize groupCount t.points caps = groups at *
    rw [hrows]
    exact SumTree.balanced_ofPlane_iff hgroups hle hfinish
  · rw [heven] at hdealt
    obtain ⟨j, hdoubling⟩ : ∃ j, SumTree.Doubling j
        (.ofPlane levels levels' t.points (groupCount t.points caps)) := by
      generalize groupCount t.points caps = groups at *
      rw [hrows]
      exact SumTree.doubling_of_even hgroups hle hfinish hdealt.1 hdealt.2
    obtain rfl : j = p :=
      Nat.pow_right_injective (Nat.le_refl 2) (hdoubling.count_eq.symm.trans (hcount.trans hpoints))
    constructor
    · intro α ar v output intermediates hzero haccepts
      rw [hadds.constant hwords hgroups haccepts, hdoubling.eval_const fun _ _ => hzero _]
    · intro v sum n output intermediates hv hsum haccepts
      have hpow : n * t.points = n * 2 ^ j := by rw [hpoints]; norm_cast
      rw [hpow] at hsum ⊢
      exact ⟨_, hdoubling.units_eval hv (Single.exists_units_iff.1 ⟨sum, hsum⟩),
        hadds.constant hwords hgroups haccepts⟩

-- the largest plane that an accelerator deals out evenly
example : Synthesis.Reduction.DealtEvenly (2 ^ 15) .standard ∧
    ¬ Synthesis.Reduction.DealtEvenly (2 ^ 16) .standard := by decide +kernel

def FieldType.longRow : FieldType :=
  ⟨⟨[8192]⟩, ⟨[]⟩, .float, by decide, by decide, by decide, by decide⟩

def FieldType.shortRow : FieldType :=
  ⟨⟨[8]⟩, ⟨[]⟩, .float, by decide, by decide, by decide, by decide⟩

/-- On an accelerator 32 workgroups of 256 threads add up 8192 times 4097 exactly. -/
theorem fieldReduce_sum_balanced_long_row : ∃ (op : Operation) (s : SumTree) (w : Float32),
    Synthesis.synthesize (.fieldReduce .sum) [.longRow] .standard = .ok op ∧
      op.AddsAlong .longRow s ∧ s.Balanced ∧
      (op.run .single [Array.replicate 8192 4097.0] [#[0.0]] [Array.replicate 32 0.0]).outputs =
        [table 1 fun _ => w] ∧
      Single.units w = Single.units 33562624.0 := by
  obtain ⟨op, hsynthesize, haccepts⟩ : ∃ op : Operation,
      Synthesis.synthesize (.fieldReduce .sum) [.longRow] .standard = .ok op ∧
        op.Accepts [.longRow] [Array.replicate FieldType.longRow.words (4097.0 : Float32)] #[0.0]
          [Array.replicate 32 0.0] := by
    obtain ⟨op, hop, haccepts⟩ := Synthesis.Reduction.synthesize_exists .sum .longRow .standard 32
      rfl rfl rfl (by decide) (by decide) rfl rfl (by decide) (by decide) rfl rfl rfl
    exact ⟨op, hop, haccepts Array.size_replicate rfl Array.size_replicate⟩
  have hdealt : Synthesis.Reduction.DealtEvenly FieldType.longRow.points .standard := by
    decide +kernel
  obtain ⟨s, hadds, -, hbalanced, hconstant⟩ :=
    fieldReduce_sum_balanced_iff (p := 13) (by decide) hsynthesize
  obtain ⟨w, hw, houtputs⟩ := (hconstant hdealt).2 4097.0 33562624.0 (4097 * 2 ^ 149) _ _
    (by decide +kernel) (by decide +kernel) haccepts
  exact ⟨op, s, w, hsynthesize, hadds, hbalanced.2 hdealt, houtputs, hw.trans (by decide +kernel)⟩

/-- On a device with workgroups of one thread the eight workgroups of a row of eight numbers are
added up one after another, and 15049294 times eight is not exact. -/
theorem fieldReduce_sum_not_balanced : ∃ op : Operation,
    Synthesis.synthesize (.fieldReduce .sum) [.shortRow] ⟨4096, 1, 2, 65536⟩ = .ok op ∧
      (∃ s, op.AddsAlong .shortRow s ∧ ¬ s.Balanced) ∧
      (op.run .single [Array.replicate 8 15049294.0] [#[0.0]] [Array.replicate 8 0.0]).outputs =
        [#[120394360.0]] ∧
      Single.units 120394352.0 = some (8 * (15049294 * 2 ^ 149)) := by
  obtain ⟨op, hsynthesize, haccepts⟩ : ∃ op : Operation,
      Synthesis.synthesize (.fieldReduce .sum) [.shortRow] ⟨4096, 1, 2, 65536⟩ = .ok op ∧
        op.Accepts [.shortRow] [Array.replicate FieldType.shortRow.words (15049294.0 : Float32)]
          #[0.0] [Array.replicate 8 0.0] := by
    obtain ⟨op, hop, haccepts⟩ := Synthesis.Reduction.synthesize_exists .sum .shortRow
      ⟨4096, 1, 2, 65536⟩ 8 rfl rfl rfl (by decide) (by decide) rfl rfl (by decide) (by decide) rfl
      rfl rfl
    exact ⟨op, hop, haccepts Array.size_replicate rfl Array.size_replicate⟩
  have hgroups :
      Synthesis.Reduction.groupCount FieldType.shortRow.points ⟨4096, 1, 2, 65536⟩ = 8 := by
    decide +kernel
  have hadds : op.AddsAlong .shortRow (.ofPlane 0 0 FieldType.shortRow.points
      (Synthesis.Reduction.groupCount FieldType.shortRow.points ⟨4096, 1, 2, 65536⟩)) :=
    Synthesis.addsAlong_ofPlane hsynthesize (by decide +kernel) (by decide +kernel)
  rw [hgroups] at hadds
  refine ⟨op, hsynthesize, ⟨_, hadds, fun h => ?_⟩, ?_, by decide +kernel⟩
  · have hfew :=
      (SumTree.balanced_ofPlane_iff (k := 3) (by decide) (by decide) (by decide +kernel)).1 h
    exact absurd hfew (by decide)
  · have hconstant : (op.run .single [Array.replicate FieldType.shortRow.words 15049294.0] [#[0.0]]
        [Array.replicate 8 0.0]).outputs = [table 1 fun _ =>
          (SumTree.ofPlane 0 0 8 8).eval Arithmetic.single.add Arithmetic.single.zero fun _ =>
            15049294.0] :=
      hadds.constant (by decide) (by decide) haccepts
    have hsum : (SumTree.ofPlane 0 0 8 8).eval Arithmetic.single.add Arithmetic.single.zero
        (fun _ => 15049294.0) = (120394360.0 : Float32) := by decide +kernel
    rw [hsum] at hconstant
    exact hconstant

end FieldCircuit
