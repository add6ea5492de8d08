import FieldCircuit.Proofs.Kernel.SumTree
import FieldCircuit.Proofs.SizeRounding

/-!
# The additions over a plane

A plane of a power of two of points is a number of rows, one point for every thread of a workgroup
in each of them, and the rows are dealt out to the workgroups. The sum over the plane is balanced
exactly if every workgroup has one row or two and every thread that finishes has one workgroup or
two: a third row is added to two, and if some workgroups have two rows and others one, a workgroup
of the first kind is added to one of the second.
-/

namespace FieldCircuit.SumTree

def ofGroup (levels points groups group : Nat) : SumTree :=
  Reduction.dealt add zero levels
    (fun lid => strided (group * 2 ^ levels + lid) points (groups * 2 ^ levels)) point

def ofPlane (levels levels' points groups : Nat) : SumTree :=
  Reduction.finished add zero levels' groups (ofGroup levels points groups)

variable {α : Type} {levels levels' points rows groups : Nat}

/-- A reduction of a plane performs these additions, whatever its words are. -/
theorem eval_ofPlane (plus : α → α → α) (zero' : α) (leaf : Nat → α) :
    (ofPlane levels levels' points groups).eval plus zero' leaf =
      Reduction.ofPlane plus zero' levels levels' points groups leaf := by
  simp only [ofPlane, ofGroup, eval_finished, eval_dealt, eval, Reduction.ofPlane]

theorem eval_ofPlane_congr (hgroups : 0 < groups) (plus : α → α → α) (zero' : α)
    {leaf leaf' : Nat → α} (h : ∀ i < points, leaf i = leaf' i) :
    (ofPlane levels levels' points groups).eval plus zero' leaf =
      (ofPlane levels levels' points groups).eval plus zero' leaf' := by
  have hstep : 0 < groups * 2 ^ levels := Nat.mul_pos hgroups (Nat.two_pow_pos levels)
  have hgroup : ∀ g, (ofGroup levels points groups g).eval plus zero' leaf =
      (ofGroup levels points groups g).eval plus zero' leaf' := by
    intro g
    simp only [ofGroup, eval_dealt, eval]
    exact Reduction.dealt_congr fun lid _ i hi => h i ((mem_strided hstep).1 hi).2.1
  simp only [ofPlane, eval_finished, hgroup]

theorem count_ofPlane (hgroups : 0 < groups) :
    (ofPlane levels levels' points groups).count = points := by
  rw [count_eq_eval, eval_ofPlane,
    Reduction.ofPlane_eq_sum (fun _ _ => rfl) levels levels' points hgroups]
  simp

theorem count_ofGroup {group : Nat} (hgroup : group < rows) :
    (ofGroup levels (rows * 2 ^ levels) groups group).count =
      2 ^ levels * ((rows - group + groups - 1) / groups) := by
  rw [count_eq_eval, ofGroup, eval_dealt, Reduction.dealt_eq_sum fun _ _ => rfl]
  rw [Finset.sum_const_nat (m := (rows - group + groups - 1) / groups), Finset.card_range]
  intro lid hlid
  simp only [eval, List.map_const', List.sum_replicate_nat, Nat.mul_one]
  exact length_strided_rows (Finset.mem_range.1 hlid) hgroup

/-- One row or two for each workgroup. -/
theorem doubling_ofGroup {a : Nat} (ha : a ≤ 1) {group : Nat} (hgroup : group < groups) :
    Doubling (a + levels) (ofGroup levels (2 ^ a * groups * 2 ^ levels) groups group) := by
  have hlength : ∀ lid < 2 ^ levels, (strided (group * 2 ^ levels + lid)
      (2 ^ a * groups * 2 ^ levels) (groups * 2 ^ levels)).length = 2 ^ a := by
    intro lid hlid
    rw [Nat.mul_assoc]
    exact length_strided_mul (lt_mul_of_digits hgroup hlid) (2 ^ a)
  have hdealt := Doubling.dealt (k := 0) ha hlength fun lid _ i _ => .point i
  rwa [Nat.zero_add] at hdealt

/-- One row or two for each workgroup, and one workgroup or two for each thread that finishes. -/
theorem doubling_ofPlane {a : Nat} (ha : a ≤ 1)
    (hgroups : groups = 1 ∨ ∃ b ≤ 1, groups = 2 ^ b * 2 ^ levels') :
    ∃ k, Doubling k (ofPlane levels levels' (2 ^ a * groups * 2 ^ levels) groups) := by
  unfold ofPlane Reduction.finished
  split
  · obtain rfl | ⟨b, hb, rfl⟩ := hgroups
    · omega
    refine ⟨_, .dealt (k := a + levels) hb (fun lid hlid => length_strided_mul hlid (2 ^ b))
      fun lid hlid i hi => ?_⟩
    exact doubling_ofGroup ha ((mem_strided (Nat.two_pow_pos levels')).1 hi).2.1
  · obtain rfl : groups = 1 := by
      obtain rfl | ⟨b, -, rfl⟩ := hgroups
      · rfl
      · have := Nat.mul_pos (Nat.two_pow_pos b) (Nat.two_pow_pos levels')
        omega
    exact ⟨_, doubling_ofGroup ha Nat.one_pos⟩

/-- In a balanced deal the first thread has at most two shares, unless the sums grow. -/
theorem Balanced.le_two_steps {share : Nat → List Nat} {f : Nat → SumTree} {n step : Nat}
    (h : (Reduction.dealt add zero levels share f).Balanced) (hshare : share 0 = strided 0 n step)
    (hstep : 0 < step) (hn : 0 < n) (hpos : ∀ i < n, 0 < (f i).count)
    (hle : ∀ i < n, (f i).count ≤ (f 0).count) : n ≤ 2 * step ∧ (f 0).Balanced := by
  have hfirst := Balanced.of_treeFold h 0 (Nat.two_pow_pos levels)
  have hmem : ∀ i ∈ strided 0 n step, i < n := fun i hi => ((mem_strided hstep).1 hi).2.1
  have hlength := length_strided 0 n step
  rw [hshare, strided_cons hstep hn] at hfirst
  rw [strided_cons hstep hn] at hmem hlength
  have hrest := Balanced.length_le_two hfirst (fun j hj => hpos j (hmem j hj))
    fun j hj => hle j (hmem j (List.mem_cons_of_mem 0 hj))
  refine ⟨?_, (Balanced.of_foldl hfirst).2 0 List.mem_cons_self⟩
  have htwo : (n - 0 + step - 1) / step < 3 := by
    rw [← hlength, List.length_cons]
    omega
  have := (Nat.div_lt_iff_lt_mul hstep).1 htwo
  omega

/-- If a thread or a pair of threads finishes with sums over different numbers of points, the deal
is not balanced. -/
theorem not_balanced_of_uneven {f : Nat → SumTree} {k : Nat} (hlow : 2 ^ k < groups)
    (hhigh : groups ≤ 2 ^ (k + 1)) (hlevels : levels' = k ∨ levels' = k + 1)
    (hpos : 0 < (f 0).count) (hpos' : 0 < (f (2 ^ k)).count)
    (huneven : (f 0).count ≠ (f (2 ^ k)).count) :
    ¬ (Reduction.dealt add zero levels' (fun lid => strided lid groups (2 ^ levels'))
      f).Balanced := by
  intro h
  have hk := Nat.two_pow_pos k
  obtain rfl | rfl := hlevels
  · have hfirst := Balanced.of_treeFold h 0 hk
    dsimp only at hfirst
    rw [strided_cons hk (by omega), Nat.zero_add, strided_cons hk hlow] at hfirst
    exact huneven (Balanced.count_second hfirst hpos hpos')
  · have htree : (Reduction.treeFold add k _).Balanced := h
    have hpair := (Balanced.of_treeFold htree 0 hk).2.2
    dsimp only at hpair
    rw [Nat.zero_add, strided_eq_singleton (by omega) (by omega),
      strided_eq_singleton hlow (by omega)] at hpair
    simp only [List.foldl_cons, List.foldl_nil, count, Nat.zero_add] at hpair
    omega

theorem rows_of_dvd {k : Nat} (hgroups : 0 < groups) (hle : groups ≤ 2 ^ k)
    (hrows : 2 ^ k ∣ 2 * groups) : ∃ a c, a ≤ 1 ∧ groups = 2 ^ c ∧ k = a + c := by
  obtain ⟨n, hn⟩ := hrows
  have hk := Nat.two_pow_pos k
  have hlow : n ≠ 0 := fun hzero => by
    rw [hzero, Nat.mul_zero] at hn
    omega
  have hhigh : n < 3 := Nat.lt_of_mul_lt_mul_left (a := 2 ^ k) (by omega)
  obtain rfl | rfl : n = 1 ∨ n = 2 := by omega
  · obtain _ | c := k
    · omega
    · exact ⟨1, c, Nat.le_refl 1, by rw [pow_succ] at hn; omega, Nat.add_comm c 1⟩
  · exact ⟨0, k, Nat.zero_le 1, by omega, (Nat.zero_add k).symm⟩

section Plane

variable {k : Nat} (hgroups : 0 < groups) (hle : groups ≤ 2 ^ k)
  (hfinish : 1 < groups → 2 ^ levels' = min (ceilPowerOfTwo groups) (2 ^ levels))

include hgroups hle hfinish

theorem doubling_of_even (hrows : 2 ^ k ∣ 2 * groups) (hfew : groups ≤ 2 * 2 ^ levels) :
    ∃ j, Doubling j (ofPlane levels levels' (2 ^ k * 2 ^ levels) groups) := by
  obtain ⟨a, c, ha, rfl, rfl⟩ := rows_of_dvd hgroups hle hrows
  rw [pow_add]
  refine doubling_ofPlane ha ?_
  obtain rfl | hc := Nat.eq_zero_or_pos c
  · exact .inl rfl
  · have hthreads := hfinish (Nat.one_lt_two_pow (Nat.ne_of_gt hc))
    rw [ceilPowerOfTwo_two_pow] at hthreads
    rcases Nat.le_total (2 ^ c) (2 ^ levels) with hsmall | hlarge
    · exact .inr ⟨0, by decide, by rw [hthreads, min_eq_left hsmall, Nat.pow_zero, Nat.one_mul]⟩
    · rw [min_eq_right hlarge] at hthreads
      have hlevels := (Nat.pow_le_pow_iff_right (a := 2) (by decide)).1 hlarge
      rw [Nat.mul_comm, ← pow_succ] at hfew
      have hc' := (Nat.pow_le_pow_iff_right (a := 2) (by decide)).1 hfew
      refine .inr ⟨c - levels, by omega, ?_⟩
      rw [hthreads, ← pow_add, Nat.sub_add_cancel hlevels]

/-- A balanced sum has one row or two for each workgroup, and one workgroup or two for each thread
that finishes. -/
theorem Balanced.few (h : (ofPlane levels levels' (2 ^ k * 2 ^ levels) groups).Balanced) :
    2 ^ k ≤ 2 * groups ∧ groups ≤ 2 * 2 ^ levels := by
  have hk := Nat.two_pow_pos k
  have hlevels := Nat.two_pow_pos levels
  -- the first workgroup has at most two rows
  have hrows : (ofGroup levels (2 ^ k * 2 ^ levels) groups 0).Balanced → 2 ^ k ≤ 2 * groups := by
    intro hgroup
    have hsteps := (Balanced.le_two_steps hgroup (by rw [Nat.zero_mul, Nat.zero_add])
      (Nat.mul_pos hgroups hlevels) (Nat.mul_pos hk hlevels) (fun _ _ => Nat.one_pos)
      fun _ _ => Nat.le_refl 1).1
    rw [← Nat.mul_assoc] at hsteps
    exact Nat.le_of_mul_le_mul_right hsteps hlevels
  unfold ofPlane Reduction.finished at h
  split at h
  · rename_i hseveral
    have hcount : ∀ g < groups, (ofGroup levels (2 ^ k * 2 ^ levels) groups g).count =
        2 ^ levels * ((2 ^ k - g + groups - 1) / groups) :=
      fun g hg => count_ofGroup (Nat.lt_of_lt_of_le hg hle)
    obtain ⟨hsteps, hfirst⟩ := Balanced.le_two_steps h rfl (Nat.two_pow_pos levels') hgroups
      (fun g hg => by
        rw [hcount g hg]
        exact Nat.mul_pos hlevels (Nat.div_pos (by omega) hgroups))
      (fun g hg => by
        rw [hcount g hg, hcount 0 hgroups]
        exact Nat.mul_le_mul_left _ (Nat.div_le_div_right (by omega)))
    refine ⟨hrows hfirst, hsteps.trans (Nat.mul_le_mul_left 2 ?_)⟩
    rw [hfinish hseveral]
    exact min_le_right _ _
  · exact ⟨hrows h, by omega⟩

/-- If some workgroups have two rows and others one, the sum is not balanced. -/
theorem not_balanced_of_between (hlow : groups < 2 ^ k) (hhigh : 2 ^ k < 2 * groups)
    (hfew : groups ≤ 2 * 2 ^ levels) :
    ¬ (ofPlane levels levels' (2 ^ k * 2 ^ levels) groups).Balanced := by
  obtain _ | j := k
  · omega
  have hj := Nat.two_pow_pos j
  have hlevels := Nat.two_pow_pos levels
  have hpow : 2 ^ (j + 1) = 2 ^ j + 2 ^ j := by rw [pow_succ, Nat.mul_two]
  -- workgroup 0 has two rows, workgroup `2 ^ j` has one
  have hfirst : (ofGroup levels (2 ^ (j + 1) * 2 ^ levels) groups 0).count = 2 ^ levels * 2 := by
    rw [count_ofGroup (by omega)]
    congr 1
    exact Nat.div_eq_of_lt_le (by omega) (by omega)
  have hsecond : (ofGroup levels (2 ^ (j + 1) * 2 ^ levels) groups (2 ^ j)).count =
      2 ^ levels * 1 := by
    rw [count_ofGroup (by omega)]
    congr 1
    exact Nat.div_eq_of_lt_le (by omega) (by omega)
  have hseveral : 1 < groups := by omega
  have hthreads := hfinish hseveral
  obtain ⟨i, hi⟩ := ceilPowerOfTwo_eq groups
  have hcovers := le_ceilPowerOfTwo groups
  have hleast := (isLeast_ceilPowerOfTwo groups).2 ⟨⟨j + 1, rfl⟩, hle⟩
  have hlog : levels' = j ∨ levels' = j + 1 := by
    rw [hi] at hthreads hcovers hleast
    have hij : i = j + 1 := by
      have hupper := (Nat.pow_le_pow_iff_right (a := 2) (by decide)).1 hleast
      have hlower := (Nat.pow_lt_pow_iff_right (a := 2) (n := j) (m := i) (by decide)).1 (by omega)
      omega
    rw [hij, show min (2 ^ (j + 1)) (2 ^ levels) = 2 ^ Nat.min (j + 1) levels from
      min_two_pow (j + 1) levels] at hthreads
    have hlevels' : levels' = min (j + 1) levels := Nat.pow_right_injective (Nat.le_refl 2) hthreads
    have hlarge : 2 ^ j < 2 ^ (levels + 1) := by
      rw [pow_succ, Nat.mul_comm]
      omega
    have hj' := (Nat.pow_lt_pow_iff_right (a := 2) (by decide)).1 hlarge
    omega
  unfold ofPlane Reduction.finished
  rw [if_pos hseveral]
  exact not_balanced_of_uneven (by omega) hle hlog (by omega) (by omega) (by omega)

/-- The sum over a plane of a power of two of rows is balanced exactly if the rows are dealt out
evenly to the workgroups, one or two to each, and the workgroups to the threads that finish. -/
theorem balanced_ofPlane_iff :
    (ofPlane levels levels' (2 ^ k * 2 ^ levels) groups).Balanced ↔
      2 ^ k ∣ 2 * groups ∧ groups ≤ 2 * 2 ^ levels := by
  constructor
  · intro h
    obtain ⟨hrows, hfew⟩ := h.few hgroups hle hfinish
    refine ⟨?_, hfew⟩
    rcases Nat.lt_or_eq_of_le hle with hlow | heq
    · rcases Nat.lt_or_eq_of_le hrows with hhigh | heq
      · exact absurd h (not_balanced_of_between hgroups hle hfinish hlow hhigh hfew)
      · exact Dvd.intro 1 (by omega)
    · exact Dvd.intro 2 (by omega)
  · rintro ⟨hrows, hfew⟩
    obtain ⟨j, hj⟩ := doubling_of_even hgroups hle hfinish hrows hfew
    exact hj.balanced

end Plane

end FieldCircuit.SumTree
