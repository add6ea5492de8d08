import FieldCircuit.Proofs.Field.Layout
import FieldCircuit.Proofs.Kernel.Sound
import FieldCircuit.Proofs.Table

/-!
# Reductions

What a reducing workgroup computes: every thread folds its share of the words, and a halving tree,
`treeFold`, combines the threads. No law of the arithmetic is assumed for this. In a commutative monoid
the tree is the sum over the threads. Plane and block reductions are total.
-/

namespace FieldCircuit

variable {α : Type}

namespace Reduction

/-- The tree over the values of `f` below two to the power of `levels`: the phase at the top combines
each value of the lower half with its partner in the upper half. -/
def treeFold (combine : α → α → α) : Nat → (Nat → α) → α
  | 0, f => f 0
  | levels + 1, f => treeFold combine levels fun i => combine (f i) (f (i + 2 ^ levels))

theorem treeFold_congr {combine : α → α → α} {levels : Nat} {f g : Nat → α}
    (h : ∀ i < 2 ^ levels, f i = g i) : treeFold combine levels f = treeFold combine levels g := by
  induction levels generalizing f g with
  | zero => exact h 0 (by simp)
  | succ levels ih =>
      apply ih
      intro i hi
      have hpow : 2 ^ (levels + 1) = 2 ^ levels + 2 ^ levels := by rw [pow_succ]; omega
      rw [h i (by omega), h (i + 2 ^ levels) (by omega)]

/-- In a commutative monoid a tree is the sum of its leaves. -/
theorem treeFold_eq_sum [AddCommMonoid α] {combine : α → α → α}
    (hcombine : ∀ x y, combine x y = x + y) (levels : Nat) (f : Nat → α) :
    treeFold combine levels f = ∑ i ∈ Finset.range (2 ^ levels), f i := by
  induction levels generalizing f with
  | zero => simp [treeFold]
  | succ levels ih =>
      rw [treeFold, ih, pow_succ, Nat.mul_two, Finset.sum_range_add]
      simp only [hcombine]
      rw [Finset.sum_add_distrib]
      simp only [Nat.add_comm]

theorem halve_table (combine : α → α → α) {distance n : Nat} (h : 2 * distance ≤ n) (f : Nat → α) :
    halve combine distance (List.range distance) (table n f) =
      .ok (table n fun i => if i < distance then combine (f i) (f (i + distance)) else f i) := by
  obtain ⟨r, hr, hinv⟩ := foldlM_range_eq_ok (b := table n f) (n := distance)
    (f := fun scratch lid => do
      let x ← fetch scratch lid
      let y ← fetch scratch (lid + distance)
      store scratch lid (combine x y))
    (p := fun k r => r = table n fun i => if i < k then combine (f i) (f (i + distance)) else f i)
    (table_congr fun i _ => by simp) (by
      rintro k _ hk rfl
      refine ⟨_, ?_, rfl⟩
      rw [fetch_table (by omega), ok_bind, fetch_table (by omega), ok_bind, store_table _ (by omega)]
      congr 1
      apply table_congr
      intro i _
      -- the partner lies in the upper half, which no thread of this phase changes
      have hpartner : ¬ k + distance < k := by omega
      by_cases hik : i = k
      · subst hik
        simp [hpartner]
      · rw [Function.update_of_ne hik]
        by_cases hlt : i < k
        · rw [if_pos hlt, if_pos (by omega)]
        · rw [if_neg hlt, if_neg (by omega)])
  rw [halve, hr, hinv]

theorem halvings_two_pow (levels : Nat) :
    halvings (2 ^ (levels + 1)) = 2 ^ levels :: halvings (2 ^ levels) := by
  have hdiv : ∀ i, i < levels + 1 → 2 ^ (levels + 1) / Nat.pow 2 (i + 1) = 2 ^ (levels - i) := by
    intro i hi
    rw [show Nat.pow 2 (i + 1) = 2 ^ (i + 1) from rfl, Nat.pow_div (by omega) (by omega)]
    congr 1
    omega
  unfold halvings
  rw [Nat.log2_two_pow, Nat.log2_two_pow, List.range_succ_eq_map, List.map_cons, List.map_map,
    hdiv 0 (by omega)]
  congr 1
  apply List.map_congr_left
  intro i hi
  have hi' := List.mem_range.1 hi
  rw [Function.comp_apply, hdiv (i + 1) (by omega), show Nat.pow 2 (i + 1) = 2 ^ (i + 1) from rfl,
    Nat.pow_div (by omega) (by omega)]

/-- All phases together leave the tree over the words in the first one. -/
theorem foldlM_halvings (combine : α → α → α) {levels n : Nat} (h : 2 ^ levels ≤ n) (f : Nat → α) :
    ∃ g, (halvings (2 ^ levels)).foldlM
        (fun scratch s => halve combine s (List.range s) scratch) (table n f) = .ok (table n g) ∧
      g 0 = treeFold combine levels f := by
  induction levels generalizing f with
  | zero => exact ⟨f, rfl, rfl⟩
  | succ levels ih =>
      have hpow : 2 ^ (levels + 1) = 2 * 2 ^ levels := by rw [pow_succ]; omega
      rw [halvings_two_pow, List.foldlM_cons, halve_table combine (by omega), ok_bind]
      obtain ⟨g, hg, hroot⟩ := ih (by omega)
        (fun i => if i < 2 ^ levels then combine (f i) (f (i + 2 ^ levels)) else f i)
      refine ⟨g, hg, hroot.trans (treeFold_congr fun i hi => ?_)⟩
      simp only [if_pos hi]

theorem treeReduce_table (combine : α → α → α) (levels : Nat) (f : Nat → α) :
    treeReduce combine (table (2 ^ levels) f) = .ok (treeFold combine levels f) := by
  obtain ⟨g, hg, hroot⟩ := foldlM_halvings combine (Nat.le_refl (2 ^ levels)) f
  rw [treeReduce, size_table, hg, ok_bind, fetch_table (Nat.two_pow_pos levels), hroot]

def folded (ar : Arithmetic α) (op : ReduceOp) (words : Array α) (indices : List Nat) : α :=
  indices.foldl (fun acc i => op.combine ar acc (words.getD i ar.zero)) (op.identity ar)

theorem accumulate_eq_ok (ar : Arithmetic α) (op : ReduceOp) {words : Array α} {indices : List Nat}
    (h : ∀ i ∈ indices, i < words.size) :
    accumulate ar op words indices = .ok (folded ar op words indices) := by
  refine (foldlM_eq_ok (p := fun _ => True) trivial ?_).1
  intro acc i hi _
  rw [fetch_getD (h i hi) ar.zero]
  exact ⟨rfl, trivial⟩

/-- Values dealt out to the threads of a workgroup: each thread combines its share one after the other, and
a tree combines the threads. -/
def dealt (combine : α → α → α) (identity : α) (levels : Nat) (share : Nat → List Nat) (f : Nat → α) :
    α :=
  treeFold combine levels fun lid => (share lid).foldl (fun acc i => combine acc (f i)) identity

theorem dealt_congr {combine : α → α → α} {identity : α} {levels : Nat} {share : Nat → List Nat}
    {f g : Nat → α} (h : ∀ lid < 2 ^ levels, ∀ i ∈ share lid, f i = g i) :
    dealt combine identity levels share f = dealt combine identity levels share g :=
  treeFold_congr fun lid hlid =>
    List.foldl_ext _ _ _ fun acc i hi => congrArg (combine acc) (h lid hlid i hi)

/-- The word that is left of a column of partial results: a single one is the result, and several are dealt
out to the threads of a block reduction. -/
def finished (combine : α → α → α) (identity : α) (levels groups : Nat) (f : Nat → α) : α :=
  if 1 < groups then dealt combine identity levels (fun lid => strided lid groups (2 ^ levels)) f
  else f 0

/-- What is left of a plane: thread `lid` of workgroup `g` starts at `g * threads + lid` and takes a step of
all threads of all workgroups, and the results of the workgroups are finished. -/
def ofPlane (combine : α → α → α) (identity : α) (levels levels' points groups : Nat) (f : Nat → α) : α :=
  finished combine identity levels' groups fun g =>
    dealt combine identity levels
      (fun lid => strided (g * 2 ^ levels + lid) points (groups * 2 ^ levels)) f

section CommutativeSum

variable [AddCommMonoid α] {combine : α → α → α} (hcombine : ∀ x y, combine x y = x + y)

include hcombine

/-- In a commutative monoid the order in which a thread takes its values does not matter. -/
theorem dealt_eq_sum (levels : Nat) (share : Nat → List Nat) (f : Nat → α) :
    dealt combine 0 levels share f =
      ∑ lid ∈ Finset.range (2 ^ levels), ((share lid).map f).sum := by
  rw [dealt, treeFold_eq_sum hcombine]
  apply Finset.sum_congr rfl
  intro lid _
  simp only [hcombine]
  rw [← List.foldl_map (f := f) (g := fun x y => x + y), List.sum_eq_foldl]

theorem finished_eq_sum (levels : Nat) {groups : Nat} (hgroups : 0 < groups) (f : Nat → α) :
    finished combine 0 levels groups f = ∑ g ∈ Finset.range groups, f g := by
  unfold finished
  split
  · rw [dealt_eq_sum hcombine, sum_strided f groups (Nat.two_pow_pos levels)]
  · rw [show groups = 1 by omega, Finset.sum_range_one]

/-- In a commutative monoid the workgroups together add up the plane: the starts of their threads are the
remainders of the step. -/
theorem ofPlane_eq_sum (levels levels' points : Nat) {groups : Nat} (hgroups : 0 < groups)
    (f : Nat → α) :
    ofPlane combine 0 levels levels' points groups f = ∑ i ∈ Finset.range points, f i := by
  have hstep : 0 < groups * 2 ^ levels := Nat.mul_pos hgroups (Nat.two_pow_pos levels)
  rw [ofPlane, finished_eq_sum hcombine levels' hgroups, ← sum_strided f points hstep,
    ← sum_range_mul]
  exact Finset.sum_congr rfl fun g _ => dealt_eq_sum hcombine levels _ f

end CommutativeSum

theorem treeFold_folded (ar : Arithmetic α) (op : ReduceOp) (words : Array α) (levels : Nat)
    (share : Nat → List Nat) (position : Nat → Nat) :
    (treeFold (op.combine ar) levels fun lid =>
        folded ar op words ((share lid).map position)) =
      dealt (op.combine ar) (op.identity ar) levels share fun i =>
        words.getD (position i) ar.zero := by
  simp only [dealt, folded, List.foldl_map]

/-- A workgroup of a power of two of threads: the tree over the shares of the threads. -/
theorem workgroup_eq_ok (ar : Arithmetic α) (op : ReduceOp) {words : Array α} (levels : Nat)
    {share : Nat → List Nat} (h : ∀ lid < 2 ^ levels, ∀ i ∈ share lid, i < words.size) :
    workgroup ar op words (2 ^ levels) share =
      .ok (treeFold (op.combine ar) levels fun lid => folded ar op words (share lid)) := by
  have hshares : (List.range (2 ^ levels)).mapM (fun lid => accumulate ar op words (share lid)) =
      .ok ((List.range (2 ^ levels)).map fun lid => folded ar op words (share lid)) :=
    mapM_eq_ok fun lid hlid => accumulate_eq_ok ar op (h lid (List.mem_range.1 hlid))
  rw [workgroup, hshares, ok_bind, toArray_map_range, treeReduce_table]

end Reduction

namespace PlaneReduction

theorem share_lt {k : PlaneReduction} {threads element group lid i : Nat}
    (hstep : 0 < k.groups * threads) (helement : element < k.elements)
    (hi : i ∈ k.share threads element group lid) : i < k.elements * k.points := by
  obtain ⟨j, hj, rfl⟩ := List.mem_map.1 hi
  exact lt_mul_of_digits helement ((mem_strided hstep).1 hj).2.1

def jobs (k : PlaneReduction) : List (Nat × Nat) :=
  (List.range k.elements).flatMap fun e => (List.range k.groups).map fun g => (e, g)

theorem mem_jobs {k : PlaneReduction} {job : Nat × Nat} :
    job ∈ k.jobs ↔ job.1 < k.elements ∧ job.2 < k.groups := by
  obtain ⟨e, g⟩ := job
  simp [jobs]

theorem stores_eq_ok {k : PlaneReduction} {w : WorkGroup} {levels : Nat}
    (hthreads : w.localThreads = 2 ^ levels) (ar : Arithmetic α) {a : Array α}
    {rest : List (Array α)} (ha : a.size = k.elements * k.points) :
    k.stores ar w (a :: rest) = .ok (k.jobs.map fun job => (job.2 * k.elements + job.1,
      Reduction.treeFold (k.op.combine ar) levels fun lid =>
        Reduction.folded ar k.op a (k.share (2 ^ levels) job.1 job.2 lid))) := by
  have hfirst : fetch (a :: rest).toArray 0 = .ok a := rfl
  simp only [PlaneReduction.stores, hfirst, ok_bind, hthreads]
  refine mapM_eq_ok fun job hjob => ?_
  obtain ⟨he, hg⟩ := mem_jobs.1 hjob
  have hstep : 0 < k.groups * 2 ^ levels := Nat.mul_pos (by omega) (Nat.two_pow_pos levels)
  rw [Reduction.workgroup_eq_ok ar k.op levels fun lid _ i hi => by
    rw [ha]
    exact share_lt hstep he hi]
  rfl

theorem fills_jobs (k : PlaneReduction) (value : Nat × Nat → α) :
    Fills (k.groups * k.elements)
      (k.jobs.map fun job => (job.2 * k.elements + job.1, value job)) := by
  refine Fills.of_map (fun job : Nat × Nat => job.2 * k.elements + job.1) value ?_ ?_
  · intro job hjob
    obtain ⟨he, hg⟩ := mem_jobs.1 hjob
    exact lt_mul_of_digits hg he
  · intro i hi
    have hpos : 0 < k.elements := Nat.pos_of_ne_zero fun h => by simp [h] at hi
    refine ⟨(i % k.elements, i / k.elements), mem_jobs.2 ⟨Nat.mod_lt _ hpos, ?_⟩,
      Nat.div_add_mod' i k.elements⟩
    exact Nat.div_lt_of_lt_mul (by rwa [Nat.mul_comm])

theorem run_eq_ok {k : PlaneReduction} {w : WorkGroup} {levels : Nat}
    (hthreads : w.localThreads = 2 ^ levels) (ar : Arithmetic α) {a output : Array α}
    (ha : a.size = k.elements * k.points) (houtput : output.size = k.groups * k.elements) :
    (Program.planeReduction k).run ar w [a] output = .ok (table (k.groups * k.elements) fun n =>
      Reduction.treeFold (k.op.combine ar) levels fun lid =>
        Reduction.folded ar k.op a
          (k.share (2 ^ levels) (n % k.elements) (n / k.elements) lid)) := by
  have hstores : k.stores ar w [a] = _ := stores_eq_ok hthreads ar ha
  have hfills := k.fills_jobs fun job => Reduction.treeFold (k.op.combine ar) levels fun lid =>
    Reduction.folded ar k.op a (k.share (2 ^ levels) job.1 job.2 lid)
  have hprogram : (Program.planeReduction k).stores ar w [a] = k.stores ar w [a] := rfl
  rw [Program.run, hprogram, hstores, ok_bind, hfills.storeAll_eq_ok houtput]
  congr 1
  refine hfills.stored_eq_table houtput ?_
  intro s hs
  obtain ⟨job, hjob, rfl⟩ := List.mem_map.1 hs
  have he := (mem_jobs.1 hjob).1
  simp only [digits_div he, digits_mod he]

theorem total {k : PlaneReduction} {w : WorkGroup} {levels : Nat}
    (hthreads : w.localThreads = 2 ^ levels) :
    (Program.planeReduction k).Total w [k.elements * k.points] (k.groups * k.elements) := by
  intro α ar inputs hsizes
  obtain ⟨a, rest, rfl, ha, -⟩ := List.map_eq_cons_iff.1 hsizes
  exact ⟨_, stores_eq_ok hthreads ar ha, k.fills_jobs _⟩

end PlaneReduction

namespace BlockReduction

theorem share_lt {k : BlockReduction} {threads column lid i : Nat} (hthreads : 0 < threads)
    (hcolumn : column < k.width) (hi : i ∈ k.share threads column lid) : i < k.groups * k.width := by
  obtain ⟨j, hj, rfl⟩ := List.mem_map.1 hi
  exact lt_mul_of_digits ((mem_strided hthreads).1 hj).2.1 hcolumn

theorem stores_eq_ok {k : BlockReduction} {w : WorkGroup} {levels : Nat}
    (hthreads : w.localThreads = 2 ^ levels) (hwidth : k.width ≤ w.groupCount) (ar : Arithmetic α)
    {a : Array α} {rest : List (Array α)} (ha : a.size = k.groups * k.width) :
    k.stores ar w (a :: rest) = .ok ((List.range k.width).map fun column => (column,
      Reduction.treeFold (k.op.combine ar) levels fun lid =>
        Reduction.folded ar k.op a (k.share (2 ^ levels) column lid))) := by
  have hfirst : fetch (a :: rest).toArray 0 = .ok a := rfl
  have hmin : Nat.min w.groupCount k.width = k.width := Nat.min_eq_right hwidth
  simp only [BlockReduction.stores, hfirst, ok_bind, hthreads, hmin]
  refine mapM_eq_ok fun column hcolumn => ?_
  rw [Reduction.workgroup_eq_ok ar k.op levels fun lid _ i hi => by
    rw [ha]
    exact share_lt (Nat.two_pow_pos levels) (List.mem_range.1 hcolumn) hi]
  rfl

theorem run_eq_ok {k : BlockReduction} {w : WorkGroup} {levels : Nat}
    (hthreads : w.localThreads = 2 ^ levels) (hwidth : k.width ≤ w.groupCount) (ar : Arithmetic α)
    {a output : Array α} (ha : a.size = k.groups * k.width) (houtput : output.size = k.width) :
    (Program.blockReduction k).run ar w [a] output = .ok (table k.width fun column =>
      Reduction.treeFold (k.op.combine ar) levels fun lid =>
        Reduction.folded ar k.op a (k.share (2 ^ levels) column lid)) := by
  have hstores : k.stores ar w [a] = _ := stores_eq_ok hthreads hwidth ar ha
  have hfills := Fills.of_map (l := List.range k.width) (fun column : Nat => column)
    (fun column => Reduction.treeFold (k.op.combine ar) levels fun lid =>
      Reduction.folded ar k.op a (k.share (2 ^ levels) column lid))
    (fun column hcolumn => List.mem_range.1 hcolumn) fun i hi => ⟨i, List.mem_range.2 hi, rfl⟩
  have hprogram : (Program.blockReduction k).stores ar w [a] = k.stores ar w [a] := rfl
  rw [Program.run, hprogram, hstores, ok_bind, hfills.storeAll_eq_ok houtput]
  congr 1
  refine hfills.stored_eq_table houtput ?_
  intro s hs
  obtain ⟨column, _, rfl⟩ := List.mem_map.1 hs
  rfl

theorem total {k : BlockReduction} {w : WorkGroup} {levels : Nat}
    (hthreads : w.localThreads = 2 ^ levels) (hwidth : k.width ≤ w.groupCount) :
    (Program.blockReduction k).Total w [k.groups * k.width] k.width := by
  intro α ar inputs hsizes
  obtain ⟨a, rest, rfl, ha, -⟩ := List.map_eq_cons_iff.1 hsizes
  refine ⟨_, stores_eq_ok hthreads hwidth ar ha, Fills.of_map _ _ ?_ ?_⟩
  · intro column hcolumn
    exact List.mem_range.1 hcolumn
  · intro i hi
    exact ⟨i, List.mem_range.2 hi, rfl⟩

end BlockReduction

end FieldCircuit
