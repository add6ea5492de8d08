import FieldCircuit.Kernel.Correlation
import FieldCircuit.Proofs.Kernel.TilePlan
import FieldCircuit.Proofs.Phase
import FieldCircuit.Proofs.Table

/-!
# The pipelined tree

The iterations of a tile move sums up a tree, one level per iteration, while each iteration issues the
leaves of another shift. `IsTree` reads a buffer as a function on nodes. After some iterations the
nodes of height `k` in the buffer written last hold the sums of the shift that was issued `k`
iterations ago, which is the invariant `Filling`; the root passes its sums to the staging area.
-/

namespace FieldCircuit

theorem nodeSlot_injective : Function.Injective nodeSlot := by
  intro m n h
  unfold nodeSlot at h
  split at h <;> split at h <;> omega

theorem childBase_eq (lid : Nat) : childBase lid = nodeSlot (2 * lid) := by
  unfold childBase nodeSlot
  split <;> split <;> omega

theorem childBase_succ (lid : Nat) : childBase lid + 1 = nodeSlot (2 * lid + 1) := by
  unfold childBase nodeSlot
  split <;> split <;> omega

theorem nodeSlot_lt {p : TilePlan} {node : Nat} (h : node < 2 * p.threads) :
    nodeSlot node < p.treeWords := by
  unfold nodeSlot TilePlan.treeWords
  split <;> omega

namespace Correlation

variable {α : Type} {p : TilePlan}

structure IsTree (p : TilePlan) (a : Array α) (f : Nat → α) : Prop where
  size : a.size = p.treeWords
  node : ∀ n < 2 * p.threads, a[nodeSlot n]? = some (f n)

namespace IsTree

variable {a : Array α} {f : Nat → α}

theorem of_size (h : a.size = p.treeWords) (d : α) :
    IsTree p a fun n => a.getD (nodeSlot n) d where
  size := h
  node := by
    intro n hn
    have hlt : nodeSlot n < a.size := h ▸ nodeSlot_lt hn
    simp [hlt]

theorem fetch (h : IsTree p a f) {n : Nat} (hn : n < 2 * p.threads) :
    FieldCircuit.fetch a (nodeSlot n) = .ok (f n) :=
  fetch_eq_ok_iff.2 (h.node n hn)

theorem store (h : IsTree p a f) {n : Nat} (hn : n < 2 * p.threads) (x : α) :
    ∃ a', FieldCircuit.store a (nodeSlot n) x = .ok a' ∧ IsTree p a' (Function.update f n x) := by
  have hlt : nodeSlot n < a.size := h.size ▸ nodeSlot_lt hn
  refine ⟨_, store_eq_ok_setIfInBounds x hlt, by simpa using h.size, ?_⟩
  intro m hm
  by_cases hmn : m = n
  · subst hmn
    rw [Array.getElem?_setIfInBounds_self_of_lt hlt, Function.update_self]
  · have hne : nodeSlot n ≠ nodeSlot m := fun h => hmn (nodeSlot_injective h).symm
    rw [Array.getElem?_setIfInBounds_ne hne, h.node m hm, Function.update_of_ne hmn]

theorem congr (h : IsTree p a f) {g : Nat → α} (hfg : ∀ n < 2 * p.threads, f n = g n) :
    IsTree p a g :=
  ⟨h.size, fun n hn => by rw [h.node n hn, hfg n hn]⟩

end IsTree

theorem writeLeaves_eq_ok {ar : Arithmetic α} {halo weights current : Array α} {it : Nat}
    {f leaf : Nat → α} (hcurrent : IsTree p current f)
    (hleaf : ∀ lid < p.threads, ∃ x g,
      fetch halo ((lid / p.tileColumns + it / p.size) * p.haloColumns + lid % p.tileColumns +
        it % p.size) = .ok x ∧ fetch weights lid = .ok g ∧ ar.mul x g = leaf lid) :
    ∃ current', writeLeaves ar p halo weights it (List.range p.threads) current = .ok current' ∧
      IsTree p current' fun n => if p.threads ≤ n then leaf (n - p.threads) else f n := by
  obtain ⟨current', hrun, htree⟩ := foldlM_range_eq_ok (n := p.threads) (b := current)
    (f := fun current lid => do
      let x ← fetch halo ((lid / p.tileColumns + it / p.size) * p.haloColumns +
        lid % p.tileColumns + it % p.size)
      let g ← fetch weights lid
      store current (nodeSlot (p.threads + lid)) (ar.mul x g))
    (p := fun k a => IsTree p a fun n =>
      if p.threads ≤ n ∧ n < p.threads + k then leaf (n - p.threads) else f n)
    (hcurrent.congr fun n _ => by rw [if_neg (by omega)]) (by
      intro lid a hlid ha
      obtain ⟨x, g, hx, hg, hxg⟩ := hleaf lid hlid
      obtain ⟨a', hstore, ha'⟩ := ha.store (n := p.threads + lid) (by omega) (leaf lid)
      refine ⟨a', by rw [hx, ok_bind, hg, ok_bind, hxg, hstore], ha'.congr fun n _ => ?_⟩
      by_cases hn : n = p.threads + lid
      · subst hn
        rw [Function.update_self, if_pos (by omega), Nat.add_sub_cancel_left]
      · rw [Function.update_of_ne hn]
        by_cases hlt : p.threads ≤ n ∧ n < p.threads + lid
        · rw [if_pos hlt, if_pos (by omega)]
        · rw [if_neg hlt, if_neg (by omega)])
  refine ⟨current', hrun, htree.congr fun n hn => ?_⟩
  by_cases hle : p.threads ≤ n
  · rw [if_pos hle, if_pos (by omega)]
  · rw [if_neg hle, if_neg (by omega)]

/-- The sum of the children of a node, which are leaves of the current tree or nodes of the previous
one. -/
def childSum (ar : Arithmetic α) (p : TilePlan) (current previous : Nat → α) (n : Nat) : α :=
  let tree := if p.threads ≤ 2 * n then current else previous
  ar.add (tree (2 * n)) (tree (2 * n + 1))

/-- The sum that a thread computes, when the leaves of the current tree are `f`. -/
theorem nodeSum_eq_ok {ar : Arithmetic α} {current previous : Array α} {f g h : Nat → α}
    (hcurrent : IsTree p current h) (hprevious : IsTree p previous g)
    (hleaves : ∀ n, p.threads ≤ n → h n = f n) {lid : Nat} (hlid : lid < p.threads) :
    nodeSum ar p current previous lid = .ok (childSum ar p f g lid) := by
  unfold nodeSum childSum
  rw [childBase_succ, childBase_eq]
  by_cases hle : p.threads ≤ 2 * lid
  · simp only [if_pos hle]
    rw [hcurrent.fetch (by omega), ok_bind, hcurrent.fetch (by omega), ok_bind,
      hleaves _ (by omega), hleaves _ (by omega)]
    rfl
  · simp only [if_neg hle]
    rw [hprevious.fetch (by omega), ok_bind, hprevious.fetch (by omega), ok_bind]
    rfl

def deliver (ar : Arithmetic α) (p : TilePlan) (it : Nat) (sums : Sums α) (lid : Nat) (sum : α) :
    Except Fault (Sums α) :=
  if lid = 1 then
    if p.latency ≤ it then do
      let old ← fetch sums.staging sums.staged
      return ⟨sums.current, ← store sums.staging sums.staged (ar.add old sum), sums.staged + 1⟩
    else return sums
  else do
    return ⟨← store sums.current (nodeSlot lid) sum, sums.staging, sums.staged⟩

theorem sumNodes_eq_phase (ar : Arithmetic α) (p : TilePlan) (previous : Array α) (it : Nat)
    (order : List Nat) (sums : Sums α) : sumNodes ar p previous it order sums =
      phase (fun s lid => nodeSum ar p s.current previous lid) (deliver ar p it) order sums :=
  rfl

theorem deliver_root (ar : Arithmetic α) {it staged : Nat} (current : Array α) (s : Nat → α)
    (hstaged : p.latency ≤ it → staged < p.outputs) (sum : α) :
    deliver ar p it ⟨current, table p.outputs s, staged⟩ 1 sum =
      .ok (if p.latency ≤ it then
          ⟨current, table p.outputs (Function.update s staged (ar.add (s staged) sum)), staged + 1⟩
        else ⟨current, table p.outputs s, staged⟩) := by
  rw [deliver, if_pos rfl]
  by_cases hlat : p.latency ≤ it
  · rw [if_pos hlat, if_pos hlat, fetch_table (hstaged hlat), ok_bind,
      store_table _ (hstaged hlat), ok_bind]
    rfl
  · rw [if_neg hlat, if_neg hlat]
    rfl

theorem deliver_node (ar : Arithmetic α) (it : Nat) (sums : Sums α) {f : Nat → α}
    (hcurrent : IsTree p sums.current f) {lid : Nat} (hroot : lid ≠ 1) (hlid : lid < p.threads)
    (sum : α) :
    ∃ current', deliver ar p it sums lid sum = .ok { sums with current := current' } ∧
      IsTree p current' (Function.update f lid sum) := by
  obtain ⟨current', hstore, htree⟩ := hcurrent.store (n := lid) (by omega) sum
  exact ⟨current', by rw [deliver, if_neg hroot, hstore, ok_bind]; rfl, htree⟩

theorem nodeThreads_eq_nil (h : p.threads < 2) : nodeThreads p = [] := by
  rw [nodeThreads, Nat.sub_eq_zero_of_le (by omega), List.range_zero, List.map_nil]

theorem nodeThreads_eq_cons (h : 2 ≤ p.threads) :
    nodeThreads p = 1 :: (List.range (p.threads - 2)).map (· + 2) := by
  obtain ⟨k, hk⟩ := Nat.exists_eq_add_of_le' h
  rw [nodeThreads, hk, Nat.add_sub_cancel, show k + 2 - 1 = k + 1 from rfl,
    List.range_succ_eq_map, List.map_cons, List.map_map]
  rfl

theorem sumInner_eq_ok (ar : Arithmetic α) {previous : Array α} {f g : Nat → α} (it : Nat)
    (sums : Sums α) (hcurrent : IsTree p sums.current f) (hprevious : IsTree p previous g) :
    ∃ current', sumNodes ar p previous it ((List.range (p.threads - 2)).map (· + 2)) sums =
        .ok { sums with current := current' } ∧
      IsTree p current' fun n => if 2 ≤ n ∧ n < p.threads then childSum ar p f g n else f n := by
  rw [sumNodes_eq_phase, phase, List.foldlM_map]
  -- after `k` threads the nodes from two to `k + 1` are computed
  obtain ⟨_, hrun, current', rfl, htree⟩ := foldlM_range_eq_ok (n := p.threads - 2) (b := sums)
    (f := fun s k => nodeSum ar p s.current previous (k + 2) >>= deliver ar p it s (k + 2))
    (p := fun k s => ∃ current', s = { sums with current := current' } ∧
      IsTree p current' fun n => if 2 ≤ n ∧ n < k + 2 then childSum ar p f g n else f n)
    ⟨sums.current, rfl, hcurrent.congr fun n _ => by rw [if_neg (by omega)]⟩ (by
      rintro k _ hk ⟨a, rfl, ha⟩
      have hsum : nodeSum ar p a previous (k + 2) = .ok (childSum ar p f g (k + 2)) :=
        nodeSum_eq_ok ha hprevious (fun n hn => by rw [if_neg (by omega)]) (by omega)
      obtain ⟨a', ha', htree⟩ := deliver_node ar it { sums with current := a } ha
        (show k + 2 ≠ 1 by omega) (by omega) (childSum ar p f g (k + 2))
      refine ⟨_, by rw [hsum, ok_bind, ha'], a', rfl, htree.congr fun n _ => ?_⟩
      by_cases hn : n = k + 2
      · subst hn
        rw [Function.update_self, if_pos (by omega)]
      · rw [Function.update_of_ne hn]
        exact if_congr (by omega) rfl rfl)
  exact ⟨current', hrun, htree.congr fun n _ => if_congr (by omega) rfl rfl⟩

theorem sumNodes_eq_ok (ar : Arithmetic α) {current previous : Array α} {f g s : Nat → α}
    {it staged : Nat} (hcurrent : IsTree p current f) (hprevious : IsTree p previous g)
    (hstaged : p.latency ≤ it → staged < p.outputs) :
    ∃ current', sumNodes ar p previous it (nodeThreads p) ⟨current, table p.outputs s, staged⟩ =
        .ok (if 2 ≤ p.threads ∧ p.latency ≤ it then
            ⟨current', table p.outputs
              (Function.update s staged (ar.add (s staged) (childSum ar p f g 1))), staged + 1⟩
          else ⟨current', table p.outputs s, staged⟩) ∧
      IsTree p current' fun n => if 2 ≤ n ∧ n < p.threads then childSum ar p f g n else f n := by
  rcases Nat.lt_or_ge p.threads 2 with hone | hroot
  · rw [nodeThreads_eq_nil hone]
    refine ⟨current, ?_, hcurrent.congr fun n _ => by rw [if_neg (by omega)]⟩
    rw [if_neg (by omega)]
    rfl
  · have hfirst : ∀ order,
        sumNodes ar p previous it (1 :: order) ⟨current, table p.outputs s, staged⟩ =
          sumNodes ar p previous it order (if p.latency ≤ it then ⟨current, table p.outputs
              (Function.update s staged (ar.add (s staged) (childSum ar p f g 1))), staged + 1⟩
            else ⟨current, table p.outputs s, staged⟩) := fun order => by
      rw [sumNodes_eq_phase, phase, List.foldlM_cons,
        nodeSum_eq_ok hcurrent hprevious (fun n _ => rfl) (by omega), ok_bind,
        deliver_root ar current s hstaged, ok_bind, ← phase, ← sumNodes_eq_phase]
    rw [nodeThreads_eq_cons hroot]
    by_cases hlat : p.latency ≤ it
    · obtain ⟨current', hinner, htree⟩ := sumInner_eq_ok ar it ⟨current, table p.outputs
        (Function.update s staged (ar.add (s staged) (childSum ar p f g 1))), staged + 1⟩
        hcurrent hprevious
      exact ⟨current', by rw [hfirst, if_pos hlat, if_pos ⟨hroot, hlat⟩, hinner], htree⟩
    · obtain ⟨current', hinner, htree⟩ := sumInner_eq_ok ar it
        ⟨current, table p.outputs s, staged⟩ hcurrent hprevious
      exact ⟨current', by rw [hfirst, if_neg hlat, if_neg fun h => hlat h.2, hinner], htree⟩

def treeNode (add : α → α → α) (leaf : Nat → α) : Nat → Nat → α
  | 0, n => leaf n
  | height + 1, n =>
    add (treeNode add leaf height (2 * n)) (treeNode add leaf height (2 * n + 1))

/-- In a commutative monoid a node is the sum of the leaves below it. -/
theorem treeNode_eq_sum [AddCommMonoid α] {add : α → α → α} (hadd : ∀ x y, add x y = x + y)
    (leaf : Nat → α) (height n : Nat) :
    treeNode add leaf height n = ∑ i ∈ Finset.range (2 ^ height), leaf (n * 2 ^ height + i) := by
  induction height generalizing n with
  | zero => simp [treeNode]
  | succ height ih =>
      rw [treeNode, hadd, ih, ih, pow_succ, Nat.mul_two, Finset.sum_range_add]
      congr 1
      · apply Finset.sum_congr rfl
        intro i _
        congr 1
        ring
      · apply Finset.sum_congr rfl
        intro i _
        congr 1
        ring

def shiftNode (ar : Arithmetic α) (p : TilePlan) (leaf : Nat → Nat → α) (shift height n : Nat) : α :=
  treeNode ar.add (fun n => leaf shift (n - p.threads)) height n

/-- The nodes of the tree that was written last, after some iterations: at height `k` they hold the sums
of the shift that was issued `k` iterations ago. -/
def Filling (ar : Arithmetic α) (p : TilePlan) (leaf : Nat → Nat → α) (it : Nat) (f : Nat → α) :
    Prop :=
  ∀ depth height n, 1 ≤ depth → 1 ≤ height → depth + height = p.levels → 2 ^ depth ≤ n →
    n < 2 ^ (depth + 1) → height ≤ it → it - height < p.outputs →
      f n = shiftNode ar p leaf (it - height) height n

def issued (p : TilePlan) (leaf : Nat → Nat → α) (it : Nat) (f : Nat → α) (n : Nat) : α :=
  if it < p.outputs ∧ p.threads ≤ n then leaf it (n - p.threads) else f n

theorem childSum_eq {ar : Arithmetic α} {leaf : Nat → Nat → α} {it : Nat} {f g : Nat → α}
    (hp : p.Tiled) (hg : Filling ar p leaf it g) (depth height : Nat) {n : Nat}
    (hlevels : depth + height + 1 = p.levels) (hlow : 2 ^ depth ≤ n) (hhigh : n < 2 ^ (depth + 1))
    (hit : height ≤ it) (hshift : it - height < p.outputs) :
    childSum ar p (issued p leaf it f) g n = shiftNode ar p leaf (it - height) (height + 1) n := by
  have hdouble : 2 ^ (depth + 1) = 2 * 2 ^ depth := by rw [pow_succ]; omega
  have hquad : 2 ^ (depth + 1 + 1) = 2 * 2 ^ (depth + 1) := by rw [pow_succ]; omega
  unfold childSum
  rcases Nat.eq_zero_or_pos height with rfl | hheight
  · -- the children are leaves of this iteration
    have hthreads : p.threads = 2 ^ (depth + 1) := by rw [hp.threads, ← hlevels, Nat.add_zero]
    have hleaf : ∀ m, 2 * n ≤ m → issued p leaf it f m = leaf it (m - p.threads) := by
      intro m hm
      rw [issued, if_pos ⟨by omega, by omega⟩]
    simp only [if_pos (show p.threads ≤ 2 * n by omega)]
    rw [hleaf _ (by omega), hleaf _ (by omega)]
    rfl
  · -- the children were computed in the previous iteration
    obtain ⟨k, rfl⟩ := Nat.exists_eq_add_of_lt hheight
    have hthreads : 2 ^ (depth + 1 + 1) ≤ p.threads := by
      rw [hp.threads]
      exact Nat.pow_le_pow_right (by decide) (by omega)
    have hchild : ∀ m, 2 ^ (depth + 1) ≤ m → m < 2 ^ (depth + 1 + 1) →
        g m = shiftNode ar p leaf (it - (0 + k + 1)) (0 + k + 1) m := fun m hlow hhigh =>
      hg (depth + 1) (0 + k + 1) m (by omega) (by omega) (by omega) hlow hhigh hit hshift
    simp only [if_neg (show ¬ p.threads ≤ 2 * n by omega)]
    rw [hchild _ (by omega) (by omega), hchild _ (by omega) (by omega)]
    rfl

/-- An iteration moves all sums one level up. -/
theorem Filling.step {ar : Arithmetic α} {leaf : Nat → Nat → α} {it : Nat} {f g h : Nat → α}
    (hp : p.Tiled) (hg : Filling ar p leaf it g)
    (hh : ∀ n, 2 ≤ n → n < p.threads → h n = childSum ar p (issued p leaf it f) g n) :
    Filling ar p leaf (it + 1) h := by
  intro depth height n hdepth hheight hlevels hlow hhigh hit hshift
  obtain ⟨k, rfl⟩ : ∃ k, height = k + 1 := ⟨height - 1, by omega⟩
  have htwo : 2 ^ 1 ≤ 2 ^ depth := Nat.pow_le_pow_right (by decide) hdepth
  have hthreads : 2 ^ (depth + 1) ≤ p.threads := by
    rw [hp.threads]
    exact Nat.pow_le_pow_right (by decide) (by omega)
  rw [hh n (by omega) (by omega),
    childSum_eq hp hg depth k (by omega) hlow hhigh (by omega) (by omega),
    Nat.add_sub_add_right]

/-- Shifts that are complete after some iterations. A tree with a single thread has no node and
completes none. -/
def completed (p : TilePlan) (it : Nat) : Nat := if p.levels = 0 then 0 else it - p.latency

def stagedWord (ar : Arithmetic α) (p : TilePlan) (leaf : Nat → Nat → α) (it : Nat) (s : Nat → α)
    (i : Nat) : α :=
  if i < completed p it then ar.add (s i) (shiftNode ar p leaf i p.levels 1) else s i

def Supplies (ar : Arithmetic α) (p : TilePlan) (halo weights : Array α) (leaf : Nat → Nat → α) :
    Prop :=
  ∀ it < p.outputs, ∀ lid < p.threads, ∃ x g,
    fetch halo ((lid / p.tileColumns + it / p.size) * p.haloColumns + lid % p.tileColumns +
      it % p.size) = .ok x ∧ fetch weights lid = .ok g ∧ ar.mul x g = leaf it lid

theorem phases_eq (ar : Arithmetic α) (halo weights : Array α) (it : Nat)
    (previous current staging : Array α) (staged : Nat) :
    phases ar p halo weights it previous ⟨current, staging, staged⟩ = (if it < p.outputs then
        writeLeaves ar p halo weights it (List.range p.threads) current else pure current) >>=
      fun current => sumNodes ar p previous it (nodeThreads p) ⟨current, staging, staged⟩ := by
  simp only [phases]
  split <;> rfl

theorem issue_eq_ok {ar : Arithmetic α} {halo weights current : Array α} {leaf : Nat → Nat → α}
    {f : Nat → α} (hsupply : Supplies ar p halo weights leaf) (hcurrent : IsTree p current f)
    (it : Nat) :
    ∃ a, (if it < p.outputs then
        writeLeaves ar p halo weights it (List.range p.threads) current else pure current) =
        .ok a ∧ IsTree p a (issued p leaf it f) := by
  by_cases hlt : it < p.outputs
  · obtain ⟨a, ha, htree⟩ := writeLeaves_eq_ok hcurrent (hsupply it hlt)
    refine ⟨a, by rw [if_pos hlt, ha], htree.congr fun n _ => ?_⟩
    simp only [issued, hlt, true_and]
  · refine ⟨current, by rw [if_neg hlt]; rfl, hcurrent.congr fun n _ => ?_⟩
    rw [issued, if_neg (by omega)]

theorem completed_lt {it : Nat} (hit : it < p.iterations) (hlat : p.latency ≤ it) :
    completed p it < p.outputs := by
  have hiterations : p.iterations = p.outputs + p.latency := rfl
  unfold completed
  split <;> omega

/-- If the tree has a root, the shifts are completed one by one once the pipeline is full. -/
theorem completed_succ_of_root {it : Nat} (hp : p.Tiled) (hroot : 2 ≤ p.threads)
    (hlat : p.latency ≤ it) :
    completed p it = it - p.latency ∧ completed p (it + 1) = it - p.latency + 1 := by
  have hlevels := hp.levels_ne_zero hroot
  refine ⟨if_neg hlevels, ?_⟩
  rw [completed, if_neg hlevels]
  omega

theorem completed_succ_of_not_root {it : Nat} (hp : p.Tiled)
    (h : ¬ (2 ≤ p.threads ∧ p.latency ≤ it)) : completed p (it + 1) = completed p it := by
  unfold completed
  split
  · rfl
  · rename_i hlevels
    have htwo : 2 ^ 1 ≤ 2 ^ p.levels := Nat.pow_le_pow_right (by decide) (by omega)
    rw [← hp.threads] at htwo
    omega

/-- The root completes the shift that was issued when the pipeline began to fill. -/
theorem childSum_root {ar : Arithmetic α} {leaf : Nat → Nat → α} {it : Nat} {f g : Nat → α}
    (hp : p.Tiled) (hg : Filling ar p leaf it g) (hroot : 2 ≤ p.threads) (hlat : p.latency ≤ it)
    (hit : it < p.iterations) : childSum ar p (issued p leaf it f) g 1 =
      shiftNode ar p leaf (it - p.latency) p.levels 1 := by
  have hiterations : p.iterations = p.outputs + p.latency := rfl
  have hlevels : p.latency + 1 = p.levels := Nat.sub_one_add_one (hp.levels_ne_zero hroot)
  rw [childSum_eq hp hg 0 p.latency (by omega) (by simp) (by simp) hlat (by omega), hlevels]

theorem update_stagedWord {ar : Arithmetic α} {leaf : Nat → Nat → α} {it : Nat} (hp : p.Tiled)
    (hroot : 2 ≤ p.threads) (hlat : p.latency ≤ it) (s : Nat → α) :
    Function.update (stagedWord ar p leaf it s) (it - p.latency)
        (ar.add (stagedWord ar p leaf it s (it - p.latency))
          (shiftNode ar p leaf (it - p.latency) p.levels 1)) =
      stagedWord ar p leaf (it + 1) s := by
  obtain ⟨hdone, hnext⟩ := completed_succ_of_root hp hroot hlat
  funext i
  by_cases hi : i = it - p.latency
  · subst hi
    rw [Function.update_self, stagedWord, stagedWord, hdone, hnext, if_neg (by omega),
      if_pos (by omega)]
  · rw [Function.update_of_ne hi, stagedWord, stagedWord, hdone, hnext]
    exact if_congr (by omega) rfl rfl

theorem phases_eq_ok {ar : Arithmetic α} {halo weights current previous : Array α}
    {leaf : Nat → Nat → α} {it : Nat} {f g s : Nat → α} (hp : p.Tiled)
    (hsupply : Supplies ar p halo weights leaf) (hcurrent : IsTree p current f)
    (hprevious : IsTree p previous g) (hfilling : Filling ar p leaf it g)
    (hit : it < p.iterations) :
    ∃ current' h, phases ar p halo weights it previous
        ⟨current, table p.outputs (stagedWord ar p leaf it s), completed p it⟩ =
        .ok ⟨current', table p.outputs (stagedWord ar p leaf (it + 1) s), completed p (it + 1)⟩ ∧
      IsTree p current' h ∧ Filling ar p leaf (it + 1) h := by
  obtain ⟨a, ha, hissued⟩ := issue_eq_ok hsupply hcurrent it
  obtain ⟨current', hsum, htree⟩ := sumNodes_eq_ok (s := stagedWord ar p leaf it s) ar
    hissued hprevious (completed_lt hit)
  refine ⟨current', _, ?_, htree, hfilling.step hp fun n hlow hhigh => if_pos ⟨hlow, hhigh⟩⟩
  rw [phases_eq, ha, ok_bind, hsum]
  by_cases hroot : 2 ≤ p.threads ∧ p.latency ≤ it
  · obtain ⟨hthreads, hlat⟩ := hroot
    obtain ⟨hdone, hnext⟩ := completed_succ_of_root hp hthreads hlat
    rw [if_pos ⟨hthreads, hlat⟩, childSum_root hp hfilling hthreads hlat hit, hdone, hnext,
      update_stagedWord hp hthreads hlat]
  · have hsame := completed_succ_of_not_root hp hroot
    have hwords : stagedWord ar p leaf (it + 1) s = stagedWord ar p leaf it s := by
      funext i
      rw [stagedWord, stagedWord, hsame]
    rw [if_neg hroot, hsame, hwords]

structure Pipeline (ar : Arithmetic α) (p : TilePlan) (halo : Array α) (leaf : Nat → Nat → α)
    (s : Nat → α) (it : Nat) (state : LocalMemory α × Nat) : Prop where
  halo : state.1.halo = halo
  trees : ∃ e o, IsTree p state.1.even e ∧ IsTree p state.1.odd o ∧
    Filling ar p leaf it (if it % 2 = 1 then e else o)
  staging : state.1.staging = table p.outputs (stagedWord ar p leaf it s)
  staged : state.2 = completed p it

theorem Pipeline.step {ar : Arithmetic α} {halo weights : Array α} {leaf : Nat → Nat → α}
    {s : Nat → α} (hp : p.Tiled) (hsupply : Supplies ar p halo weights leaf) {it : Nat}
    (hit : it < p.iterations) {state : LocalMemory α × Nat}
    (h : Pipeline ar p halo leaf s it state) :
    ∃ state', iterate ar p weights state it = .ok state' ∧
      Pipeline ar p halo leaf s (it + 1) state' := by
  obtain ⟨⟨_, even, odd, _⟩, _⟩ := state
  obtain ⟨rfl, ⟨e, o, heven, hodd, hfilling⟩, rfl, rfl⟩ := h
  simp only [iterate]
  by_cases hpar : it % 2 = 1
  · rw [if_pos hpar] at hfilling
    obtain ⟨a, f, ha, htree, hnext⟩ := phases_eq_ok (s := s) hp hsupply hodd heven hfilling hit
    refine ⟨(⟨_, even, a, _⟩, _), by rw [if_pos hpar, ha]; rfl, rfl, ⟨e, f, heven, htree, ?_⟩, rfl,
      rfl⟩
    rw [if_neg (by omega)]
    exact hnext
  · rw [if_neg hpar] at hfilling
    obtain ⟨a, f, ha, htree, hnext⟩ := phases_eq_ok (s := s) hp hsupply heven hodd hfilling hit
    refine ⟨(⟨_, a, odd, _⟩, _), by rw [if_neg hpar, ha]; rfl, rfl, ⟨f, o, htree, hodd, ?_⟩, rfl,
      rfl⟩
    rw [if_pos (by omega)]
    exact hnext

/-- All iterations of a tile: every output has been staged once, unless the tree has no root. -/
theorem iterations_eq_ok {ar : Arithmetic α} {m : LocalMemory α} {weights : Array α}
    {leaf : Nat → Nat → α} {s : Nat → α} (hp : p.Tiled)
    (hsupply : Supplies ar p m.halo weights leaf) (heven : m.even.size = p.treeWords)
    (hodd : m.odd.size = p.treeWords) (hstaging : m.staging = table p.outputs s) :
    ∃ m' n, (List.range p.iterations).foldlM (iterate ar p weights) (m, 0) = .ok (m', n) ∧
      m'.halo = m.halo ∧ m'.even.size = p.treeWords ∧ m'.odd.size = p.treeWords ∧
      m'.staging = table p.outputs fun i =>
        if p.levels = 0 then s i else ar.add (s i) (shiftNode ar p leaf i p.levels 1) := by
  have hstart : Pipeline ar p m.halo leaf s 0 (m, 0) := by
    refine ⟨rfl, ⟨_, _, .of_size heven ar.zero, .of_size hodd ar.zero, ?_⟩, ?_, ?_⟩
    · intro depth height n _ hheight _ _ _ hit
      omega
    · rw [hstaging]
      apply table_congr
      intro i _
      rw [stagedWord, if_neg]
      unfold completed
      split <;> omega
    · unfold completed
      split <;> omega
  obtain ⟨⟨m', n⟩, hrun, hend⟩ := foldlM_range_eq_ok hstart fun it state hit h =>
    h.step hp hsupply hit
  obtain ⟨e, o, htreee, htreeo, -⟩ := hend.trees
  refine ⟨m', n, hrun, hend.halo, htreee.size, htreeo.size, ?_⟩
  rw [hend.staging]
  apply table_congr
  intro i hi
  unfold stagedWord completed
  by_cases hlevels : p.levels = 0
  · simp [hlevels]
  · have hiterations : p.iterations = p.outputs + p.latency := rfl
    rw [if_neg hlevels, if_pos (by omega), if_neg hlevels]

end Correlation

end FieldCircuit
