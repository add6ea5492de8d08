import FieldCircuit.Proofs.FilterAdjoint
import FieldCircuit.Proofs.Phase

/-!
# Order of the threads

The programs of reducing kernels let the threads of a workgroup take turns in increasing order, while a
device runs them side by side between two barriers. That the programs stand for the kernels rests on
the absence of races: in every phase the threads may take their turns in any order, with the same words
in local memory and in the staging area after it. For the trees this is a matter of slots: distinct
nodes have distinct slots, and a node is not computed in the phase in which its parent reads it.
-/

namespace FieldCircuit

variable {α : Type}

namespace Reduction

def pairWord (combine : α → α → α) (distance : Nat) (scratch : Array α) (lid : Nat) :
    Except Fault α := do
  return combine (← fetch scratch lid) (← fetch scratch (lid + distance))

theorem halve_eq_phase (combine : α → α → α) (distance : Nat) (order : List Nat)
    (scratch : Array α) : halve combine distance order scratch =
      phase (pairWord combine distance) (fun a lid x => store a lid x) order scratch := by
  simp only [halve, phase, pairWord, bind_assoc, pure_bind]

/-- Threads write the lower words of a tree and read their partners among the upper ones. -/
theorem halve_any_order (combine : α → α → α) (distance : Nat) (scratch : Array α) :
    AnyOrder (List.range distance) fun order => halve combine distance order scratch := by
  have hrace : RaceFree (List.range distance) (pairWord combine distance)
      fun a lid x => store a lid x := by
    refine .of_slots id (fun i _ j _ hij => hij) ?_ ?_
    · intro i hi j _ hij a x
      have hpartner : i ≠ j + distance := by
        have := List.mem_range.1 hi
        omega
      simp only [pairWord, id, fetch_setIfInBounds_of_ne hij, fetch_setIfInBounds_of_ne hpartner]
    · intro a i
      exact (fetch_fails a i).bind fun x _ => (fetch_fails a _).bind fun y _ => .ok _
  simp only [halve_eq_phase]
  exact hrace.anyOrder scratch

theorem halve_exists_ok (combine : α → α → α) {distance : Nat} {scratch : Array α}
    (h : 2 * distance ≤ scratch.size) :
    ∃ a, halve combine distance (List.range distance) scratch = .ok a := by
  obtain ⟨a, ha, -⟩ := foldlM_range_eq_ok (b := scratch) (n := distance)
    (f := fun scratch lid => do
      let x ← fetch scratch lid
      let y ← fetch scratch (lid + distance)
      store scratch lid (combine x y))
    (p := fun _ a => a.size = scratch.size) rfl (by
      intro lid a hlid ha
      rw [fetch_eq_ok (by omega), ok_bind, fetch_eq_ok (by omega), ok_bind,
        store_eq_ok_setIfInBounds _ (by omega)]
      exact ⟨_, rfl, by rw [Array.size_setIfInBounds, ha]⟩)
  exact ⟨a, ha⟩

end Reduction

namespace Correlation

variable {p : TilePlan}

theorem sample_fails (ar : Arithmetic α) (p : TilePlan) (image : Array α) (r c : Int) :
    FailsOnly (· = .outOfRange) (sample ar p image r c) :=
  .ite (fun _ => fetch_fails _ _) fun _ => .ok _

theorem haloWord_fails (ar : Arithmetic α) (p : TilePlan) (image : Array α) (r0 c0 k : Nat) :
    FailsOnly (· = .outOfRange) (haloWord ar p image r0 c0 k) :=
  .ite (fun _ => fetch_fails _ _) fun _ => sample_fails ar p image _ _

/-- Every word of the halo is loaded from the image. -/
theorem loadHalo_any_order (ar : Arithmetic α) (p : TilePlan) (image : Array α) (r0 c0 : Nat)
    (threads : List Nat) (halo : Array α) :
    AnyOrder threads fun order => loadHalo ar p image r0 c0 order halo := by
  have hrace : RaceFree (threads.flatMap fun lid => strided lid p.haloWords p.threads)
      (fun _ => haloWord ar p image r0 c0) fun a k x => store a k x :=
    .of_slots id (fun i _ j _ hij => hij) (fun _ _ _ _ _ _ _ => rfl)
      fun _ => haloWord_fails ar p image r0 c0
  simp only [loadHalo, foldlM_strided]
  exact (hrace.anyOrder halo).comp

def leafIndex (p : TilePlan) (it lid : Nat) : Nat :=
  (lid / p.tileColumns + it / p.size) * p.haloColumns + lid % p.tileColumns + it % p.size

theorem leafIndex_lt (hp : p.Tiled) {it lid : Nat} (hlid : lid < p.threads) (hit : it < p.outputs) :
    leafIndex p it lid < p.haloWords := by
  obtain ⟨hrow, hcolumn⟩ := hp.halo_point hlid hit
  rw [leafIndex, Nat.add_assoc]
  exact lt_mul_of_digits hrow hcolumn

def leafWord (ar : Arithmetic α) (p : TilePlan) (halo weights : Array α) (it lid : Nat) :
    Except Fault α := do
  let x ← fetch halo (leafIndex p it lid)
  let g ← fetch weights lid
  return ar.mul x g

theorem writeLeaves_eq_phase (ar : Arithmetic α) (p : TilePlan) (halo weights : Array α)
    (it : Nat) (order : List Nat) (current : Array α) :
    writeLeaves ar p halo weights it order current =
      phase (fun _ => leafWord ar p halo weights it)
        (fun a lid x => store a (nodeSlot (p.threads + lid)) x) order current := by
  simp only [writeLeaves, phase, leafWord, leafIndex, bind_assoc, pure_bind]

/-- Leaves have slots of their own, and no thread reads the tree. -/
theorem writeLeaves_any_order (ar : Arithmetic α) (p : TilePlan) (halo weights : Array α)
    (it : Nat) (threads : List Nat) (current : Array α) :
    AnyOrder threads fun order => writeLeaves ar p halo weights it order current := by
  have hrace : RaceFree threads (fun _ => leafWord ar p halo weights it)
      fun (a : Array α) lid x => store a (nodeSlot (p.threads + lid)) x := by
    refine .of_slots (fun lid => nodeSlot (p.threads + lid)) (fun i _ j _ hij hslot => hij ?_)
      (fun _ _ _ _ _ _ _ => rfl) ?_
    · exact Nat.add_left_cancel (nodeSlot_injective hslot)
    · intro _ lid
      exact (fetch_fails halo _).bind fun x _ => (fetch_fails weights lid).bind fun g _ => .ok _
  simp only [writeLeaves_eq_phase]
  exact hrace.anyOrder current

theorem writeLeaves_exists_ok (hp : p.Tiled) (ar : Arithmetic α) {halo weights current : Array α}
    {it : Nat} (hhalo : halo.size = p.haloWords) (hweights : weights.size = p.threads)
    (hcurrent : current.size = p.treeWords) (hit : it < p.outputs) :
    ∃ a, writeLeaves ar p halo weights it (List.range p.threads) current = .ok a := by
  have hleaf : ∀ lid < p.threads, ∃ x g, fetch halo (leafIndex p it lid) = .ok x ∧
      fetch weights lid = .ok g ∧
      ar.mul x g = ar.mul (halo.getD (leafIndex p it lid) ar.zero) (weights.getD lid ar.zero) := by
    intro lid hlid
    have hindex := leafIndex_lt hp hlid hit
    exact ⟨_, _, fetch_getD (by omega) ar.zero, fetch_getD (by omega) ar.zero, rfl⟩
  obtain ⟨a, ha, -⟩ := writeLeaves_eq_ok (.of_size hcurrent ar.zero) hleaf
  exact ⟨a, ha⟩

theorem mem_nodeThreads {lid : Nat} : lid ∈ nodeThreads p ↔ 1 ≤ lid ∧ lid < p.threads := by
  simp only [nodeThreads, List.mem_map, List.mem_range]
  constructor
  · rintro ⟨k, hk, rfl⟩
    omega
  · rintro ⟨hlow, hhigh⟩
    exact ⟨lid - 1, by omega, by omega⟩

/-- A thread reads the leaves of the current tree and no other node of it. -/
theorem nodeSum_setIfInBounds (ar : Arithmetic α) {i : Nat} (hi : i < p.threads)
    (current previous : Array α) (x : α) (lid : Nat) :
    nodeSum ar p (current.setIfInBounds (nodeSlot i) x) previous lid =
      nodeSum ar p current previous lid := by
  unfold nodeSum
  rw [childBase_succ, childBase_eq]
  by_cases hleaves : p.threads ≤ 2 * lid
  · have hfirst : nodeSlot i ≠ nodeSlot (2 * lid) := fun h => by
      have := nodeSlot_injective h
      omega
    have hsecond : nodeSlot i ≠ nodeSlot (2 * lid + 1) := fun h => by
      have := nodeSlot_injective h
      omega
    simp only [if_pos hleaves, fetch_setIfInBounds_of_ne hfirst, fetch_setIfInBounds_of_ne hsecond]
  · simp only [if_neg hleaves]

theorem nodeSum_fails (ar : Arithmetic α) (p : TilePlan) (current previous : Array α) (lid : Nat) :
    FailsOnly (· = .outOfRange) (nodeSum ar p current previous lid) :=
  (fetch_fails _ _).bind fun x _ => (fetch_fails _ _).bind fun y _ => .ok (ar.add x y)

theorem deliver_fails (ar : Arithmetic α) (p : TilePlan) (it : Nat) (sums : Sums α) (lid : Nat)
    (sum : α) : FailsOnly (· = .outOfRange) (deliver ar p it sums lid sum) := by
  refine .ite (fun _ => .ite (fun _ => ?_) fun _ => .ok _) fun _ => ?_
  · exact (fetch_fails _ _).bind fun old _ => (store_fails _ _ _).bind fun a _ => .ok _
  · exact (store_fails _ _ _).bind fun a _ => .ok _

/-- The root does not touch the current tree, and every other node is written to its slot. -/
theorem current_of_deliver {ar : Arithmetic α} {it lid : Nat} {sums sums' : Sums α} {sum : α}
    (h : deliver ar p it sums lid sum = .ok sums') :
    sums'.current = if lid = 1 then sums.current else sums.current.setIfInBounds (nodeSlot lid) sum := by
  unfold deliver at h
  split at h
  · rw [if_pos ‹lid = 1›]
    split at h
    · obtain ⟨old, -, h⟩ := bind_eq_ok_iff.1 h
      obtain ⟨a, -, h⟩ := bind_eq_ok_iff.1 h
      rw [← Except.ok.inj h]
    · rw [← Except.ok.inj h]
  · rw [if_neg ‹¬lid = 1›]
    obtain ⟨a, hstore, h⟩ := bind_eq_ok_iff.1 h
    rw [← Except.ok.inj h, eq_setIfInBounds_of_store hstore]

theorem deliver_root_comm (ar : Arithmetic α) (p : TilePlan) (it : Nat) (sums : Sums α) {lid : Nat}
    (hlid : lid ≠ 1) (x y : α) :
    (deliver ar p it sums 1 x >>= fun sums => deliver ar p it sums lid y) =
      deliver ar p it sums lid y >>= fun sums => deliver ar p it sums 1 x := by
  simp only [deliver, if_neg hlid, if_true, bind_assoc, pure_bind]
  split
  · simp only [bind_assoc, pure_bind]
    rw [bind_exchange (store_fails _ _ _) (fetch_fails _ _)]
    congr 1
    funext old
    exact bind_exchange (store_fails _ _ _) (store_fails _ _ _) _
  · simp only [pure_bind]

theorem deliver_comm (ar : Arithmetic α) (p : TilePlan) (it : Nat) (sums : Sums α) {i j : Nat}
    (hij : i ≠ j) (x y : α) :
    (deliver ar p it sums i x >>= fun sums => deliver ar p it sums j y) =
      deliver ar p it sums j y >>= fun sums => deliver ar p it sums i x := by
  by_cases hi : i = 1
  · subst hi
    exact deliver_root_comm ar p it sums (Ne.symm hij) x y
  by_cases hj : j = 1
  · subst hj
    exact (deliver_root_comm ar p it sums hij y x).symm
  have hslot : nodeSlot i ≠ nodeSlot j := fun h => hij (nodeSlot_injective h)
  have hstores := congrArg (fun a => a >>= fun a => (pure ⟨a, sums.staging, sums.staged⟩ :
    Except Fault (Sums α))) (store_comm hslot sums.current x y)
  simpa only [deliver, if_neg hi, if_neg hj, bind_assoc, pure_bind] using hstores

/-- Nodes are computed from leaves of the current tree and from the previous tree, and they are written
to slots that no leaf has. -/
theorem sumNodes_any_order (ar : Arithmetic α) (p : TilePlan) (previous : Array α) (it : Nat)
    (sums : Sums α) :
    AnyOrder (nodeThreads p) fun order => sumNodes ar p previous it order sums := by
  have hrace : RaceFree (nodeThreads p) (fun s lid => nodeSum ar p s.current previous lid)
      (deliver ar p it) := by
    refine ⟨?_, fun i _ j _ hij s x y => deliver_comm ar p it s hij x y,
      fun s lid => nodeSum_fails ar p s.current previous lid, deliver_fails ar p it⟩
    intro i hi j _ _ s x s' hput
    rw [current_of_deliver hput]
    split
    · rfl
    · exact nodeSum_setIfInBounds ar (mem_nodeThreads.1 hi).2 s.current previous x j
  simp only [sumNodes_eq_phase]
  exact hrace.anyOrder sums

theorem sumNodes_exists_ok (ar : Arithmetic α) {previous : Array α} {it : Nat} {sums : Sums α}
    (hprevious : previous.size = p.treeWords) (hcurrent : sums.current.size = p.treeWords)
    (hstaging : sums.staging.size = p.outputs) (hstaged : p.latency ≤ it → sums.staged < p.outputs) :
    ∃ sums', sumNodes ar p previous it (nodeThreads p) sums = .ok sums' := by
  obtain ⟨current, staging, staged⟩ := sums
  obtain ⟨current', hsum, -⟩ := sumNodes_eq_ok (s := fun i => staging.getD i ar.zero) ar
    (.of_size hcurrent ar.zero) (.of_size hprevious ar.zero) hstaged
  rw [← hstaging, ← eq_table_getD] at hsum
  exact ⟨_, hsum⟩

end Correlation

open Correlation in
/-- The order of the threads in a phase does not matter, whatever the operations on words are and
whatever memory holds: not in a step of a halving tree, and not when the threads of a tile load the
halo, write the leaves or compute the nodes in an iteration. Faults included, the threads leave the
same words in local memory and in the staging area in any order as in increasing order, and there are
no faults if the buffers have their sizes. -/
theorem phases_any_order {p : TilePlan} (hp : p.Tiled) (ar : Arithmetic α) (combine : α → α → α) :
    (∀ (distance : Nat) (scratch : Array α),
      AnyOrder (List.range distance)
        (fun order => Reduction.halve combine distance order scratch) ∧
      (2 * distance ≤ scratch.size →
        ∃ a, Reduction.halve combine distance (List.range distance) scratch = .ok a)) ∧
    (∀ (image halo : Array α) (r0 c0 : Nat),
      AnyOrder (List.range p.threads) (fun order => loadHalo ar p image r0 c0 order halo) ∧
      (image.size = p.rows * p.columns → halo.size = p.haloWords →
        ∃ a, loadHalo ar p image r0 c0 (List.range p.threads) halo = .ok a)) ∧
    (∀ (halo weights current : Array α) (it : Nat),
      AnyOrder (List.range p.threads)
        (fun order => writeLeaves ar p halo weights it order current) ∧
      (halo.size = p.haloWords → weights.size = p.threads → current.size = p.treeWords →
        it < p.outputs →
        ∃ a, writeLeaves ar p halo weights it (List.range p.threads) current = .ok a)) ∧
    ∀ (previous : Array α) (sums : Sums α) (it : Nat),
      AnyOrder (nodeThreads p) (fun order => sumNodes ar p previous it order sums) ∧
      (previous.size = p.treeWords → sums.current.size = p.treeWords →
        sums.staging.size = p.outputs → (p.latency ≤ it → sums.staged < p.outputs) →
        ∃ sums', sumNodes ar p previous it (nodeThreads p) sums = .ok sums') := by
  refine ⟨fun distance scratch => ⟨?_, ?_⟩, fun image halo r0 c0 => ⟨?_, ?_⟩,
    fun halo weights current it => ⟨?_, ?_⟩, fun previous sums it => ⟨?_, ?_⟩⟩
  · exact Reduction.halve_any_order combine distance scratch
  · exact Reduction.halve_exists_ok combine
  · exact loadHalo_any_order ar p image r0 c0 _ halo
  · exact fun himage hhalo => ⟨_, loadHalo_eq_ok ar hp himage hhalo r0 c0⟩
  · exact writeLeaves_any_order ar p halo weights it _ current
  · exact writeLeaves_exists_ok hp ar
  · exact sumNodes_any_order ar p previous it sums
  · exact sumNodes_exists_ok ar

open Correlation in
/-- Four threads of a tile compute their three nodes in another order while the pipeline is full, the root
after a node that it would have read if nodes were read in the current tree. -/
theorem phases_any_order_four_threads :
    let p := TilePlan.withThreads 2 3 3 ⟨4096, 8, 1, 65536⟩ 4
    let previous : Array ℤ := #[0, 0, 5, 7, 0, 0, 0, 0, 0]
    let sums : Sums ℤ := ⟨#[0, 0, 0, 0, 1, 2, 3, 4, 0], .replicate 9 0, 0⟩
    nodeThreads p = [1, 2, 3] ∧ ∃ sums',
      sumNodes .integers p previous 1 (nodeThreads p) sums = .ok sums' ∧
        sumNodes .integers p previous 1 [3, 1, 2] sums = .ok sums' := by
  intro p previous sums
  have hp : p.Tiled := (TilePlan.regular_withThreads _ 2 (by decide) (by decide) rfl).toTiled
  have hthreads : nodeThreads p = [1, 2, 3] := by decide
  obtain ⟨-, -, -, hnodes⟩ := phases_any_order hp .integers (· + ·)
  obtain ⟨horder, hsucceeds⟩ := hnodes previous sums 1
  obtain ⟨sums', hsums⟩ := hsucceeds (by decide) (by decide) (by decide) (by decide)
  have hperm : [3, 1, 2].Perm (nodeThreads p) := by
    rw [hthreads]
    decide
  exact ⟨hthreads, sums', hsums, (horder _ hperm).trans hsums⟩

end FieldCircuit
