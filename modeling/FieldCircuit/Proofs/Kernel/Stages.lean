import FieldCircuit.Kernel.Synthesis
import FieldCircuit.Proofs.Field.Layout
import FieldCircuit.Proofs.Kernel.Sound
import FieldCircuit.Proofs.Kernel.TilePlan

/-!
# Synthesized stages

What is known of a stage once its synthesis has succeeded: the slots that it binds with their words,
its launch and its program. The text of its source does not matter here, and nothing below depends
on it.
-/

namespace FieldCircuit

theorem liftFault_eq_ok_iff {α : Type} {x : Except Fault α} {a : α} :
    (liftM x : Except KernelError α) = .ok a ↔ x = .ok a :=
  mapError_eq_ok_iff

theorem liftField_eq_ok_iff {α : Type} {x : Except FieldError α} {a : α} :
    (liftM x : Except KernelError α) = .ok a ↔ x = .ok a :=
  mapError_eq_ok_iff

/-- A plane of numbers, such as an image or the weights of a convolution. -/
structure FieldType.IsPlane (t : FieldType) : Prop where
  real : t.element.isComplex = false
  dimensions : t.dimensions = 2
  scalar : t.order = 0

namespace FieldType.IsPlane

variable {t : FieldType}

theorem layers (h : t.IsPlane) : t.layers = 1 := t.fromInner_eq_one (Nat.le_of_eq h.dimensions)

theorem elements (h : t.IsPlane) : t.elements = 1 := elements_of_order h.scalar

theorem words (h : t.IsPlane) : t.words = t.rows * t.columns := by
  rw [words_of_real h.real, h.elements, ← t.layout_points, Layout.points_eq_mul,
    show t.layout.layers = 1 from h.layers, Nat.one_mul, Nat.one_mul]
  rfl

end FieldType.IsPlane

theorem WorkGroup.ofGrid_eq_ok {dimensions groups rows threads : Nat} {w : WorkGroup}
    (h : WorkGroup.ofGrid dimensions groups rows threads = .ok w) (hgroups : 0 < groups)
    (hrows : 0 < rows) (hthreads : 0 < threads) :
    w.groupCount = groups * rows ∧ w.localThreads = threads := by
  simp only [WorkGroup.ofGrid, bind_eq_ok_iff] at h
  obtain ⟨items, hitems, hw⟩ := h
  obtain rfl := (checked_eq_ok_iff.1 hitems).2
  rw [← Except.ok.inj hw]
  have hg : groups.max 1 = groups := Nat.max_eq_left hgroups
  have hr : rows.max 1 = rows := Nat.max_eq_left hrows
  have ht : threads.max 1 = threads := Nat.max_eq_left hthreads
  constructor
  · simp only [WorkGroup.groupCount, WorkGroup.groups, Axes.product, hg, hr, ht]
    rw [Nat.mul_div_cancel _ hthreads, Nat.div_one, Nat.div_one, Nat.mul_one]
  · simp only [WorkGroup.localThreads, Axes.product, ht, Nat.mul_one]

theorem WorkGroup.ofGroups_eq_ok {groups threads : Nat} {w : WorkGroup}
    (h : WorkGroup.ofGroups groups threads = .ok w) (hgroups : 0 < groups)
    (hthreads : 0 < threads) : w.groupCount = groups ∧ w.localThreads = threads := by
  have := ofGrid_eq_ok h hgroups Nat.one_pos hthreads
  rwa [Nat.mul_one] at this

/-- The stage binds slots for reading and then one for writing, each with its number of words. -/
def Stage.Takes (s : Stage) (reads : List (Slot × Nat)) (target : Slot × Nat) : Prop :=
  s.arguments.map (fun a => (a.slot, a.words, a.isOutput)) =
    reads.map (fun r => (r.1, r.2, false)) ++ [(target.1, target.2, true)]

section Takes

variable {size : Slot → Option Nat} {s : Stage} {reads : List (Slot × Nat)} {target : Slot × Nat}

theorem Stage.Takes.binds (h : s.Takes reads target) (hreads : ∀ r ∈ reads, size r.1 = some r.2)
    (htarget : size target.1 = some target.2) (hin : target.1.isInput = false)
    (hapart : target.1 ∉ reads.map Prod.fst) :
    s.Binds size (reads.map Prod.fst) target.1 where
  slots := by
    have hmap := congrArg (List.map fun a : Slot × Nat × Bool => (a.1, a.2.2)) h
    simpa [List.map_map, Function.comp_def] using hmap
  words := by
    intro a ha
    have hmem : (a.slot, a.words, a.isOutput) ∈
        reads.map (fun r => (r.1, r.2, false)) ++ [(target.1, target.2, true)] := by
      rw [← h]
      exact List.mem_map_of_mem ha
    rcases List.mem_append.1 hmem with hread | hlast
    · obtain ⟨r, hr, heq⟩ := List.mem_map.1 hread
      simp only [Prod.mk.injEq] at heq
      rw [← heq.1, ← heq.2.1]
      exact hreads r hr
    · simp only [List.mem_singleton, Prod.mk.injEq] at hlast
      rw [hlast.1, hlast.2.1]
      exact htarget
  writable := hin
  apart := hapart

theorem SoundStages.cons_of_takes (h : s.Takes reads target)
    (hreads : ∀ r ∈ reads, size r.1 = some r.2) (htarget : size target.1 = some target.2)
    (hin : target.1.isInput = false) (hapart : target.1 ∉ reads.map Prod.fst) {known : List Slot}
    (hfilled : ∀ r ∈ reads, r.1.isInput = true ∨ r.1 ∈ known)
    (htotal : s.program.Total s.workgroup (reads.map Prod.snd) target.2) {rest : List Stage}
    (hrest : SoundStages size (target.1 :: known) rest) : SoundStages size known (s :: rest) := by
  refine .cons (h.binds hreads htarget hin hapart) ?_ htarget htotal ?_ hrest
  · rw [List.map_map, List.map_map]
    exact List.map_congr_left hreads
  · intro slot hslot
    obtain ⟨r, hr, rfl⟩ := List.mem_map.1 hslot
    exact hfilled r hr

end Takes

namespace Synthesis

def firstTarget (chained : Bool) (partials output : Nat) : Slot × Nat :=
  if chained then (.intermediate 0, partials) else (.output 0, output)

theorem firstTarget_true (partials output : Nat) :
    firstTarget true partials output = (.intermediate 0, partials) := rfl

theorem firstTarget_false (partials output : Nat) :
    firstTarget false partials output = (.output 0, output) := rfl

theorem expectOperands_eq_ok {operation : String} {inputs : List FieldType} {n : Nat}
    (h : expectOperands operation inputs n = .ok ()) : inputs.length = n := by
  unfold expectOperands at h
  split at h
  · assumption
  · cases h

theorem expectReal_eq_ok {operation : String} {t : FieldType}
    (h : expectReal operation t = .ok ()) : t.element.isComplex = false := by
  unfold expectReal at h
  split at h
  · cases h
  · rename_i hc
    simpa using hc

theorem expectPlanar_eq_ok {operation : String} {t : FieldType}
    (h : expectPlanar operation t = .ok ()) : t.IsPlane := by
  simp only [expectPlanar, bind_eq_ok_iff] at h
  obtain ⟨_, hreal, hshape⟩ := h
  split at hshape
  · rename_i hs
    exact ⟨expectReal_eq_ok hreal, hs.1, hs.2⟩
  · cases hshape

/-- The threads of a tree over some items: a power of two that covers them or the device's limit. -/
def Reduction.threadCount (items : Nat) (caps : Capabilities) : Nat :=
  min (ceilPowerOfTwo (max items 1)) (threadLimit caps)

theorem Reduction.threadCount_eq (items : Nat) (caps : Capabilities) :
    ∃ levels, threadCount items caps = 2 ^ levels := by
  obtain ⟨a, ha⟩ := ceilPowerOfTwo_eq (max items 1)
  obtain ⟨b, -, hb⟩ := threadLimit_eq caps
  exact ⟨Nat.min a b, by rw [threadCount, ha, hb]; exact min_two_pow a b⟩

theorem Reduction.threadsFor_eq_ok {items threads : Nat} {caps : Capabilities}
    (h : Reduction.threadsFor items caps = .ok threads) :
    threads = Reduction.threadCount items caps ∧ threads * wordBytes ≤ caps.localMemory := by
  unfold Reduction.threadsFor at h
  split at h
  · cases h
  · simp only at h
    split at h
    · rename_i hmemory
      rw [← Except.ok.inj h]
      exact ⟨rfl, hmemory⟩
    · cases h

/-- A stage that adds up the columns of the partial results of `groups` workgroups. -/
structure Reduction.IsBlock (s : Stage) (op : ReduceOp) (groups width words : Nat) : Prop where
  takes : s.Takes [(.intermediate 0, groups * width)] (.output 0, words)
  program : s.program = .blockReduction ⟨op, groups, width⟩
  groupCount : s.workgroup.groupCount = width
  threads : ∃ levels, s.workgroup.localThreads = 2 ^ levels

theorem Reduction.blockStage_eq_ok {name : String} {op : ReduceOp} {groups width words : Nat}
    {caps : Capabilities} {s : Stage} (hwidth : 0 < width)
    (h : Reduction.blockStage name op groups width words caps = .ok s) :
    Reduction.IsBlock s op groups width words ∧
      s.workgroup.localThreads = Reduction.threadCount groups caps := by
  simp only [Reduction.blockStage, bind_eq_ok_iff, liftFault_eq_ok_iff] at h
  obtain ⟨threads, hthreads, _, _, partials, hpartials, w, hw, hs⟩ := h
  obtain rfl := (checked_eq_ok_iff.1 hpartials).2
  obtain rfl := (Reduction.threadsFor_eq_ok hthreads).1
  obtain ⟨levels, hlevels⟩ := Reduction.threadCount_eq groups caps
  obtain ⟨hcount, hlocal⟩ :=
    WorkGroup.ofGroups_eq_ok hw hwidth (hlevels ▸ Nat.two_pow_pos levels)
  rw [← Except.ok.inj hs]
  exact ⟨⟨rfl, rfl, hcount, levels, hlocal.trans hlevels⟩, hlocal⟩

/-- The stages of an operation whose first stage leaves a row of partial results per workgroup, with
the words that they share: a single row is the result, and several are finished by a block
reduction. -/
inductive Reduction.Rows (first : Stage) (op : ReduceOp) (groups width : Nat) :
    List Stage → List Nat → Prop
  | single (one : groups = 1) : Reduction.Rows first op groups width [first] []
  | pair {finish : Stage} (several : 1 < groups)
      (isBlock : Reduction.IsBlock finish op groups width width) :
      Reduction.Rows first op groups width [first, finish] [groups * width]

structure Correlation.IsTiled (s : Stage) (p : TilePlan) (image gradient : FieldType) : Prop where
  takes : s.Takes [(.input 0, image.words), (.input 1, gradient.words)]
    (firstTarget p.chained (p.groups * p.outputs) p.outputs)
  program : s.program = .correlation ⟨p⟩
  groupCount : s.workgroup.groupCount = p.groups

theorem Correlation.tiledStage_eq_ok {name : String} {p : TilePlan} {image gradient : FieldType}
    {s : Stage} (hp : p.Regular) (h : Correlation.tiledStage name p image gradient = .ok s) :
    Correlation.IsTiled s p image gradient := by
  simp only [Correlation.tiledStage, bind_eq_ok_iff, liftFault_eq_ok_iff] at h
  obtain ⟨imageWords, himage, gradientWords, hgradient, partials, hpartials, w, hw, hs⟩ := h
  obtain rfl := FieldType.words?_eq_ok himage
  obtain rfl := FieldType.words?_eq_ok hgradient
  obtain rfl := (checked_eq_ok_iff.1 hpartials).2
  have hcount := (WorkGroup.ofGroups_eq_ok hw hp.groups hp.threads_pos).1
  rw [← Except.ok.inj hs]
  refine ⟨?_, rfl, hcount⟩
  unfold firstTarget
  cases p.chained <;> rfl

def Correlation.Kernels (p : TilePlan) (image gradient : FieldType) (stages : List Stage)
    (intermediates : List Nat) : Prop :=
  ∃ tiled, Correlation.IsTiled tiled p image gradient ∧
    Reduction.Rows tiled .sum p.groups p.outputs stages intermediates

theorem Correlation.build_eq_ok {size : Nat} {image gradient output : FieldType}
    {caps : Capabilities} {op : Operation} (hsize : size % 2 = 1)
    (h : Correlation.build size image gradient output caps = .ok op) :
    ∃ p : TilePlan, (p.Regular ∧ p.rows = image.rows ∧ p.columns = image.columns ∧ p.size = size) ∧
      (2 ≤ caps.maxWorkgroup → p.levels ≠ 0) ∧ op.output = output ∧
      Correlation.Kernels p image gradient op.stages op.intermediates := by
  simp only [Correlation.build, bind_eq_ok_iff] at h
  obtain ⟨p, hp, tiled, htiled, h⟩ := h
  obtain ⟨i, rfl, -, hlevels⟩ := TilePlan.search_eq_ok hp
  have hregular := TilePlan.regular_withThreads caps i image.rows_pos image.columns_pos hsize
  generalize hplan : TilePlan.withThreads image.rows image.columns size caps (2 ^ i) = p at *
  have hdepth : p.levels = i := by
    rw [← hplan]
    exact Nat.log2_two_pow
  have houtputs : 0 < p.outputs := Nat.mul_pos hregular.size_pos hregular.size_pos
  have hisTiled := Correlation.tiledStage_eq_ok hregular htiled
  refine ⟨p, ⟨hregular, by rw [← hplan]; rfl, by rw [← hplan]; rfl, by rw [← hplan]; rfl⟩, ?_, ?_⟩
  · intro hcaps
    have := hlevels hcaps
    omega
  · by_cases hchained : p.chained = true
    · rw [if_pos hchained] at h
      obtain ⟨finish, hfinish, hop⟩ := bind_eq_ok_iff.1 h
      rw [← Except.ok.inj hop]
      exact ⟨rfl, tiled, hisTiled,
        .pair (of_decide_eq_true hchained) (Reduction.blockStage_eq_ok houtputs hfinish).1⟩
    · rw [if_neg hchained] at h
      rw [← Except.ok.inj h]
      have hone : p.groups = 1 := by
        have hpos := hregular.groups
        simp only [TilePlan.chained, decide_eq_true_eq] at hchained
        omega
      exact ⟨rfl, tiled, hisTiled, .single hone⟩

theorem Correlation.outputType_eq_ok {size : Nat} {inputs : List FieldType} {t : FieldType}
    (h : Correlation.outputType size inputs = .ok t) :
    ∃ image gradient, inputs = [image, gradient] ∧ size % 2 = 1 ∧
      image.words = image.rows * image.columns ∧ gradient.words = image.rows * image.columns ∧
      t.words = size * size := by
  simp only [Correlation.outputType, bind_eq_ok_iff] at h
  obtain ⟨_, _, h⟩ := h
  split at h
  · rename_i image gradient _
    simp only [bind_eq_ok_iff] at h
    obtain ⟨_, himage, _, hgradient, h⟩ := h
    split at h
    · cases h
    · rename_i hfield
      split at h
      · cases h
      · rename_i hsize
        rw [liftField_eq_ok_iff] at h
        have hsame : gradient.rows = image.rows ∧ gradient.columns = image.columns := by
          simp only [FieldType.rows, FieldType.columns, not_not.1 hfield, and_self]
        refine ⟨image, gradient, rfl, not_not.1 hsize, (expectPlanar_eq_ok himage).words, ?_, ?_⟩
        · rw [(expectPlanar_eq_ok hgradient).words, hsame.1, hsame.2]
        · obtain ⟨hf, ht, he⟩ := FieldType.of_eq_ok h
          have hplane : t.IsPlane := by
            refine ⟨by rw [he]; rfl, ?_, ?_⟩
            · rw [FieldType.dimensions, hf]
              rfl
            · rw [FieldType.order, ht]
              rfl
          rw [hplane.words, FieldType.rows, FieldType.columns, hf]
          rfl
  · cases h

theorem synthesize_filterAdjoint {size : Nat} {inputs : List FieldType} {caps : Capabilities}
    {op : Operation} (h : synthesize (.filterAdjoint size) inputs caps = .ok op) :
    ∃ image gradient output, inputs = [image, gradient] ∧ size % 2 = 1 ∧
      image.words = image.rows * image.columns ∧ gradient.words = image.rows * image.columns ∧
      output.words = size * size ∧ Correlation.build size image gradient output caps = .ok op := by
  simp only [synthesize, prepare, bind_eq_ok_iff, liftFault_eq_ok_iff] at h
  obtain ⟨_, ⟨t, ht, i, hi, g, hg, hrequest⟩, hbuild⟩ := h
  obtain ⟨image, gradient, rfl, hsize, hiwords, hgwords, htwords⟩ := Correlation.outputType_eq_ok ht
  have himage : image = i := Except.ok.inj hi
  have hgradient : gradient = g := Except.ok.inj hg
  rw [← Except.ok.inj hrequest, ← himage, ← hgradient] at hbuild
  exact ⟨image, gradient, t, rfl, hsize, hiwords, hgwords, htwords, hbuild⟩

end Synthesis

end FieldCircuit
