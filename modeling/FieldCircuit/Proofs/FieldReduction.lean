import FieldCircuit.Proofs.FilterAdjoint
import FieldCircuit.Proofs.Kernel.Synthesized
import FieldCircuit.Proofs.Source.Plain

/-!
# Reductions of fields

In a commutative monoid the kernels of a reduction add up every plane of a field, each point once:
whatever the number of threads and workgroups, the shares of all threads of all workgroups of an
element are a partition of its plane.
-/

namespace FieldCircuit

namespace Synthesis

theorem synthesize_fieldReduce {reduce : ReduceOp} {inputs : List FieldType} {caps : Capabilities}
    {op : Operation} (h : synthesize (.fieldReduce reduce) inputs caps = .ok op) :
    ∃ input output, inputs = [input] ∧ input.words = input.elements * input.points ∧
      output.words = input.elements ∧ Reduction.build reduce input output caps = .ok op := by
  simp only [synthesize, prepare, bind_eq_ok_iff, liftFault_eq_ok_iff] at h
  obtain ⟨_, ⟨output, houtput, i, hi, hrequest⟩, hbuild⟩ := h
  obtain ⟨input, rfl, hwords, helements⟩ := Reduction.outputType_eq_ok houtput
  have hinput : input = i := Except.ok.inj hi
  rw [← Except.ok.inj hrequest, ← hinput] at hbuild
  exact ⟨input, output, rfl, hwords, helements, hbuild⟩

variable {α : Type} {ar : Arithmetic α}

/-- The kernels of a reduction leave, for every tensor element, what is left of its plane. No law of
the arithmetic is assumed for this. -/
theorem Reduction.Rows.performs_ofPlane {reduce : ReduceOp} {input output : FieldType}
    {groups levels levels' : Nat} {plane : Stage} {op : Operation}
    (h : Rows plane reduce groups input.elements op.stages op.intermediates)
    (isPlane : IsPlane plane reduce input output groups)
    (hlevels : plane.workgroup.localThreads = 2 ^ levels)
    (hlevels' : ∀ finish ∈ op.stages.tail, finish.workgroup.localThreads = 2 ^ levels')
    (hinput : input.words = input.elements * input.points)
    (houtput : output.words = input.elements) (hop : op.output = output) {σ : Slot → Array α}
    (hσ : Sized (op.slotWords [input]) σ) :
    ∃ σ', Performs ar (op.slotWords [input]) op.stages σ σ' ∧
      σ' (.output 0) = table input.elements fun e =>
        FieldCircuit.Reduction.ofPlane (reduce.combine ar) (reduce.identity ar) levels levels'
          input.points groups fun p => (σ (.input 0)).getD (e * input.points + p) ar.zero := by
  have hx : (σ (.input 0)).size = input.elements * input.points :=
    (hσ (.input 0) _ rfl).trans hinput
  have htakes := isPlane.takes
  rw [houtput] at htakes
  refine h.performs_finished hlevels' (hop ▸ houtput) hσ htakes fun output houtput => ?_
  rw [isPlane.program]
  refine (PlaneReduction.run_eq_ok (k := ⟨reduce, input.points, groups, input.elements⟩) hlevels ar
    hx houtput).trans ?_
  congr 1
  apply table_congr
  intro n _
  exact FieldCircuit.Reduction.treeFold_folded ar reduce (σ (.input 0)) levels _ _

theorem Reduction.Kernels.performs [AddCommMonoid α] {reduce : ReduceOp} {input output : FieldType}
    {groups : Nat} {op : Operation}
    (h : Kernels reduce input output groups op.stages op.intermediates)
    (hgroups : 0 < groups) (hcombine : ∀ x y, reduce.combine ar x y = x + y)
    (hidentity : reduce.identity ar = 0) (hinput : input.words = input.elements * input.points)
    (houtput : output.words = input.elements) (hop : op.output = output) {σ : Slot → Array α}
    (hσ : Sized (op.slotWords [input]) σ) :
    ∃ σ', Performs ar (op.slotWords [input]) op.stages σ σ' ∧
      σ' (.output 0) = table input.elements fun e =>
        ∑ p ∈ Finset.range input.points, (σ (.input 0)).getD (e * input.points + p) ar.zero := by
  obtain ⟨plane, isPlane, hrows⟩ := h
  obtain ⟨levels, hlevels⟩ := isPlane.threads
  obtain ⟨-, levels', hlevels'⟩ := hrows.exists_levels
  obtain ⟨σ', hperforms, hwords⟩ :=
    hrows.performs_ofPlane isPlane hlevels hlevels' hinput houtput hop hσ
  refine ⟨σ', hperforms, hwords.trans (table_congr fun e _ => ?_)⟩
  rw [hidentity, FieldCircuit.Reduction.ofPlane_eq_sum hcombine levels levels' _ hgroups]

end Synthesis

open Finset in
/-- A reduction that has been synthesized takes every point exactly once: reading its combination
and its neutral element as those of any commutative monoid, its execution leaves for every tensor
element the sum over all points of the plane of that element. -/
theorem fieldReduce_eq_sum {α : Type} [AddCommMonoid α] {ar : Arithmetic α} {reduce : ReduceOp}
    (hcombine : ∀ x y, reduce.combine ar x y = x + y) (hidentity : reduce.identity ar = 0)
    {t : FieldType} {caps : Capabilities} {op : Operation}
    (hop : Synthesis.synthesize (.fieldReduce reduce) [t] caps = .ok op)
    {x output : Array α} {intermediates : List (Array α)}
    (haccepts : op.Accepts [t] [x] output intermediates) :
    (op.run ar [x] [output] intermediates).result = .ok () ∧
      ∃ words, (op.run ar [x] [output] intermediates).outputs = [words] ∧
        words.size = t.elements ∧
        ∀ e < t.elements, words[e]? = some (∑ p ∈ range t.points, x.getD (e * t.points + p) 0) := by
  obtain ⟨_, result, heq, hinput, hresult, hbuild⟩ := Synthesis.synthesize_fieldReduce hop
  obtain rfl : t = _ := by simpa using heq
  obtain ⟨groups, hgroups, houtput, hkernels⟩ := Synthesis.Reduction.build_eq_ok hresult hbuild
  have hσ : Sized (op.slotWords [t]) (Operation.slots [x] output intermediates) :=
    haccepts.holds.words
  obtain ⟨σ', hperforms, hwords⟩ :=
    hkernels.performs hgroups hcombine hidentity hinput hresult houtput hσ
  obtain ⟨hrun, houtputs⟩ := Operation.run_of_performs haccepts hperforms
  refine ⟨hrun, _, houtputs, by rw [hwords, size_table], ?_⟩
  intro e he
  rw [hwords, getElem?_table he]
  congr 1
  have hx : x.size = t.elements * t.points := by
    rw [← hinput]
    simpa using haccepts.inputs
  -- all positions lie inside, where no default is read
  refine sum_congr rfl fun p hp => ?_
  have hlt : e * t.points + p < x.size := hx ▸ lt_mul_of_digits he (mem_range.1 hp)
  simp [Operation.slots, Array.getD, hlt]

namespace Synthesis.Reduction

/-- A block stage is synthesized if its sizes are machine sizes and the device has enough local
memory. -/
theorem blockStage_exists {name : String} (hname : Plain name) (op : ReduceOp)
    {groups width threads : Nat} (outputWords : Nat) {caps : Capabilities} {w : WorkGroup}
    (hthreads : threadsFor groups caps = .ok threads) (hpartials : groups * width < sizeBound)
    (hw : WorkGroup.ofGroups width threads = .ok w) :
    ∃ s, blockStage name op groups width outputWords caps = .ok s := by
  obtain ⟨text, htext⟩ := fill_blockTemplate op groups width threads hname
  rw [blockStage, hthreads, ok_bind, htext, ok_bind,
    liftFault_eq_ok_iff.2 (checked_eq_ok_iff.2 ⟨hpartials, rfl⟩), ok_bind, liftFault_eq_ok_iff.2 hw]
  exact ⟨_, rfl⟩

theorem planeStage_exists {name : String} (hname : Plain name) (op : ReduceOp)
    {input output : FieldType} {threads groups n m : Nat} {w : WorkGroup}
    (hn : input.words? = .ok n) (hm : output.words? = .ok m)
    (hpartials : groups * input.elements < sizeBound)
    (hw : WorkGroup.ofGrid 2 groups input.elements threads = .ok w) :
    ∃ s, planeStage name op input output threads groups = .ok s := by
  obtain ⟨text, htext⟩ := fill_planeTemplate op input.points groups input.elements threads hname
    (plain_destination groups)
  simp only [planeStage]
  rw [htext, ok_bind, liftFault_eq_ok_iff.2 hn, ok_bind, liftFault_eq_ok_iff.2 hm, ok_bind,
    liftFault_eq_ok_iff.2 (checked_eq_ok_iff.2 ⟨hpartials, rfl⟩), ok_bind, liftFault_eq_ok_iff.2 hw]
  exact ⟨_, rfl⟩

/-- A reduction with several workgroups per plane is built if its sizes are machine sizes and the
device has enough local memory. -/
theorem build_exists (op : ReduceOp) (input : FieldType) (caps : Capabilities) (groups : Nat)
    {output : FieldType} {threads threads' n m : Nat} {w w' : WorkGroup}
    (hn : input.words? = .ok n) (hm : output.words? = .ok m) (hpoints : input.points < sizeBound)
    (hlimit : groupLimit caps < sizeBound) (hthreads : threadsFor input.points caps = .ok threads)
    (hgroups : Nat.min (ceilDiv input.points threads) (groupLimit caps) = groups)
    (hseveral : 1 < groups) (hpartials : groups * input.elements < sizeBound)
    (hw : WorkGroup.ofGrid 2 groups input.elements threads = .ok w)
    (hthreads' : threadsFor groups caps = .ok threads')
    (hw' : WorkGroup.ofGroups input.elements threads' = .ok w') :
    ∃ operation, build op input output caps = .ok operation ∧ operation.output = output ∧
      operation.intermediates = [groups * input.elements] := by
  have helements : input.elements < sizeBound :=
    Nat.lt_of_le_of_lt (Nat.le_mul_of_pos_left _ (by omega)) hpartials
  have hname := plain_name op input
  obtain ⟨first, hfirst⟩ := planeStage_exists hname op hn hm hpartials hw
  obtain ⟨finish, hfinish⟩ :=
    blockStage_exists (plain_finish hname) op output.words hthreads' hpartials hw'
  rw [build, FieldType.points?, FieldType.elements?,
    liftFault_eq_ok_iff.2 (checked_eq_ok_iff.2 ⟨hpoints, rfl⟩), ok_bind,
    liftFault_eq_ok_iff.2 (checked_eq_ok_iff.2 ⟨helements, rfl⟩), ok_bind, hthreads, ok_bind,
    liftFault_eq_ok_iff.2 (checked_eq_ok_iff.2 ⟨hlimit, rfl⟩), ok_bind]
  simp only [hgroups]
  rw [hfirst, ok_bind, if_pos hseveral, hfinish]
  exact ⟨_, rfl, rfl, rfl⟩

/-- The reduction that is built is the one that its opcode asks for, and it takes buffers of its
sizes. -/
theorem synthesize_exists (op : ReduceOp) (input : FieldType) (caps : Capabilities) (groups : Nat)
    {output : FieldType} {threads threads' n m : Nat} {w w' : WorkGroup}
    (houtput : outputType [input] = .ok output)
    (hn : input.words? = .ok n) (hm : output.words? = .ok m) (hpoints : input.points < sizeBound)
    (hlimit : groupLimit caps < sizeBound) (hthreads : threadsFor input.points caps = .ok threads)
    (hgroups : Nat.min (ceilDiv input.points threads) (groupLimit caps) = groups)
    (hseveral : 1 < groups) (hpartials : groups * input.elements < sizeBound)
    (hw : WorkGroup.ofGrid 2 groups input.elements threads = .ok w)
    (hthreads' : threadsFor groups caps = .ok threads')
    (hw' : WorkGroup.ofGroups input.elements threads' = .ok w') :
    ∃ operation, synthesize (.fieldReduce op) [input] caps = .ok operation ∧
      ∀ {α : Type} {words result partials : Array α}, words.size = input.words → result.size = m →
        partials.size = groups * input.elements →
        operation.Accepts [input] [words] result [partials] := by
  obtain ⟨operation, hbuild, hresult, hinter⟩ := build_exists op input caps groups hn hm hpoints
    hlimit hthreads hgroups hseveral hpartials hw hthreads' hw'
  refine ⟨operation, bind_eq_ok_iff.2 ⟨_, bind_eq_ok_iff.2 ⟨output, houtput, rfl⟩, hbuild⟩, ?_⟩
  intro α words result partials hwords hsize hpartials
  refine ⟨congrArg (· :: []) hwords, ?_, ?_⟩
  · rw [hresult, hsize, FieldType.words?_eq_ok hm]
  · rw [hinter, ← hpartials]
    rfl

end Synthesis.Reduction

def FieldType.fiveVectors : FieldType :=
  ⟨⟨[5]⟩, ⟨[2]⟩, .float, by decide, by decide, by decide, by decide⟩

/-- Five points in three workgroups of two threads, one of which has no point to combine. -/
theorem fieldReduce_eq_sum_five_vectors : ∃ (op : Operation) (words : Array ℤ),
    Synthesis.synthesize (.fieldReduce .sum) [.fiveVectors] ⟨4096, 2, 1, 65536⟩ = .ok op ∧
      op.intermediates = [3 * 2] ∧
      (op.run .integers [#[1, 2, 3, 4, 5, 10, 20, 30, 40, 50]] [#[7, 7]]
        [Array.replicate 6 9]).outputs = [words] ∧
      words[1]? = some (∑ p ∈ Finset.range 5,
        #[1, 2, 3, 4, 5, 10, 20, 30, 40, 50].getD (1 * 5 + p) 0) := by
  obtain ⟨output, houtput, hm⟩ : ∃ output,
      Synthesis.Reduction.outputType [.fiveVectors] = .ok output ∧ output.words? = .ok 2 :=
    ⟨_, rfl, rfl⟩
  obtain ⟨op, hbuild, hop, hinter⟩ : ∃ op : Operation,
      Synthesis.Reduction.build .sum .fiveVectors output ⟨4096, 2, 1, 65536⟩ = .ok op ∧
        op.output = output ∧ op.intermediates = [3 * 2] :=
    Synthesis.Reduction.build_exists .sum .fiveVectors _ 3 rfl hm (by decide) (by decide) rfl rfl
      (by decide) (by decide) rfl rfl rfl
  have hwords := FieldType.words?_eq_ok hm
  have hsynthesize : Synthesis.synthesize (.fieldReduce .sum) [.fiveVectors] ⟨4096, 2, 1, 65536⟩ =
      .ok op :=
    bind_eq_ok_iff.2 ⟨_, bind_eq_ok_iff.2 ⟨output, houtput, rfl⟩, hbuild⟩
  have haccepts : op.Accepts [.fiveVectors] [#[1, 2, 3, 4, 5, 10, 20, 30, 40, 50]]
      #[(7 : ℤ), 7] [Array.replicate 6 9] :=
    ⟨rfl, by rw [hop, ← hwords]; rfl, by rw [hinter]; rfl⟩
  have hcombine : ∀ x y, ReduceOp.sum.combine .integers x y = x + y := fun _ _ => rfl
  obtain ⟨-, words, houtputs, -, hsums⟩ := fieldReduce_eq_sum hcombine rfl hsynthesize haccepts
  exact ⟨op, words, hsynthesize, hinter, houtputs, hsums 1 (by decide)⟩

end FieldCircuit
