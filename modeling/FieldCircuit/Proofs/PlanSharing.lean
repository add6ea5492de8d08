import FieldCircuit.Proofs.Kernel.Matching
import FieldCircuit.Proofs.Plan

/-!
# Shared plans are as good as fresh ones

A store that shares plans may answer a demand with an operation that was built for another one. The two
demands then have the same key, and everything that counts in an operation is determined by the key. So
every answer matches that of a store that shares nothing, in whatever order operations are demanded. The
key does not determine the source text: that of a filter adjoint names the type of the second operand,
which may be pixels in one demand and numbers in the other.
-/

namespace FieldCircuit

structure Demand where
  opcode : Opcode
  operands : List FieldType
  capabilities : Capabilities

namespace PlanStore

def answer (s : PlanStore) (d : Demand) : Except KernelError Plan × PlanStore :=
  s.synthesize d.opcode d.operands d.capabilities

def answers (s : PlanStore) : List Demand → List (Demand × Except KernelError Plan)
  | [] => []
  | d :: rest => (d, (s.answer d).1) :: (s.answer d).2.answers rest

/-- A plan that was made for the key of a recipe matches what is built from the recipe. -/
theorem made_concur {o : Opcode} {inputs : List FieldType} {caps : Capabilities} {recipe : Recipe}
    {op : Operation} (hprepare : Synthesis.prepare o inputs caps = .ok (.planned recipe))
    (h : (recipe.key caps).Made op) : ∃ built, recipe.build caps = .ok built ∧ op.Matches built ∧
      ∃ others, op.SourcesMatch others inputs built := by
  obtain ⟨o', inputs', caps', recipe', hprepare', hkey, hbuild⟩ := h
  obtain ⟨-, rfl, hannounced⟩ := Synthesis.prepare_planned hprepare
  obtain ⟨-, rfl, hannounced'⟩ := Synthesis.prepare_planned hprepare'
  have hconcur := Recipe.build_concur hkey hannounced' hannounced
  rw [hbuild] at hconcur
  generalize hbuilt : recipe.build caps = built at hconcur
  cases hconcur with
  | ok h => exact ⟨_, rfl, h.1, recipe'.operands, h.2⟩

/-- Whatever a store answers, a fresh operation would match it. -/
theorem answer_concur {s : PlanStore} (h : s.Sound) (d : Demand) :
    Concur (fun (plan : Plan) op => plan.operation.Matches op ∧
        ∃ others, plan.operation.SourcesMatch others d.operands op)
      (s.answer d).1 (Synthesis.synthesize d.opcode d.operands d.capabilities) := by
  have hfresh : ∀ {plan : Plan}, Concur (fun (plan : Plan) op => plan.operation.Matches op ∧
      ∃ others, plan.operation.SourcesMatch others d.operands op) (ε := KernelError) (.ok plan)
        (.ok plan.operation) :=
    fun {plan} => .ok ⟨.refl _, [], .inl rfl⟩
  unfold answer synthesize Synthesis.synthesize
  cases hprepare : Synthesis.prepare d.opcode d.operands d.capabilities with
  | error e => exact .error e
  | ok request => cases request with
    | built op => exact hfresh
    | planned recipe =>
        by_cases hsharing : s.sharing = true
        · simp only [if_pos hsharing, ok_bind]
          cases hfind : s.cache.find? (recipe.key d.capabilities) with
          | some plan =>
              obtain ⟨built, hbuilt, hmatches⟩ := made_concur hprepare (h _ plan hfind)
              rw [PlanCache.get, PlanCache.getM_of_some hfind, hbuilt]
              exact .ok hmatches
          | none =>
              rw [PlanCache.get, PlanCache.getM_of_none hfind]
              cases hbuilt : recipe.build d.capabilities with
              | error e => exact .error e
              | ok op => exact hfresh
        · simp only [if_neg hsharing, ok_bind]
          cases hbuilt : recipe.build d.capabilities with
          | error e => exact .error e
          | ok op => exact hfresh

theorem sharing_answer (s : PlanStore) (d : Demand) : (s.answer d).2.sharing = s.sharing := by
  unfold answer synthesize
  cases Synthesis.prepare d.opcode d.operands d.capabilities with
  | error e => rfl
  | ok request => cases request with
    | built op => rfl
    | planned recipe =>
        by_cases hsharing : s.sharing = true
        · simp only [if_pos hsharing]
        · simp only [if_neg hsharing]
          cases recipe.build d.capabilities with
          | error e => rfl
          | ok op => rfl

theorem answer_unshared {s : PlanStore} (h : s.sharing = false) (d : Demand) :
    Concur (fun (plan : Plan) op => plan.operation = op) (s.answer d).1
      (Synthesis.synthesize d.opcode d.operands d.capabilities) := by
  unfold answer synthesize Synthesis.synthesize
  cases Synthesis.prepare d.opcode d.operands d.capabilities with
  | error e => exact .error e
  | ok request => cases request with
    | built op => exact .ok rfl
    | planned recipe =>
        simp only [h, Bool.false_eq_true, if_false, ok_bind]
        cases recipe.build d.capabilities with
        | error e => exact .error e
        | ok op => exact .ok rfl

/-- The answers of a store in order are those of a store that shares nothing, up to the line of the
source that names the second operand. -/
theorem answers_concur {s s' : PlanStore} (h : s.Sound) (h' : s'.sharing = false)
    (demands : List Demand) :
    List.Forall₂ (fun shared fresh : Demand × Except KernelError Plan => shared.1 = fresh.1 ∧
        Concur (fun plan plan' => plan.operation.Matches plan'.operation ∧
          ∃ others, plan.operation.SourcesMatch others fresh.1.operands plan'.operation)
        shared.2 fresh.2)
      (s.answers demands) (s'.answers demands) := by
  induction demands generalizing s s' with
  | nil => exact .nil
  | cons d demands ih =>
      refine .cons ⟨rfl, ?_⟩ (ih (synthesize_spec h _ _ _).1 ((sharing_answer s' d).trans h'))
      refine ((answer_concur h d).trans (answer_unshared h' d).symm).imp ?_
      rintro plan plan' ⟨op, hop, rfl⟩
      exact hop

/-- Shared plans do what fresh ones do. Whatever sequence of operations is demanded of a store, each
demand has the same answer as without sharing: the same error, or an operation with the same name,
result type and buffers, whose stages have the same names, bindings and launches, and whose runs have
the same results on all memory. -/
theorem shared_answers_match (demands : List Demand) :
    List.Forall₂ (fun shared fresh : Demand × Except KernelError Plan => shared.1 = fresh.1 ∧
        Concur (fun plan plan' => plan.operation.Matches plan'.operation ∧
          (∀ (α : Type) (ar : Arithmetic α) (inputs outputs intermediates : List (Array α)),
            plan.operation.run ar inputs outputs intermediates =
              plan'.operation.run ar inputs outputs intermediates) ∧
          ∀ (b : Bindings) (buffers : Array Buffer),
            plan.operation.executeOn b buffers = plan'.operation.executeOn b buffers)
        shared.2 fresh.2)
      ((PlanStore.new true).answers demands) ((PlanStore.new false).answers demands) := by
  refine (answers_concur (sound_new true) rfl demands).imp fun shared fresh h => ⟨h.1, ?_⟩
  refine h.2.imp fun plan plan' hplan => ⟨hplan.1, fun α ar => ?_, ?_⟩
  · exact hplan.1.run ar
  · exact hplan.1.executeOn

/-- The sources that belong to one key are the same, except that the source of a filter adjoint names the
type of its second operand in a comment. This holds of operations that are built for two demands with
the same key, and of those that a store shares in comparison with those that it would build. -/
theorem sources_of_key :
    (∀ (d d' : Demand) (recipe recipe' : Recipe),
      Synthesis.prepare d.opcode d.operands d.capabilities = .ok (.planned recipe) →
      Synthesis.prepare d'.opcode d'.operands d'.capabilities = .ok (.planned recipe') →
      recipe.key d.capabilities = recipe'.key d'.capabilities →
      Concur (fun op op' => op.SourcesMatch d.operands d'.operands op')
        (Synthesis.synthesize d.opcode d.operands d.capabilities)
        (Synthesis.synthesize d'.opcode d'.operands d'.capabilities)) ∧
    ∀ demands : List Demand,
      List.Forall₂ (fun shared fresh : Demand × Except KernelError Plan => shared.1 = fresh.1 ∧
          Concur (fun plan plan' => ∃ others,
            plan.operation.SourcesMatch others fresh.1.operands plan'.operation) shared.2 fresh.2)
        ((PlanStore.new true).answers demands) ((PlanStore.new false).answers demands) := by
  refine ⟨?_, fun demands => ?_⟩
  · intro d d' recipe recipe' h h' hkey
    obtain ⟨-, hoperands, hannounced⟩ := Synthesis.prepare_planned h
    obtain ⟨-, hoperands', hannounced'⟩ := Synthesis.prepare_planned h'
    rw [Synthesis.synthesize, h, Synthesis.synthesize, h', ← hoperands, ← hoperands']
    exact (Recipe.build_concur hkey hannounced hannounced').imp fun op op' hop => hop.2
  · refine (answers_concur (sound_new true) rfl demands).imp fun shared fresh h => ⟨h.1, ?_⟩
    exact h.2.imp fun plan plan' hplan => hplan.2

/-- The demand for the adjoint of a filter of nine weights, on a plane of numbers and on a plane of the
given kind. -/
def adjointDemand (e : Element) : Demand where
  opcode := .filterAdjoint 3
  operands := [.twoByThree, FieldType.twoByThree.withElement e]
  capabilities := ⟨4096, 8, 1, 65536⟩

def adjointRecipe (e : Element) : Recipe :=
  .correlation 3 .twoByThree (FieldType.twoByThree.withElement e) .threeByThree

/-- Numbers and pixels. -/
theorem sources_of_key_numbers_pixels :
    (adjointRecipe .float).key (adjointDemand .float).capabilities =
      (adjointRecipe .pixel).key (adjointDemand .pixel).capabilities ∧
    Concur (fun op op' =>
        op.SourcesMatch (adjointDemand .float).operands (adjointDemand .pixel).operands op')
      (Synthesis.synthesize (adjointDemand .float).opcode (adjointDemand .float).operands
        (adjointDemand .float).capabilities)
      (Synthesis.synthesize (adjointDemand .pixel).opcode (adjointDemand .pixel).operands
        (adjointDemand .pixel).capabilities) :=
  ⟨rfl, sources_of_key.1 (adjointDemand .float) (adjointDemand .pixel) (adjointRecipe .float)
    (adjointRecipe .pixel) rfl rfl rfl⟩

/-- The same key, and other source texts: what a store hands out for pixels after it was asked for numbers
has not the text that is built for pixels. -/
theorem sources_differ_numbers_pixels : ∃ op op' : Operation,
    (adjointRecipe .float).key (adjointDemand .float).capabilities =
      (adjointRecipe .pixel).key (adjointDemand .pixel).capabilities ∧
    (((PlanStore.new true).answers [adjointDemand .float, adjointDemand .pixel]).map fun a =>
      a.2.map Plan.operation) = [.ok op, .ok op] ∧
    (((PlanStore.new false).answers [adjointDemand .float, adjointDemand .pixel]).map fun a =>
      a.2.map Plan.operation) = [.ok op, .ok op'] ∧
    op.stages.map Stage.source ≠ op'.stages.map Stage.source := by
  obtain ⟨op, op', hop, hop', hshared, hfresh⟩ : ∃ op op' : Operation,
      Synthesis.Correlation.build 3 .twoByThree .twoByThree .threeByThree
        ⟨4096, 8, 1, 65536⟩ = .ok op ∧
      Synthesis.Correlation.build 3 .twoByThree (FieldType.twoByThree.withElement .pixel)
        .threeByThree ⟨4096, 8, 1, 65536⟩ = .ok op' ∧
      (((PlanStore.new true).answers [adjointDemand .float, adjointDemand .pixel]).map fun a =>
        a.2.map Plan.operation) = [.ok op, .ok op] ∧
      (((PlanStore.new false).answers [adjointDemand .float, adjointDemand .pixel]).map fun a =>
        a.2.map Plan.operation) = [.ok op, .ok op'] := ⟨_, _, rfl, rfl, rfl, rfl⟩
  refine ⟨op, op', rfl, hshared, hfresh, fun hsources => ?_⟩
  have hreal : FieldType.twoByThree.element.isComplex = false := rfl
  have hpixel : Element.pixel.isComplex = false := rfl
  have hconcur := Synthesis.Correlation.build_withElement 3 .twoByThree .threeByThree
    ⟨4096, 8, 1, 65536⟩ hreal hpixel
  rw [hop, hop'] at hconcur
  cases hconcur with
  | ok h =>
      obtain ⟨-, before, after, rest, hsource, hsource'⟩ := h
      have hlines := (hsource.symm.trans hsources).trans hsource'
      have hline := Listing.text_injective before after 0 (List.cons.inj hlines).1
      exact absurd hline (by decide)

end PlanStore

end FieldCircuit
