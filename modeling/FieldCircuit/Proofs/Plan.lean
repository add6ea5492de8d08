import FieldCircuit.Plan.Cache
import FieldCircuit.Proofs.Kernel.ResultTypes

/-!
# Shared plans serve

A store of plans hands out an operation that was built for an earlier request with the same key. The key
leaves out one operand of a filter adjoint, but not its size, so the operation serves the request as
well as one that is built for it.
-/

namespace FieldCircuit

/-- The operation yields numbers, and is sound for operands of these types if their extents are signed
machine sizes. -/
structure Operation.Serves (op : Operation) (inputs : List FieldType) : Prop where
  output : op.output.element ≠ .pixel
  sound : (∀ t ∈ inputs, ∀ e ∈ t.field.extents, e < signedBound) → op.Sound inputs

theorem Operation.Sound.congr {op : Operation} {inputs others : List FieldType}
    (h : op.Sound inputs) (hwords : inputs.map FieldType.words = others.map FieldType.words) :
    op.Sound others := by
  have hslots : op.slotWords inputs = op.slotWords others := by
    funext slot
    cases slot with
    | input i =>
        change inputs[i]?.map FieldType.words = others[i]?.map FieldType.words
        rw [← List.getElem?_map, ← List.getElem?_map, hwords]
    | output i => cases i <;> rfl
    | intermediate i => rfl
  rw [Operation.Sound, ← hslots]
  exact h

theorem Recipe.words_eq_of_key {recipe other : Recipe} {caps caps' : Capabilities}
    (h : recipe.key caps = other.key caps') (haccepted : recipe.Accepted)
    (haccepted' : other.Accepted) :
    recipe.operands.map FieldType.words = other.operands.map FieldType.words := by
  cases recipe with
  | reduction reduce input output => cases other with
    | reduction reduce' input' output' =>
        have hinput : input = input' := congrArg PlanKey.fieldType h
        rw [hinput]
        rfl
    | correlation size' image' gradient' output' => cases h
    | transform direction' t' => cases h
  | correlation size image gradient output => cases other with
    | reduction reduce' input' output' => cases h
    | correlation size' image' gradient' output' =>
        have himage : image = image' := congrArg PlanKey.fieldType h
        obtain ⟨-, -, hgradient, -⟩ := haccepted
        obtain ⟨-, -, hgradient', -⟩ := haccepted'
        subst himage
        simp only [Recipe.operands, List.map_cons, List.map_nil, hgradient, hgradient']
    | transform direction' t' => cases h
  | transform direction t => cases other with
    | reduction reduce' input' output' => cases h
    | correlation size' image' gradient' output' => cases h
    | transform direction' t' =>
        have ht : t = t' := congrArg PlanKey.fieldType h
        rw [ht]
        rfl

/-- The operation was built from an accepted recipe with this key. -/
def PlanKey.Made (key : PlanKey) (op : Operation) : Prop :=
  ∃ o inputs caps recipe, Synthesis.prepare o inputs caps = .ok (.planned recipe) ∧
    recipe.key caps = key ∧ recipe.build caps = .ok op

theorem PlanKey.Made.serves {op : Operation} {o : Opcode} {inputs : List FieldType}
    {caps : Capabilities} {recipe : Recipe} (h : (recipe.key caps).Made op)
    (hrecipe : Synthesis.prepare o inputs caps = .ok (.planned recipe)) : op.Serves inputs := by
  obtain ⟨o', inputs', caps', recipe', hprepare, hkey, hbuild⟩ := h
  obtain ⟨rfl, haccepted⟩ := Synthesis.prepare_ready hrecipe
  obtain ⟨rfl, haccepted'⟩ := Synthesis.prepare_ready hprepare
  refine ⟨?_, fun _ => ?_⟩
  · rw [Recipe.output_build hbuild]
    exact Synthesis.outputType_ne_pixel (Synthesis.prepare_outputType hprepare)
  · exact (Recipe.build_sound haccepted' hbuild).congr
      (Recipe.words_eq_of_key hkey haccepted' haccepted)

/-- Every plan that is kept was made for its key. -/
def PlanCache.Sound (c : PlanCache) : Prop :=
  ∀ key plan, c.find? key = some plan → key.Made plan.operation

namespace PlanCache

theorem find?_entered (c : PlanCache) (key : PlanKey) (slot : Option Plan) (other : PlanKey) :
    find? { c with slots := entered key slot c.slots } other =
      if other = key then slot else c.find? other := by
  unfold find?
  by_cases h : other = key
  · subst h
    rw [if_pos rfl, lookup_entered_self, Option.join_some]
  · rw [if_neg h, lookup_entered_of_ne h]

theorem Sound.entered {c : PlanCache} (h : c.Sound) {key : PlanKey} {slot : Option Plan}
    (hslot : ∀ plan ∈ slot, key.Made plan.operation) :
    Sound { c with slots := entered key slot c.slots } := by
  intro other plan hplan
  rw [find?_entered] at hplan
  by_cases hother : other = key
  · rw [if_pos hother] at hplan
    exact hother ▸ hslot plan hplan
  · rw [if_neg hother] at hplan
    exact h other plan hplan

theorem getM_of_some {m : Type → Type} [Monad m] {c : PlanCache} {key : PlanKey} {plan : Plan}
    (h : c.find? key = some plan) (build : Unit → m (Except KernelError Operation)) :
    c.getM key build = pure (.ok plan, { c with hits := c.hits + 1 }) := by
  simp only [getM, h]

theorem getM_of_none {m : Type → Type} [Monad m] {c : PlanCache} {key : PlanKey}
    (h : c.find? key = none) (build : Unit → m (Except KernelError Operation)) :
    c.getM key build = build () >>= fun outcome => pure (c.settle key outcome) := by
  simp only [getM, h]

theorem settle_spec {c : PlanCache} (h : c.Sound) {key : PlanKey}
    {outcome : Except KernelError Operation} (hmade : ∀ op, outcome = .ok op → key.Made op) :
    (c.settle key outcome).2.Sound ∧
      ∀ plan, (c.settle key outcome).1 = .ok plan → key.Made plan.operation := by
  cases outcome with
  | error e => exact ⟨h.entered (fun _ hnone => by cases hnone), fun plan hplan => by cases hplan⟩
  | ok op =>
      refine ⟨h.entered ?_, ?_⟩
      · rintro _ ⟨⟩
        exact hmade op rfl
      · rintro _ ⟨⟩
        exact hmade op rfl

theorem get_spec {c : PlanCache} (h : c.Sound) {key : PlanKey}
    (build : Unit → Except KernelError Operation) (hbuild : ∀ op, build () = .ok op → key.Made op) :
    (c.get key build).2.Sound ∧
      ∀ plan, (c.get key build).1 = .ok plan → key.Made plan.operation := by
  cases hfind : c.find? key with
  | some plan =>
      rw [get, getM_of_some hfind]
      refine ⟨h, ?_⟩
      rintro _ ⟨⟩
      exact h key plan hfind
  | none =>
      rw [get, getM_of_none hfind]
      exact settle_spec h hbuild

end PlanCache

namespace PlanStore

def Sound (s : PlanStore) : Prop := s.cache.Sound

theorem sound_new (sharing : Bool) : (PlanStore.new sharing).Sound := by
  intro key plan h
  cases h

theorem synthesize_spec {s : PlanStore} (h : s.Sound) (o : Opcode) (inputs : List FieldType)
    (caps : Capabilities) : (s.synthesize o inputs caps).2.Sound ∧
      ∀ plan, (s.synthesize o inputs caps).1 = .ok plan → plan.operation.Serves inputs := by
  unfold synthesize
  cases hprepare : Synthesis.prepare o inputs caps with
  | error e => exact ⟨h, fun plan hplan => by cases hplan⟩
  | ok request => cases request with
    | built op =>
        refine ⟨h, ?_⟩
        rintro _ ⟨⟩
        exact ⟨Synthesis.outputType_ne_pixel (Synthesis.prepare_outputType hprepare),
          Synthesis.prepare_ready hprepare⟩
    | planned recipe =>
        have hmade : ∀ op, recipe.build caps = .ok op → (recipe.key caps).Made op :=
          fun op hop => ⟨o, inputs, caps, recipe, hprepare, rfl, hop⟩
        by_cases hsharing : s.sharing = true
        · simp only [if_pos hsharing]
          obtain ⟨hcache, hplan⟩ := PlanCache.get_spec h (fun _ => recipe.build caps) hmade
          exact ⟨hcache, fun plan hget => (hplan plan hget).serves hprepare⟩
        · simp only [if_neg hsharing]
          cases hop : recipe.build caps with
          | error e => exact ⟨h, fun plan hplan => by cases hplan⟩
          | ok op =>
              refine ⟨h, ?_⟩
              rintro _ ⟨⟩
              exact (hmade op hop).serves hprepare

end PlanStore

end FieldCircuit
