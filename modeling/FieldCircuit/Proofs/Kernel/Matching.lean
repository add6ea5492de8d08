import FieldCircuit.Kernel.Launch
import FieldCircuit.Proofs.Concurring
import FieldCircuit.Proofs.Kernel.ResultTypes
import FieldCircuit.Proofs.Source.Listing

/-!
# Operations that match

Two operations match if they bind, launch and compute the same. Only the source texts of their stages
may differ, and no run can tell them apart. A filter adjoint matches the one for a second operand with
other elements, and the one line in which their sources differ is a comment that names the type of this
operand.
-/

namespace FieldCircuit

/-- Two stages are the same, their source texts apart. -/
structure Stage.Matches (s s' : Stage) : Prop where
  name : s.name = s'.name
  arguments : s.arguments = s'.arguments
  mode : s.mode = s'.mode
  workgroup : s.workgroup = s'.workgroup
  localBytes : s.localBytes = s'.localBytes
  program : s.program = s'.program

theorem Stage.Matches.refl (s : Stage) : s.Matches s := ⟨rfl, rfl, rfl, rfl, rfl, rfl⟩

structure Operation.Matches (op op' : Operation) : Prop where
  name : op.name = op'.name
  output : op.output = op'.output
  intermediates : op.intermediates = op'.intermediates
  stages : List.Forall₂ Stage.Matches op.stages op'.stages

theorem Operation.Matches.refl (op : Operation) : op.Matches op :=
  ⟨rfl, rfl, rfl, List.forall₂_same.2 fun s _ => Stage.Matches.refl s⟩

section Runs

variable {α : Type} (ar : Arithmetic α)

theorem Stage.Matches.launch {s s' : Stage} (h : s.Matches s') (b : Bindings)
    (memory : Array (LaunchBuffer α)) : s.launch ar b memory = s'.launch ar b memory := by
  have hgrants : s.grants memory b = s'.grants memory b := by
    rw [Stage.grants, Stage.grants, h.name, h.arguments]
  have hrun : ∀ g, s.runGranted ar g memory = s'.runGranted ar g memory := fun g => by
    rw [Stage.runGranted, Stage.runGranted, h.program, h.workgroup]
  simp only [Stage.launch, hgrants, hrun]

/-- Operations that match do the same to every memory, and are refused alike. -/
theorem Operation.Matches.execute {op op' : Operation} (h : op.Matches op') (b : Bindings)
    (memory : Array (LaunchBuffer α)) : op.execute ar b memory = op'.execute ar b memory := by
  have hstages : ∀ {l l' : List Stage}, List.Forall₂ Stage.Matches l l' →
      ∀ memory, Operation.runStages ar b l memory = Operation.runStages ar b l' memory := by
    intro l l' hl
    induction hl with
    | nil => exact fun _ => rfl
    | cons hs _ ih =>
        intro memory
        rw [Operation.runStages, Operation.runStages, hs.launch ar]
        cases Stage.launch ar _ b memory with
        | error e => rfl
        | ok memory => exact ih memory
  rw [Operation.execute, Operation.execute, h.name, h.intermediates, hstages h.stages]

theorem Operation.Matches.run {op op' : Operation} (h : op.Matches op')
    (inputs outputs intermediates : List (Array α)) :
    op.run ar inputs outputs intermediates = op'.run ar inputs outputs intermediates := by
  simp only [Operation.run, h.execute ar]

theorem Operation.Matches.executeOn {op op' : Operation} (h : op.Matches op') (b : Bindings)
    (buffers : Array Buffer) : op.executeOn b buffers = op'.executeOn b buffers := by
  simp only [Operation.executeOn, h.execute]

end Runs

namespace Synthesis.Correlation

def noted (before after : List String) (gradient : FieldType) : String :=
  Listing.text ⟨before ++ s!"// gradient: {gradient.render}" :: after, 0⟩

theorem partStride_withElement {t : FieldType} {e : Element} (hreal : t.element.isComplex = false)
    (he : e.isComplex = false) : (t.withElement e).layout.partStride = t.layout.partStride := by
  change (if e.isComplex then _ else 0) = if t.element.isComplex then _ else 0
  rw [hreal, he]
  rfl

/-- Definitions mention the kind of the elements in their first line only, as long as it is real. -/
theorem definitions_withElement (name : String) {t : FieldType} {e : Element}
    (hreal : t.element.isComplex = false) (he : e.isComplex = false) :
    Geometry.definitions name (t.withElement e) =
      s!"// {name}: {(t.withElement e).render}" :: (Geometry.definitions name t).tail := by
  simp only [Geometry.definitions, partStride_withElement hreal he]
  have hcomplex : (t.withElement e).element.isComplex = t.element.isComplex := he.trans hreal.symm
  rw [hcomplex]
  rfl

theorem appending_loadStatements : Listing.Appending loadStatements :=
  (((Listing.Appending.id.addLines _).block _ (.addLines .id _)).block _
    (.block .id _ (.addLines .id _))).addLines _

theorem appending_iterationStatements : Listing.Appending iterationStatements :=
  ((((Listing.Appending.id.addLines _).block _ (.addLines .id _)).line _).block _
    (((Listing.Appending.id.line _).block _ (.addLines .id _)).block _ (.line .id _))).line _

/-- The definitions of the operands stand at the head of the source, and the rest does not depend on
the operands. -/
theorem exists_source_eq (name : String) (p : TilePlan) (destination : String) :
    ∃ added, ∀ image gradient, source name p image gradient destination =
      Listing.text ⟨Geometry.definitions "image" image ++ Geometry.definitions "gradient" gradient ++
        added, 0⟩ := by
  have htile : Listing.Appending fun l =>
      (loadStatements l).block "for (int it = 0; it < ITERATIONS; it++)" iterationStatements :=
    appending_loadStatements.block _ appending_iterationStatements
  have hbody := (((Listing.Appending.id.addLines headLines).block
    "for (int tile = group; tile < TILES; tile += GROUPS)" htile).blank).addLines
      ["for (int i = lid; i < OUTPUTS; i += THREADS)",
        s!"    {destination}[group * OUTPUTS + i] = staging[i];"]
  let parameters := Geometry.parameters ["image", "gradient"] [destination]
  obtain ⟨added, hadded⟩ := ((Listing.Appending.id.addLines (planLines p)).blank.line
    s!"__kernel __attribute__((reqd_work_group_size({p.threads}, 1, 1)))").block
    s!"void {name}({parameters})" hbody 0
  refine ⟨added, fun image gradient => congrArg Listing.text ?_⟩
  rw [← hadded, ← List.nil_append (Geometry.definitions "image" image), ← Listing.addLines_eq,
    ← Listing.addLines_eq]
  rfl

/-- The type of the second operand is named in one line of the source and counts for nothing else, as
long as its elements are real. -/
theorem source_withElement (name : String) (p : TilePlan) (image gradient : FieldType)
    (destination : String) (hreal : gradient.element.isComplex = false) :
    ∃ before after, ∀ e : Element, e.isComplex = false →
      source name p image (gradient.withElement e) destination =
        noted before after (gradient.withElement e) := by
  obtain ⟨added, hadded⟩ := exists_source_eq name p destination
  refine ⟨Geometry.definitions "image" image, (Geometry.definitions "gradient" gradient).tail ++ added,
    fun e he => ?_⟩
  rw [hadded, definitions_withElement "gradient" hreal he, List.append_assoc, List.cons_append]
  rfl

theorem words?_withElement {t : FieldType} {e : Element} (hreal : t.element.isComplex = false)
    (he : e.isComplex = false) : (t.withElement e).words? = t.words? := by
  have hwords : (t.withElement e).layout.words = t.layout.words := by
    rw [Layout.words_of_real he, Layout.words_of_real hreal]
    rfl
  have hlayout : ∀ u : FieldType, u.words? = u.points? >>= fun _ => u.elements? >>= fun _ =>
      checked u.layout.partStride >>= fun _ => checked u.layout.words := by
    intro u
    simp only [FieldType.words?, FieldType.layout?, bind_assoc]
    rfl
  rw [hlayout, hlayout, partStride_withElement hreal he, hwords]
  rfl

/-- The sources of two operations are the same, the line of the first one apart that names the type of
the second operand. -/
def Noted (gradient other : FieldType) (op op' : Operation) : Prop :=
  ∃ before after rest, op.stages.map Stage.source = noted before after gradient :: rest ∧
    op'.stages.map Stage.source = noted before after other :: rest

theorem tiledStage_withElement (name : String) (p : TilePlan) (image : FieldType)
    {gradient : FieldType} {e : Element} (hreal : gradient.element.isComplex = false)
    (he : e.isComplex = false) :
    Concur (fun s s' => s.Matches s' ∧ ∃ before after, s.source = noted before after gradient ∧
        s'.source = noted before after (gradient.withElement e))
      (tiledStage name p image gradient) (tiledStage name p image (gradient.withElement e)) := by
  unfold tiledStage
  rw [words?_withElement hreal he]
  refine .bind_same _ fun imageWords => .bind_same _ fun gradientWords => .bind_same _ fun partials =>
    .bind_same _ fun workgroup => ?_
  obtain ⟨before, after, hsource⟩ :=
    source_withElement name p image gradient (if p.chained then "partial" else "out") hreal
  exact .ok ⟨⟨rfl, rfl, rfl, rfl, rfl, rfl⟩, before, after, hsource _ hreal, hsource e he⟩

theorem build_withElement (size : Nat) (image : FieldType) {gradient : FieldType} {e : Element}
    (output : FieldType) (caps : Capabilities) (hreal : gradient.element.isComplex = false)
    (he : e.isComplex = false) :
    Concur (fun op op' => op.Matches op' ∧ Noted gradient (gradient.withElement e) op op')
      (build size image gradient output caps)
      (build size image (gradient.withElement e) output caps) := by
  unfold build
  refine .bind_same _ fun p => ?_
  refine (tiledStage_withElement _ p image hreal he).bind fun tiled tiled' htiled => ?_
  obtain ⟨hmatches, before, after, hsource, hsource'⟩ := htiled
  split
  · refine .bind_same _ fun finish => .ok ⟨⟨rfl, rfl, rfl, ?_⟩, before, after, [finish.source], ?_, ?_⟩
    · exact .cons hmatches (.cons (.refl finish) .nil)
    · exact congrArg (· :: [finish.source]) hsource
    · exact congrArg (· :: [finish.source]) hsource'
  · refine .ok ⟨⟨hmatches.name, rfl, rfl, .cons hmatches .nil⟩, before, after, [], ?_, ?_⟩
    · exact congrArg (· :: []) hsource
    · exact congrArg (· :: []) hsource'

/-- What is announced for two operands: both have the same shape, and the second one has no tensors and
is real. -/
theorem outputType_pair {size : Nat} {image gradient output : FieldType}
    (h : outputType size [image, gradient] = .ok output) :
    gradient.field = image.field ∧ gradient.tensor = .point ∧ gradient.element.isComplex = false ∧
      FieldType.scalar [size, size] = .ok output := by
  simp only [outputType, bind_eq_ok_iff] at h
  obtain ⟨_, -, _, -, _, hgradient, h⟩ := h
  obtain ⟨hreal, -, horder⟩ := expectPlanar_eq_ok hgradient
  have htensor : gradient.tensor = .point :=
    congrArg Shape.mk (List.eq_nil_of_length_eq_zero horder)
  split at h
  · cases h
  · rename_i hfield
    split at h
    · cases h
    · exact ⟨(not_not.1 hfield).symm, htensor, hreal, liftField_eq_ok_iff.1 h⟩

end Synthesis.Correlation

namespace Recipe

def opcode : Recipe → Opcode
  | reduction op _ _ => .fieldReduce op
  | correlation size _ _ _ => .filterAdjoint size
  | transform direction _ => .fft direction

def Announced (recipe : Recipe) : Prop :=
  Synthesis.outputType recipe.opcode recipe.operands = .ok recipe.output

end Recipe

theorem Synthesis.prepare_planned {o : Opcode} {inputs : List FieldType} {caps : Capabilities}
    {recipe : Recipe} (h : prepare o inputs caps = .ok (.planned recipe)) :
    recipe.opcode = o ∧ recipe.operands = inputs ∧ recipe.Announced := by
  have hoperands : recipe.operands = inputs := (prepare_ready h).1
  have hopcode : recipe.opcode = o := by
    cases o with
    | unary _ | scale _ | offset _ | binary _ | complexBinary _ | tensorReduce | convolve _ =>
        obtain ⟨_, -, h⟩ := map_eq_ok_iff.1 h
        cases h
    | fieldReduce reduce =>
        obtain ⟨_, -, h⟩ := bind_eq_ok_iff.1 h
        obtain ⟨_, -, h⟩ := bind_eq_ok_iff.1 h
        cases h
        rfl
    | filterAdjoint size =>
        obtain ⟨_, -, h⟩ := bind_eq_ok_iff.1 h
        obtain ⟨_, -, h⟩ := bind_eq_ok_iff.1 h
        obtain ⟨_, -, h⟩ := bind_eq_ok_iff.1 h
        cases h
        rfl
    | fft direction =>
        obtain ⟨_, -, h⟩ := bind_eq_ok_iff.1 h
        cases h
        rfl
    | constant | sensor _ | actuator _ | host _ | recurrence => cases h
  refine ⟨hopcode, hoperands, ?_⟩
  have houtput := prepare_outputType h
  rw [← hopcode, ← hoperands] at houtput
  exact houtput

/-- The sources of two operations are the same, or differ in one line of the first stage: a comment that
names the second operand, which may be another kind of field of the same shape. -/
def Operation.SourcesMatch (operands others : List FieldType) (op op' : Operation) : Prop :=
  op.stages.map Stage.source = op'.stages.map Stage.source ∨
    ∃ gradient e, operands[1]? = some gradient ∧ others[1]? = some (gradient.withElement e) ∧
      Synthesis.Correlation.Noted gradient (gradient.withElement e) op op'

/-- Recipes with the same key are built alike: either both fail with the same error, or the operations
match. -/
theorem Recipe.build_concur {recipe other : Recipe} {caps caps' : Capabilities}
    (hkey : recipe.key caps = other.key caps') (h : recipe.Announced) (h' : other.Announced) :
    Concur (fun op op' => op.Matches op' ∧ op.SourcesMatch recipe.operands other.operands op')
      (recipe.build caps) (other.build caps') := by
  obtain rfl : caps = caps' := by
    have := congrArg PlanKey.capabilities hkey
    cases recipe <;> cases other <;> exact this
  have hsame : recipe = other → Concur (fun op op' => op.Matches op' ∧
      op.SourcesMatch recipe.operands other.operands op') (recipe.build caps) (other.build caps) := by
    rintro rfl
    exact .refl (fun op => ⟨.refl op, .inl rfl⟩) _
  cases recipe with
  | reduction reduce input output => cases other with
    | reduction reduce' input' output' =>
        obtain ⟨hfamily, rfl, -, -⟩ := PlanKey.mk.inj hkey
        obtain rfl : reduce = reduce' := PlanFamily.fieldReduce.inj hfamily
        obtain rfl : output = output' := Except.ok.inj (h.symm.trans h')
        exact hsame rfl
    | correlation size' image' gradient' output' => cases hkey
    | transform direction' t' => cases hkey
  | correlation size image gradient output => cases other with
    | reduction reduce' input' output' => cases hkey
    | correlation size' image' gradient' output' =>
        obtain ⟨-, rfl, rfl, -⟩ := PlanKey.mk.inj hkey
        obtain ⟨hfield, htensor, hreal, hscalar⟩ := Synthesis.Correlation.outputType_pair h
        obtain ⟨hfield', htensor', hreal', hscalar'⟩ := Synthesis.Correlation.outputType_pair h'
        obtain rfl : output = output' := Except.ok.inj (hscalar.symm.trans hscalar')
        obtain ⟨e, rfl⟩ : ∃ e, gradient' = gradient.withElement e := by
          refine ⟨gradient'.element, ?_⟩
          cases gradient
          cases gradient'
          simp_all [FieldType.withElement]
        refine (Synthesis.Correlation.build_withElement size image output caps hreal hreal').imp ?_
        exact fun op op' hop => ⟨hop.1, .inr ⟨gradient, e, rfl, rfl, hop.2⟩⟩
    | transform direction' t' => cases hkey
  | transform direction t => cases other with
    | reduction reduce' input' output' => cases hkey
    | correlation size' image' gradient' output' => cases hkey
    | transform direction' t' =>
        obtain ⟨hfamily, rfl, -, -⟩ := PlanKey.mk.inj hkey
        obtain rfl : direction = direction' := PlanFamily.fft.inj hfamily
        exact hsame rfl

end FieldCircuit
