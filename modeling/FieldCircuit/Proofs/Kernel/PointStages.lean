import FieldCircuit.Proofs.Kernel.FourierStages
import FieldCircuit.Proofs.Kernel.Point

/-!
# Operations with a single kernel per point

Point operations, tensor sums and convolutions are synthesized to one stage, which reads all operands
in order and writes the result. Such an operation is sound if its program is total for the words of
the operand types.
-/

namespace FieldCircuit

def operandSlots (inputs : List FieldType) : List (Slot × Nat) :=
  inputs.zipIdx.map fun operand => (.input operand.2, operand.1.words)

theorem mem_operandSlots {inputs : List FieldType} {r : Slot × Nat} (h : r ∈ operandSlots inputs) :
    ∃ i t, inputs[i]? = some t ∧ r = (.input i, t.words) := by
  obtain ⟨⟨t, i⟩, hmem, rfl⟩ := List.mem_map.1 h
  exact ⟨i, t, List.mem_zipIdx_iff_getElem?.1 hmem, rfl⟩

theorem map_snd_operandSlots (inputs : List FieldType) :
    (operandSlots inputs).map Prod.snd = inputs.map FieldType.words := by
  rw [operandSlots, List.map_map]
  calc inputs.zipIdx.map (Prod.snd ∘ fun operand => (Slot.input operand.2, operand.1.words))
      = (inputs.zipIdx.map Prod.fst).map FieldType.words := by rw [List.map_map]; rfl
    _ = inputs.map FieldType.words := by rw [List.zipIdx_map_fst]

theorem mapM_words?_eq_ok {inputs : List FieldType} {words : List Nat}
    (h : inputs.mapM (fun t => (t.words? : Except KernelError Nat)) = .ok words) :
    words = inputs.map FieldType.words := by
  rw [mapM_eq_ok_iff] at h
  induction h with
  | nil => rfl
  | cons hw _ ih => rw [List.map_cons, FieldType.words?_eq_ok (liftFault_eq_ok_iff.1 hw), ih]

theorem Argument.map_list (args : List (String × Slot × Nat × Bool)) :
    (Argument.list args).map (fun a => (a.slot, a.words, a.isOutput)) = args.map Prod.snd := by
  rw [Argument.list, List.map_map]
  calc args.zipIdx.map _ = (args.zipIdx.map Prod.fst).map Prod.snd := by rw [List.map_map]; rfl
    _ = args.map Prod.snd := by rw [List.zipIdx_map_fst]

namespace Operation

variable {op : Operation} {inputs : List FieldType}

theorem slotWords_operandSlots (op : Operation) (inputs : List FieldType) :
    ∀ r ∈ operandSlots inputs, op.slotWords inputs r.1 = some r.2 := by
  intro r hr
  obtain ⟨i, t, ht, rfl⟩ := mem_operandSlots hr
  change inputs[i]?.map FieldType.words = _
  rw [ht]
  rfl

/-- A stage that reads all operands and is total can be run before sound ones. -/
theorem sound_from_operands {s : Stage} {target : Slot × Nat} {rest : List Stage}
    (htakes : s.Takes (operandSlots inputs) target)
    (htarget : op.slotWords inputs target.1 = some target.2) (hin : target.1.isInput = false)
    (htotal : s.program.Total s.workgroup (inputs.map FieldType.words) target.2)
    (hrest : SoundStages (op.slotWords inputs) [target.1] rest) :
    SoundStages (op.slotWords inputs) [] (s :: rest) := by
  rw [← map_snd_operandSlots] at htotal
  refine .cons_of_takes htakes (op.slotWords_operandSlots inputs) htarget hin ?_ ?_ htotal hrest
  · intro hmem
    obtain ⟨r, hr, heq⟩ := List.mem_map.1 hmem
    obtain ⟨i, t, -, rfl⟩ := mem_operandSlots hr
    rw [← heq] at hin
    cases hin
  · intro r hr
    obtain ⟨i, t, -, rfl⟩ := mem_operandSlots hr
    exact .inl rfl

theorem sound_of_single {s : Stage} (hstages : op.stages = [s])
    (htakes : s.Takes (operandSlots inputs) (.output 0, op.output.words))
    (htotal : s.program.Total s.workgroup (inputs.map FieldType.words) op.output.words) :
    op.Sound inputs := by
  rw [Sound, hstages]
  exact sound_from_operands htakes rfl rfl htotal (.nil (List.mem_singleton_self _))

/-- An operation of one stage leaves in its output what the stage makes of the operands. -/
theorem performs_of_single {α : Type} {ar : Arithmetic α} {s : Stage} (hstages : op.stages = [s])
    (htakes : s.Takes (operandSlots inputs) (.output 0, op.output.words)) {σ : Slot → Array α}
    {words : Array α} (hrun : s.program.run ar s.workgroup (((operandSlots inputs).map Prod.fst).map σ)
      (σ (.output 0)) = .ok words) :
    ∃ σ', Performs ar (op.slotWords inputs) op.stages σ σ' ∧ σ' (.output 0) = words := by
  have hapart : Slot.output 0 ∉ (operandSlots inputs).map Prod.fst := by
    intro hmem
    obtain ⟨r, hr, heq⟩ := List.mem_map.1 hmem
    obtain ⟨i, t, -, rfl⟩ := mem_operandSlots hr
    cases heq
  have hbinds : s.Binds (op.slotWords inputs) _ _ :=
    htakes.binds (op.slotWords_operandSlots inputs) rfl rfl hapart
  rw [hstages]
  exact ⟨_, .cons hbinds hrun (.nil _), Function.update_self ..⟩

theorem Accepts.map_slots {α : Type} {xs : List (Array α)} {output : Array α}
    {intermediates : List (Array α)} (h : op.Accepts inputs xs output intermediates) :
    ((operandSlots inputs).map Prod.fst).map (slots xs output intermediates) = xs := by
  have hlength : inputs.length = xs.length := by
    simpa using (congrArg List.length h.inputs).symm
  apply List.ext_getElem?
  intro i
  by_cases hi : i < xs.length
  · simp [operandSlots, slots, hi, hlength]
  · simp [operandSlots, hi, hlength]

theorem run_of_single {α : Type} {ar : Arithmetic α} {s : Stage} (hstages : op.stages = [s])
    (htakes : s.Takes (operandSlots inputs) (.output 0, op.output.words)) {xs : List (Array α)}
    {output : Array α} {intermediates : List (Array α)}
    (haccepts : op.Accepts inputs xs output intermediates) {words : Array α}
    (hrun : s.program.run ar s.workgroup xs output = .ok words) :
    (op.run ar xs [output] intermediates).result = .ok () ∧
      (op.run ar xs [output] intermediates).outputs = [words] := by
  rw [← haccepts.map_slots] at hrun
  obtain ⟨σ', hperforms, rfl⟩ := performs_of_single (σ := slots xs output intermediates) hstages
    htakes hrun
  exact run_of_performs haccepts hperforms

/-- An operation of one total stage leaves the table of a function, if all stores of the stage have the
values of the function. -/
theorem run_eq_table {α : Type} {ar : Arithmetic α} {s : Stage} (hstages : op.stages = [s])
    (htakes : s.Takes (operandSlots inputs) (.output 0, op.output.words))
    (htotal : s.program.Total s.workgroup (inputs.map FieldType.words) op.output.words)
    {xs : List (Array α)} {output : Array α} {intermediates : List (Array α)}
    (haccepts : op.Accepts inputs xs output intermediates) {f : Nat → α}
    (hvalues : ∀ stores, s.program.stores ar s.workgroup xs = .ok stores →
      ∀ store ∈ stores, store.2 = f store.1) :
    (op.run ar xs [output] intermediates).result = .ok () ∧
      (op.run ar xs [output] intermediates).outputs = [table op.output.words f] := by
  obtain ⟨stores, hstores, hfills⟩ := htotal α ar xs haccepts.inputs
  refine run_of_single hstages htakes haccepts ?_
  rw [Program.run, hstores, ok_bind, hfills.storeAll_eq_ok haccepts.output,
    hfills.stored_eq_table haccepts.output (hvalues stores hstores)]

/-- An operation of two total stages, of which the second reads what the first leaves, is sound. -/
theorem sound_of_pair {first second : Stage} {partials : Nat} (hstages : op.stages = [first, second])
    (hintermediates : op.intermediates = [partials])
    (hfirst : first.Takes (operandSlots inputs) (.intermediate 0, partials))
    (hsecond : second.Takes [(.intermediate 0, partials)] (.output 0, op.output.words))
    (htotal : first.program.Total first.workgroup (inputs.map FieldType.words) partials)
    (htotal' : second.program.Total second.workgroup [partials] op.output.words) :
    op.Sound inputs := by
  have hpartials : op.slotWords inputs (.intermediate 0) = some partials := by
    simp [slotWords, hintermediates]
  rw [Sound, hstages]
  refine sound_from_operands hfirst hpartials rfl htotal ?_
  exact .cons_of_takes hsecond (by simpa using hpartials) rfl rfl (by simp) (by simp) htotal'
    (.nil (List.mem_cons_self ..))

end Operation

/-- The launch that is selected for an operation covers its result. -/
theorem Addressing.select_eq_ok {cls : OpClass} {inputs : List FieldType} {output : FieldType}
    {caps : Capabilities} {mode : AddressingMode} {w : WorkGroup}
    (h : Addressing.select cls inputs output caps = .ok (mode, w)) :
    Addressing.workGroup? output mode caps = .ok w := by
  unfold Addressing.select at h
  split at h
  · cases h
  · simp only [bind_eq_ok_iff, liftFault_eq_ok_iff] at h
    obtain ⟨m, -, w', hw, heq⟩ := h
    obtain ⟨rfl, rfl⟩ := Prod.mk.inj (Except.ok.inj heq)
    exact hw

theorem Element.isComplex_arithmetic {e : Element} (h : e.isComplex = false) :
    e.arithmetic.isComplex = false := by
  cases e with
  | complex => cases h
  | float => rfl
  | pixel => rfl

/-- A second operand is read inside of its words, at the element or as a single number. -/
theorem Pointwise.secondIndex_lt {k : Pointwise} {second : FieldType} (hb : k.b = some second.layout)
    {p : Point} {e : Nat} (h : k.broadcast = false → second.layout.elementAt p e < second.words) :
    k.secondIndex p e < second.words := by
  rw [Pointwise.secondIndex, hb]
  cases hbroadcast : k.broadcast with
  | true => exact second.words_pos
  | false => exact h hbroadcast

namespace Synthesis

/-- What is built at once is synthesized. -/
theorem synthesize_built {o : Opcode} {inputs : List FieldType} {caps : Capabilities}
    {x : Except KernelError Operation} (h : prepare o inputs caps = Request.built <$> x) :
    synthesize o inputs caps = x := by
  rw [synthesize, h]
  cases x <;> rfl

namespace Pointwise

structure Real (first : FieldType) (second : Option FieldType) (output : FieldType) : Prop where
  output : output = first.withElement first.element.arithmetic
  real : first.element.isComplex = false
  second : ∀ t ∈ second, t.element.isComplex = false ∧
    (isBroadcast first t = true ∨ t.field = first.field ∧ t.tensor = first.tensor)

theorem isBroadcast?_eq_ok {first second : FieldType}
    (h : isBroadcast? first second = .ok true) : isBroadcast first second = true := by
  unfold isBroadcast? at h
  split at h
  · obtain ⟨_, _, heq⟩ := bind_eq_ok_iff.1 h
    exact Except.ok.inj heq
  · cases h

theorem realOutput_eq_ok {description : String} {first : FieldType} {second : Option FieldType}
    {output : FieldType} (h : realOutput description first second = .ok output) :
    Real first second output := by
  simp only [realOutput, bind_eq_ok_iff] at h
  obtain ⟨_, hfirst, h⟩ := h
  cases second with
  | none => exact ⟨(Except.ok.inj h).symm, expectReal_eq_ok hfirst, by simp⟩
  | some t =>
      simp only [bind_eq_ok_iff] at h
      obtain ⟨_, hsecond, h⟩ := h
      split at h
      · rename_i hsame
        simp only [sameShapes, Bool.and_eq_true, beq_iff_eq] at hsame
        refine ⟨(Except.ok.inj h).symm, expectReal_eq_ok hfirst, ?_⟩
        rintro _ ⟨⟩
        exact ⟨expectReal_eq_ok hsecond, .inr hsame⟩
      · obtain ⟨compatible, hcompatible, h⟩ := bind_eq_ok_iff.1 h
        cases compatible with
        | false => cases h
        | true =>
            refine ⟨(Except.ok.inj h).symm, expectReal_eq_ok hfirst, ?_⟩
            rintro _ ⟨⟩
            exact ⟨expectReal_eq_ok hsecond, .inl (isBroadcast?_eq_ok (liftFault_eq_ok_iff.1 hcompatible))⟩

theorem complexOutput_eq_ok {op : BinaryOp} {description : String} {first second output : FieldType}
    (h : complexOutput op description first second = .ok output) :
    second = first ∧ output = first ∧ first.element.isComplex = true := by
  unfold complexOutput at h
  split at h
  · cases h
  · split at h
    · cases h
    · rename_i hfind
      split at h
      · cases h
      · rename_i hsame
        have hcomplex := List.find?_eq_none.1 hfind first (by simp)
        exact ⟨not_not.1 hsame, (Except.ok.inj h).symm, by simpa using hcomplex⟩

/-- The operands of a point operation: two complex ones of a type, or one or two others. -/
theorem outputType_eq_ok {o : Opcode} {inputs : List FieldType} {output : FieldType}
    (h : outputType o inputs = .ok output) {op : PointOp} (hop : pointOp o = .ok op) :
    (∃ binary, op = .complex binary ∧ inputs = [output, output] ∧
      output.element.isComplex = true) ∨
    ((∀ binary, op ≠ .complex binary) ∧ ∃ first rest, inputs = first :: rest ∧
      Real first rest.head? output ∧ rest.length ≤ 1) := by
  simp only [outputType, hop, ok_bind, bind_eq_ok_iff] at h
  obtain ⟨_, hcount, h⟩ := h
  have hlength := expectOperands_eq_ok hcount
  split at h
  · obtain ⟨rfl, rfl, hcomplex⟩ := complexOutput_eq_ok h
    exact .inl ⟨_, rfl, rfl, hcomplex⟩
  · rename_i first rest hnot
    refine .inr ⟨?_, first, rest, rfl, realOutput_eq_ok h, ?_⟩
    · rintro binary rfl
      obtain ⟨second, rfl⟩ := List.length_eq_one_iff.1 (Nat.succ.inj hlength)
      exact hnot binary second rfl rfl
    · have : op.operands ≤ 2 := by cases op <;> simp [PointOp.operands]
      rw [List.length_cons] at hlength
      omega
  · cases h

def broadcasts : List FieldType → Bool
  | [first, second] => isBroadcast first second
  | _ => false

structure IsPoint (s : Stage) (op : PointOp) (inputs : List FieldType) (output : FieldType)
    (caps : Capabilities) : Prop where
  takes : s.Takes (operandSlots inputs) (.output 0, output.words)
  launch : Addressing.workGroup? output s.mode caps = .ok s.workgroup
  program : ∃ a, inputs.head? = some a ∧ s.program = .pointwise
    { op, map := .of output s.mode, broadcast := broadcasts inputs, a := a.layout,
      b := inputs[1]?.map FieldType.layout, out := output.layout }

theorem synthesize_eq_ok {o : Opcode} {inputs : List FieldType} {caps : Capabilities}
    {op : Operation} (h : synthesize o inputs caps = .ok op) :
    ∃ output p s, outputType o inputs = .ok output ∧ pointOp o = .ok p ∧ op = .single s output ∧
      IsPoint s p inputs output caps := by
  unfold synthesize at h
  obtain ⟨output, houtput, h⟩ := bind_eq_ok_iff.1 h
  obtain ⟨p, hp, h⟩ := bind_eq_ok_iff.1 h
  obtain ⟨⟨mode, w⟩, hselect, h⟩ := bind_eq_ok_iff.1 h
  obtain ⟨words, hwords, h⟩ := bind_eq_ok_iff.1 h
  obtain ⟨n, hn, h⟩ := bind_eq_ok_iff.1 h
  obtain ⟨a, ha, hop⟩ := bind_eq_ok_iff.1 h
  obtain rfl := FieldType.words?_eq_ok (liftFault_eq_ok_iff.1 hn)
  obtain rfl := mapM_words?_eq_ok hwords
  rw [← Except.ok.inj hop]
  refine ⟨output, p, _, houtput, hp, rfl, ?_, Addressing.select_eq_ok hselect, a, ?_, rfl⟩
  · unfold Stage.Takes
    rw [Argument.map_list, List.map_append, List.map_map, List.zipIdx_map, List.map_map, operandSlots,
      List.map_map]
    rfl
  · rw [liftFault_eq_ok_iff, fetch_eq_ok_iff] at ha
    rw [List.head?_eq_getElem?]
    simpa using ha

theorem IsPoint.total_real {s : Stage} {op : PointOp} {first output : FieldType}
    {rest : List FieldType} {caps : Capabilities} (h : IsPoint s op (first :: rest) output caps)
    (hop : ∀ binary, op ≠ .complex binary) (hreal : Real first rest.head? output)
    (hrest : rest.length ≤ 1) :
    s.program.Total s.workgroup ((first :: rest).map FieldType.words) output.words := by
  obtain ⟨a, ha, hprogram⟩ := h.program
  obtain rfl : first = a := Option.some.inj ha
  have hextents : first.layout.SameExtents output.layout := by
    rw [hreal.output]
    exact ⟨rfl, rfl, rfl, rfl⟩
  rw [hprogram, List.map_cons]
  refine Pointwise.total_real h.launch rfl rfl ?_ hop hextents hreal.real ?_
  · rw [hreal.output]
    exact Element.isComplex_arithmetic hreal.real
  · intro n hn p e hp he
    obtain ⟨second, rest, rfl⟩ : ∃ second others, rest = second :: others := by
      cases rest with
      | nil => cases hn
      | cons second others => exact ⟨second, others, rfl⟩
    obtain rfl : rest = [] := by simpa using hrest
    obtain rfl : second.words = n := Option.some.inj hn
    obtain ⟨hsecond, hshape⟩ := hreal.second second rfl
    refine Pointwise.secondIndex_lt rfl fun hbroadcast => ?_
    obtain ⟨hfield, htensor⟩ := hshape.resolve_left (Bool.eq_false_iff.1 hbroadcast)
    have hsame : second.layout.SameExtents output.layout := by
      rw [hreal.output]
      exact FieldType.sameExtents hfield htensor
    rw [FieldType.words, Layout.words_of_real hsecond, hsame.elementAt, hsame.elements, hsame.points]
    exact hp.elementAt_lt he

/-- The stage of a point operation is total for the operands that were accepted. -/
theorem IsPoint.total {s : Stage} {o : Opcode} {p : PointOp} {inputs : List FieldType}
    {output : FieldType} {caps : Capabilities} (h : IsPoint s p inputs output caps)
    (houtput : outputType o inputs = .ok output) (hp : pointOp o = .ok p) :
    s.program.Total s.workgroup (inputs.map FieldType.words) output.words := by
  rcases outputType_eq_ok houtput hp with ⟨binary, rfl, rfl, hcomplex⟩ | ⟨hop, first, rest, rfl, hreal, hrest⟩
  · obtain ⟨a, ha, hprogram⟩ := h.program
    obtain rfl : output = a := Option.some.inj ha
    rw [hprogram]
    exact Pointwise.total_complex h.launch rfl rfl hcomplex rfl rfl rfl (by
      simp [broadcasts, isBroadcast])
  · exact h.total_real hop hreal hrest

theorem sound {o : Opcode} {inputs : List FieldType} {caps : Capabilities} {op : Operation}
    (h : synthesize o inputs caps = .ok op) : op.Sound inputs := by
  obtain ⟨output, p, s, houtput, hp, rfl, hpoint⟩ := synthesize_eq_ok h
  exact Operation.sound_of_single rfl hpoint.takes (hpoint.total houtput hp)

end Pointwise

namespace TensorSum

/-- The operand that a tensor sum accepts, with its result: the same field of single numbers. -/
theorem outputType_eq_ok {inputs : List FieldType} {output : FieldType}
    (h : outputType inputs = .ok output) :
    ∃ input, inputs = [input] ∧ input.element.isComplex = false ∧ output.field = input.field ∧
      output.tensor = .point ∧ output.element = input.element.arithmetic := by
  simp only [outputType, bind_eq_ok_iff] at h
  obtain ⟨_, hcount, input, hinput, _, hreal, houtput⟩ := h
  obtain ⟨x, rfl⟩ := List.length_eq_one_iff.1 (expectOperands_eq_ok hcount)
  obtain rfl : x = input := Except.ok.inj hinput
  exact ⟨x, rfl, expectReal_eq_ok hreal, FieldType.of_eq_ok (liftField_eq_ok_iff.1 houtput)⟩

structure IsSum (s : Stage) (input output : FieldType) (caps : Capabilities) : Prop where
  takes : s.Takes (operandSlots [input]) (.output 0, output.words)
  select : Addressing.select .perPoint [input] output caps = .ok (s.mode, s.workgroup)
  program : s.program = .tensorSum
    { map := .of output s.mode, input := input.layout, output := output.layout }

theorem synthesize_eq_ok {inputs : List FieldType} {caps : Capabilities} {op : Operation}
    (h : synthesize inputs caps = .ok op) :
    ∃ input output s, inputs = [input] ∧ outputType [input] = .ok output ∧ op = .single s output ∧
      IsSum s input output caps := by
  unfold synthesize at h
  obtain ⟨output, houtput, h⟩ := bind_eq_ok_iff.1 h
  obtain ⟨input, hinput, h⟩ := bind_eq_ok_iff.1 h
  obtain ⟨⟨mode, w⟩, hselect, h⟩ := bind_eq_ok_iff.1 h
  obtain ⟨n, hn, h⟩ := bind_eq_ok_iff.1 h
  obtain ⟨m, hm, hop⟩ := bind_eq_ok_iff.1 h
  obtain rfl := FieldType.words?_eq_ok (liftFault_eq_ok_iff.1 hn)
  obtain rfl := FieldType.words?_eq_ok (liftFault_eq_ok_iff.1 hm)
  obtain ⟨x, rfl, -⟩ := outputType_eq_ok houtput
  obtain rfl : x = input := Except.ok.inj hinput
  rw [← Except.ok.inj hop]
  exact ⟨x, output, _, rfl, houtput, rfl, rfl, hselect, rfl⟩

theorem IsSum.total {s : Stage} {input output : FieldType} {caps : Capabilities}
    (h : IsSum s input output caps) (houtput : outputType [input] = .ok output) :
    s.program.Total s.workgroup [input.words] output.words := by
  obtain ⟨x, heq, hreal, hfield, htensor, helement⟩ := outputType_eq_ok houtput
  obtain rfl : input = x := by simpa using heq
  rw [h.program]
  refine TensorSum.total (Addressing.select_eq_ok h.select) rfl rfl rfl hfield ?_ ?_ hreal
  · rw [FieldType.elements, htensor]
    rfl
  · rw [helement]
    exact Element.isComplex_arithmetic hreal

theorem sound {inputs : List FieldType} {caps : Capabilities} {op : Operation}
    (h : synthesize inputs caps = .ok op) : op.Sound inputs := by
  obtain ⟨input, output, s, rfl, houtput, rfl, hstage⟩ := synthesize_eq_ok h
  exact Operation.sound_of_single rfl hstage.takes (hstage.total houtput)

end TensorSum

namespace Convolution

theorem outputType_eq_ok {inputs : List FieldType} {output : FieldType}
    (h : outputType inputs = .ok output) :
    ∃ image kernel, inputs = [image, kernel] ∧ image.IsPlane ∧ kernel.IsPlane ∧
      output = image.withElement image.element.arithmetic := by
  simp only [outputType, bind_eq_ok_iff] at h
  obtain ⟨_, _, h⟩ := h
  split at h
  · rename_i image kernel _
    simp only [bind_eq_ok_iff] at h
    obtain ⟨_, himage, _, hkernel, h⟩ := h
    split at h
    · exact ⟨image, kernel, rfl, expectPlanar_eq_ok himage, expectPlanar_eq_ok hkernel,
        (Except.ok.inj h).symm⟩
    · cases h
  · cases h

structure IsConvolution (s : Stage) (border : Border) (image kernel output : FieldType)
    (caps : Capabilities) : Prop where
  takes : s.Takes (operandSlots [image, kernel]) (.output 0, output.words)
  launch : Addressing.workGroup? output s.mode caps = .ok s.workgroup
  program : s.program = .convolution
    { border, map := .of output s.mode, image := image.layout, kernel := kernel.layout }

theorem synthesize_eq_ok {border : Border} {inputs : List FieldType} {caps : Capabilities}
    {op : Operation} (h : synthesize border inputs caps = .ok op) :
    ∃ image kernel output s, inputs = [image, kernel] ∧ outputType [image, kernel] = .ok output ∧
      op = .single s output ∧ IsConvolution s border image kernel output caps := by
  unfold synthesize at h
  obtain ⟨output, houtput, h⟩ := bind_eq_ok_iff.1 h
  obtain ⟨image, himage, h⟩ := bind_eq_ok_iff.1 h
  obtain ⟨kernel, hkernel, h⟩ := bind_eq_ok_iff.1 h
  obtain ⟨⟨mode, w⟩, hselect, h⟩ := bind_eq_ok_iff.1 h
  obtain ⟨n, hn, h⟩ := bind_eq_ok_iff.1 h
  obtain ⟨k, hk, h⟩ := bind_eq_ok_iff.1 h
  obtain ⟨m, hm, hop⟩ := bind_eq_ok_iff.1 h
  obtain rfl := FieldType.words?_eq_ok (liftFault_eq_ok_iff.1 hn)
  obtain rfl := FieldType.words?_eq_ok (liftFault_eq_ok_iff.1 hk)
  obtain rfl := FieldType.words?_eq_ok (liftFault_eq_ok_iff.1 hm)
  obtain ⟨x, y, rfl, -⟩ := outputType_eq_ok houtput
  obtain rfl : x = image := Except.ok.inj himage
  obtain rfl : y = kernel := Except.ok.inj hkernel
  rw [← Except.ok.inj hop]
  exact ⟨x, y, output, _, rfl, houtput, rfl, rfl, Addressing.select_eq_ok hselect, rfl⟩

/-- The stage of a convolution is total for the operands that were accepted, if the extents of the image
are signed machine sizes. -/
theorem IsConvolution.total {s : Stage} {border : Border} {image kernel output : FieldType}
    {caps : Capabilities} (h : IsConvolution s border image kernel output caps)
    (houtput : outputType [image, kernel] = .ok output)
    (hextents : ∀ e ∈ image.field.extents, e < signedBound) :
    s.program.Total s.workgroup [image.words, kernel.words] output.words := by
  obtain ⟨_, _, heq, himage, hkernel, rfl⟩ := outputType_eq_ok houtput
  obtain ⟨rfl, rfl⟩ : image = _ ∧ kernel = _ := by simpa using heq
  have hlt := image.fromInner_lt (by decide) hextents
  rw [h.program]
  exact Convolution.total h.launch rfl rfl rfl himage.layers himage.words hkernel.words
    himage.elements (Element.isComplex_arithmetic himage.real) (hlt 1) (hlt 0)

theorem sound {border : Border} {inputs : List FieldType} {caps : Capabilities} {op : Operation}
    (h : synthesize border inputs caps = .ok op)
    (hextents : ∀ t ∈ inputs, ∀ e ∈ t.field.extents, e < signedBound) : op.Sound inputs := by
  obtain ⟨image, kernel, output, s, rfl, houtput, rfl, hstage⟩ := synthesize_eq_ok h
  exact Operation.sound_of_single rfl hstage.takes
    (hstage.total houtput (hextents image List.mem_cons_self))

end Convolution

end Synthesis

end FieldCircuit
