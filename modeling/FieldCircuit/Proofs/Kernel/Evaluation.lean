import FieldCircuit.Proofs.Kernel.Sound
import FieldCircuit.Proofs.Memory.Buffer

/-!
# Evaluation

The words that an operation makes of its operands, on memory of its own that is zero at the start. A
sound operation leaves the same words in the output whatever the output and the shared buffers held
before, and however long their memory is.
-/

namespace FieldCircuit

def Operation.evaluate (op : Operation) (inputs : List (Array Float32)) : Array Float32 :=
  (op.run .single inputs [Array.replicate op.output.words 0.0]
    (op.intermediates.map (Array.replicate · 0.0))).outputs.headD #[]

namespace Operation

variable {op : Operation} {types : List FieldType} {inputs : List (Array Float32)}
  {output : Array Float32} {intermediates : List (Array Float32)}

theorem Accepts.sized (h : op.Accepts types inputs output intermediates) :
    Sized (op.slotWords types) (slots inputs output intermediates) :=
  h.holds.words

theorem accepts_zeros (op : Operation) (h : inputs.map Array.size = types.map FieldType.words) :
    op.Accepts types inputs (Array.replicate op.output.words 0.0)
      (op.intermediates.map (Array.replicate · 0.0)) :=
  ⟨h, Array.size_replicate .., by simp [Function.comp_def]⟩

/-- A sound operation performs on all words, and what it leaves is what it evaluates to. -/
theorem Sound.performs_evaluate (hsound : op.Sound types)
    (h : op.Accepts types inputs output intermediates) :
    ∃ σ', Performs .single (op.slotWords types) op.stages (slots inputs output intermediates) σ' ∧
      σ' (.output 0) = op.evaluate inputs := by
  have hzeros : op.Accepts types inputs _ _ := accepts_zeros op h.inputs
  obtain ⟨σ', τ', hσ, hτ, hout⟩ := SoundStages.performs_pair hsound .single h.sized hzeros.sized (by
    rintro slot n hn (hin | hknown)
    · cases slot with
      | input i => rfl
      | output i => cases hin
      | intermediate i => cases hin
    · cases hknown)
  refine ⟨σ', hσ, ?_⟩
  rw [hout _ rfl, evaluate, (run_of_performs hzeros hτ).2]
  rfl

end Operation

theorem forall₂_of_getElem? {α β : Type} {r : α → β → Prop} {l : List α} {m : List β}
    (hlength : l.length = m.length)
    (h : ∀ (i : Nat) a b, l[i]? = some a → m[i]? = some b → r a b) : List.Forall₂ r l m := by
  rw [List.forall₂_iff_get]
  exact ⟨hlength, fun i hi hi' => h i _ _ (List.getElem?_eq_getElem hi) (List.getElem?_eq_getElem hi')⟩

def Buffer.Refilled (b b' : Buffer) : Prop :=
  b'.format = b.format ∧ ∃ words, b'.Carries words

theorem Buffer.Carries.refilled {b : Buffer} {words fresh : Array Float32} (h : b.Carries words)
    (hfresh : fresh.size = words.size) : b.Refilled (b.afterLaunch (.ofWords fresh)) := by
  have hcarries := h.afterLaunch hfresh
  obtain ⟨data, hdata, -, -⟩ := h
  refine ⟨?_, _, hcarries⟩
  simp [Buffer.afterLaunch, hdata, LaunchBuffer.ofWords]

variable {op : Operation} {types : List FieldType} {inputs : List (Array Float32)}
  {output : Array Float32} {intermediates : List (Array Float32)}

theorem Operation.executeOn_of_execute {b : Bindings} {buffers : Array Buffer}
    {result : Except KernelError Unit} {memory : Array (LaunchBuffer Float32)}
    (h : op.execute .single b (buffers.map Buffer.toLaunch) = (result, memory)) :
    ∃ after, op.executeOn b buffers = (result, after) ∧
      ∀ i : Nat, after[i]? = buffers[i]?.bind fun buffer => memory[i]?.map buffer.afterLaunch := by
  refine ⟨_, by rw [executeOn, h], fun i => ?_⟩
  rw [Array.getElem?_map, Array.zip, Array.getElem?_zipWith]
  cases buffers[i]? <;> cases memory[i]? <;> rfl

theorem Buffer.map_toLaunch {buffers : List Buffer} {words : List (Array Float32)}
    (h : List.Forall₂ Buffer.Carries buffers words) :
    buffers.map Buffer.toLaunch = words.map LaunchBuffer.ofWords := by
  induction h with
  | nil => rfl
  | cons hcarries _ ih => rw [List.map_cons, List.map_cons, hcarries.toLaunch, ih]

/-- The output and the shared buffers after an execution that has left these words in them. -/
theorem Operation.drop_after {ins mids : List Buffer} {out : Buffer} {after : Array Buffer}
    {memory : Array (LaunchBuffer Float32)} {σ : Slot → Array Float32}
    (hat : ∀ i : Nat, after[i]? = (ins ++ [out] ++ mids).toArray[i]?.bind fun buffer =>
      memory[i]?.map buffer.afterLaunch)
    (hmemory : ∀ slot, slot.isInput = false → InRange ins.length mids.length slot →
      memory[place ins.length slot]? = some (.ofWords (σ slot))) :
    after.toList.drop ins.length = out.afterLaunch (.ofWords (σ (.output 0))) ::
      mids.mapIdx fun i b => b.afterLaunch (.ofWords (σ (.intermediate i))) := by
  apply List.ext_getElem?
  intro i
  rw [List.getElem?_drop, Array.getElem?_toList, hat]
  cases i with
  | zero =>
      have houtput : memory[ins.length]? = _ := hmemory (.output 0) rfl rfl
      simp [houtput]
  | succ i =>
      have hindex : ins.length + (i + 1) = ins.length + 1 + i := by omega
      have hright : (ins ++ [out] ++ mids)[ins.length + 1 + i]? = mids[i]? := by
        rw [List.getElem?_append_right (by simp)]
        simp
      rw [hindex, List.getElem?_toArray, hright, List.getElem?_cons_succ, List.getElem?_mapIdx]
      by_cases hi : i < mids.length
      · have hword : memory[ins.length + 1 + i]? = _ := hmemory (.intermediate i) rfl hi
        simp [hword, hi]
      · simp [hi]

/-- Executing a sound operation on buffers of its own leaves in the output what it evaluates to. -/
theorem Operation.Sound.executeOn_eq (hsound : op.Sound types)
    (h : op.Accepts types inputs output intermediates) {ins mids : List Buffer} {out : Buffer}
    (hins : List.Forall₂ Buffer.Carries ins inputs) (hout : out.Carries output)
    (hmids : List.Forall₂ Buffer.Carries mids intermediates) :
    ∃ buffers out' mids', op.executeOn (distinct ins.length 1 mids.length)
        (ins ++ [out] ++ mids).toArray = (.ok (), buffers) ∧
      buffers.toList.drop ins.length = out' :: mids' ∧ out.Refilled out' ∧
      out'.Carries (op.evaluate inputs) ∧ List.Forall₂ Buffer.Refilled mids mids' := by
  obtain ⟨σ', hperforms, hevaluate⟩ := hsound.performs_evaluate h
  have hmemory : (ins ++ [out] ++ mids).toArray.map Buffer.toLaunch =
      ((inputs ++ [output] ++ intermediates).map LaunchBuffer.ofWords).toArray := by
    rw [List.map_toArray, List.map_append, List.map_append, List.map_append, List.map_append,
      Buffer.map_toLaunch hins, Buffer.map_toLaunch hmids, List.map_singleton, List.map_singleton,
      hout.toLaunch]
  have hholds := h.holds
  rw [← hmemory, ← hins.length_eq, ← hmids.length_eq] at hholds
  have hlength : mids.length = op.intermediates.length :=
    hmids.length_eq.trans h.length_intermediates
  have hcount : (distinct ins.length 1 mids.length).intermediates.length =
      op.intermediates.length := by
    simpa [distinct] using hlength
  obtain ⟨memory, hexecute, hheld⟩ := execute_of_performs hperforms hcount hholds
  obtain ⟨after, hafter, hat⟩ := executeOn_of_execute hexecute
  have hsized : Sized (op.slotWords types) σ' := hperforms.sized h.sized
  have hfresh : (σ' (.output 0)).size = output.size := by rw [hsized (.output 0) _ rfl, h.output]
  have hshared : ∀ i < mids.length, ∃ n, op.slotWords types (.intermediate i) = some n :=
    fun i hi => ⟨_, List.getElem?_eq_getElem (hlength ▸ hi)⟩
  refine ⟨after, _, _, hafter, drop_after hat fun slot hwritten hslot => ?_, hout.refilled hfresh,
    hevaluate ▸ hout.afterLaunch hfresh, ?_⟩
  · obtain ⟨n, hn⟩ : ∃ n, op.slotWords types slot = some n := by
      cases slot with
      | input i => cases hwritten
      | output i => exact ⟨_, by rw [show i = 0 from hslot]; rfl⟩
      | intermediate i => exact hshared i hslot
    have hbuffer := hheld.buffer slot n hn
    rwa [position_distinct hslot] at hbuffer
  · apply forall₂_of_getElem? (by simp)
    intro i b b' hb hb'
    rw [List.getElem?_mapIdx, hb, Option.map_some] at hb'
    obtain ⟨n, hn⟩ := hshared i (List.getElem?_eq_some_iff.1 hb).1
    obtain ⟨words, hwords, hcarries⟩ := forall₂_getElem?_left hmids hb
    obtain ⟨hslot, hsize⟩ := h.getElem?_intermediate hn
    obtain rfl := Option.some.inj (hwords.symm.trans hslot)
    rw [← Option.some.inj hb']
    exact hcarries.refilled ((hsized (.intermediate i) n hn).trans hsize.symm)

namespace Buffer.Measure

variable {buffers others : List Buffer} {lengths : List Nat}

theorem exists_words (h : Measure buffers lengths) :
    ∃ words, List.Forall₂ Buffer.Carries buffers words ∧ words.map Array.size = lengths := by
  induction h with
  | nil => exact ⟨[], .nil, rfl⟩
  | @cons b n buffers lengths hb _ ih =>
      obtain ⟨hlength, words, hwords⟩ := hb
      obtain ⟨rest, hrest, hsizes⟩ := ih
      refine ⟨words :: rest, .cons hwords hrest, ?_⟩
      rw [List.map_cons, hsizes, hwords.size, hlength]

theorem refilled (h : Measure buffers lengths) (hothers : List.Forall₂ Buffer.Refilled buffers others) :
    Measure others lengths := by
  induction hothers generalizing lengths with
  | nil => exact h
  | @cons b b' buffers others hb _ ih =>
      obtain ⟨hformat, hcarries⟩ := hb
      cases h with
      | cons hlength hrest =>
          refine .cons ⟨?_, hcarries⟩ (ih hrest)
          rw [← hlength.1, Buffer.length, Buffer.length, hformat]

end Buffer.Measure

end FieldCircuit
