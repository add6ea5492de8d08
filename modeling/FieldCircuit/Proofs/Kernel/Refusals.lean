import FieldCircuit.Proofs.Kernel.Grants
import FieldCircuit.Proofs.Kernel.Sound
import FieldCircuit.Proofs.Memory.Allocation

/-!
# Refused launches

A launch changes the words of buffers, and neither their lengths nor their sides. Grants depend on
nothing else. A program that is total for the lengths of its arguments does not fail on the buffers
that it is granted, so that a launch fails exactly if an argument is refused.
-/

namespace FieldCircuit

variable {α : Type}

namespace LaunchBuffer

def shape (l : LaunchBuffer α) : Nat × Option Nat := (l.length, l.words.map Array.size)

end LaunchBuffer

/-- Memory of the same shape grants the same accesses. -/
theorem Argument.grant_congr {memory memory' : Array (LaunchBuffer α)}
    (h : memory.map LaunchBuffer.shape = memory'.map LaunchBuffer.shape) (kernel : String)
    (b : Bindings) (g : Grants) (a : Argument) :
    a.grant kernel memory b g = a.grant kernel memory' b g := by
  unfold grant
  cases b.get? a.slot with
  | none => rfl
  | some position =>
      have hat : memory[position]?.map LaunchBuffer.shape =
          memory'[position]?.map LaunchBuffer.shape := by
        rw [← Array.getElem?_map, h, Array.getElem?_map]
      cases hl : memory[position]? with
      | none =>
          have hl' : memory'[position]? = none := by simpa [hl] using hat.symm
          simp only [hl, hl']
      | some l =>
          obtain ⟨l', hl', hshape⟩ := Option.map_eq_some_iff.1 (hat.symm.trans (by rw [hl]; rfl))
          obtain ⟨hlength, hwords⟩ := Prod.mk.inj hshape
          have hnone : l'.words.isNone = l.words.isNone := by
            simpa using congrArg Option.isNone hwords
          simp only [hl, hl', hlength, hnone]

namespace Stage

variable {s : Stage} {ar : Arithmetic α} {b : Bindings} {memory memory' : Array (LaunchBuffer α)}

theorem grants_congr (h : memory.map LaunchBuffer.shape = memory'.map LaunchBuffer.shape) :
    s.grants memory b = s.grants memory' b := by
  have hgrant : Argument.grant s.name memory b = Argument.grant s.name memory' b := by
    funext g a
    exact a.grant_congr h s.name b g
  rw [grants, grants, hgrant]

theorem launch_shape (h : s.launch ar b memory = .ok memory') :
    memory'.map LaunchBuffer.shape = memory.map LaunchBuffer.shape := by
  obtain ⟨g, -, hrun⟩ := bind_eq_ok_iff.1 h
  rw [mapError_eq_ok_iff, runGranted] at hrun
  obtain ⟨inputs, -, hrun⟩ := bind_eq_ok_iff.1 hrun
  obtain ⟨position, -, hrun⟩ := bind_eq_ok_iff.1 hrun
  obtain ⟨output, houtput, hrun⟩ := bind_eq_ok_iff.1 hrun
  obtain ⟨words, hwords, hmemory⟩ := bind_eq_ok_iff.1 hrun
  obtain ⟨buffer, hbuffer, houtput⟩ := bind_eq_ok_iff.1 houtput
  have hsize := Program.run_size hwords
  have hold : buffer.words = some output := by
    split at houtput
    · rename_i hsome
      rw [hsome, Except.ok.inj houtput]
    · cases houtput
  rw [← Except.ok.inj hmemory]
  apply Array.ext_getElem?
  intro i
  rw [Array.getElem?_map, Array.getElem?_map, Array.getElem?_modify]
  split
  · rename_i hi
    rw [← hi, fetch_eq_ok_iff.1 hbuffer]
    simp [LaunchBuffer.shape, hold, hsize]
  · rfl

end Stage

/-- The arguments that are read come first, and the last one is filled by a program that does not
fail on words of the lengths that it expects. -/
def Stage.Launchable (s : Stage) : Prop :=
  ∃ reads a, s.arguments = reads ++ [a] ∧ (∀ r ∈ reads, r.isOutput = false) ∧ a.isOutput = true ∧
    s.program.Total s.workgroup (reads.map (·.words)) a.words

/-- Sound stages can be launched. -/
theorem SoundStages.launchable {size : Slot → Option Nat} {known : List Slot} {stages : List Stage}
    (h : SoundStages size known stages) {s : Stage} (hs : s ∈ stages) : s.Launchable := by
  induction h with
  | nil => cases hs
  | @cons _ s' _ sources target lengths length binds sourceSizes targetSize total _ _ ih =>
      rcases List.mem_cons.1 hs with rfl | hs
      · obtain ⟨reads, a, hargs, hslots, hreads, hslot, ha⟩ := binds.split
        have hlengths : reads.map (·.words) = lengths := by
          apply List.map_injective_iff.2 (Option.some_injective Nat)
          rw [← sourceSizes, ← hslots, List.map_map, List.map_map]
          exact List.map_congr_left fun r hr => (binds.words r (by simp [hargs, hr])).symm
        have hlength : a.words = length := by
          apply Option.some_injective Nat
          rw [← targetSize, ← hslot, binds.words a (by simp [hargs])]
        exact ⟨reads, a, hargs, hreads, ha, by rwa [hlengths, hlength]⟩
      · exact ih hs

/-- A buffer with memory that has room for its words, and less bytes than a machine size counts. -/
structure Buffer.Allocated (b : Buffer) : Prop where
  room : ∀ data, b.contents = .words data → b.length ≤ data.size
  addressable : b.contents.size < sizeBound

namespace Buffer

theorem New.allocated {side : Side} {n : Nat} {e : Encoding} {b : Buffer} (h : New side n e b) :
    b.Allocated := by
  have hbytes := h.bytes
  cases side with
  | host =>
      refine ⟨fun data hdata => ?_, ?_⟩
      · rw [h.contents] at hdata
        cases hdata
      · rw [h.contents, Contents.zeros, Contents.size, Array.size_replicate]
        exact hbytes
  | accelerator =>
      obtain ⟨words, hwords, hroom, -⟩ := h.carries
      have hbytes' : b.format.bytes = b.length * 4 := by
        rw [BufferFormat.bytes, Buffer.length, h.format]
        rfl
      have hsize : words.size = b.length := by
        have hzeros := hwords.symm.trans h.contents
        rw [Contents.zeros, Contents.words.injEq, hbytes'] at hzeros
        rw [hzeros, Array.size_replicate]
        simp [ceilDiv]
      refine ⟨fun data hdata => ?_, ?_⟩
      · obtain rfl := Contents.words.inj (hwords.symm.trans hdata)
        exact hroom
      · rw [hwords, Contents.size, hsize, ← hbytes']
        exact hbytes

theorem Allocated.shape {b : Buffer} (h : b.Allocated) (hside : b.contents.side = .accelerator) :
    b.toLaunch.shape = (b.length, some b.length) := by
  cases hdata : b.contents with
  | bytes data =>
      rw [hdata] at hside
      cases hside
  | words data =>
      have hroom := h.room data hdata
      simp [toLaunch, hdata, LaunchBuffer.shape, hroom]

/-- Accelerator memory has room for less words than signed machine sizes count. -/
theorem Allocated.length_lt {b : Buffer} (h : b.Allocated)
    (hside : b.contents.side = .accelerator) : b.length < signedBound := by
  have haddressable := h.addressable
  cases hdata : b.contents with
  | bytes data =>
      rw [hdata] at hside
      cases hside
  | words data =>
      have hroom := h.room data hdata
      have hbound : sizeBound = 2 * signedBound := by decide
      rw [hdata, Contents.size] at haddressable
      omega

/-- A launch that leaves the words of a buffer alone leaves the buffer alone. -/
theorem Allocated.afterLaunch_toLaunch {b : Buffer} (h : b.Allocated) :
    b.afterLaunch b.toLaunch = b := by
  cases hdata : b.contents with
  | bytes data => simp [afterLaunch, hdata]
  | words data =>
      have hroom := h.room data hdata
      have hsize : (data.extract 0 b.length).size = b.length := by simp [hroom]
      have hover := Contents.overwritten_words .single (hsize.symm ▸ hroom : _ ≤ data.size)
      rw [hsize] at hover
      have hjoin : data.extract 0 b.length ++ data.extract b.length data.size = data := by
        simp [hroom]
      simp only [afterLaunch, toLaunch, hdata, hover, hjoin]
      rw [← hdata]

end Buffer

def LaunchBuffer.Shaped (memory : Array (LaunchBuffer α)) (buffers : Array Buffer) : Prop :=
  memory.map LaunchBuffer.shape = (buffers.map Buffer.toLaunch).map LaunchBuffer.shape

section Launches

variable {b : Bindings} {buffers : Array Buffer} {memory : Array (LaunchBuffer Float32)}

theorem Argument.Proper.wordsAt {a : Argument} (ha : a.Proper b buffers)
    (hallocated : ∀ buffer ∈ buffers, buffer.Allocated)
    (hshaped : LaunchBuffer.Shaped memory buffers) :
    ∃ words, Stage.wordsAt memory (b.position a.slot) = .ok words ∧ words.size = a.words := by
  obtain ⟨position, buffer, hget, hat, hlength, hside⟩ := ha
  have hshape := (hallocated buffer (Array.mem_of_getElem? hat)).shape hside
  have hmemory : memory[position]?.map LaunchBuffer.shape = some (a.words, some a.words) := by
    rw [← Array.getElem?_map, hshaped, Array.getElem?_map, Array.getElem?_map, hat, Option.map_some,
      Option.map_some, hshape, hlength]
  obtain ⟨l, hl, hwords⟩ := Option.map_eq_some_iff.1 hmemory
  obtain ⟨words, hsome, hsize⟩ := Option.map_eq_some_iff.1 (Prod.mk.inj hwords).2
  refine ⟨words, ?_, hsize⟩
  rw [Bindings.position, hget, Option.getD_some, Stage.wordsAt, fetch_eq_ok_iff.2 hl, ok_bind,
    hsome]

/-- Memory of the right shape has words of the lengths that proper arguments expect. -/
theorem Argument.mapM_wordsAt {arguments : List Argument}
    (h : ∀ a ∈ arguments, a.Proper b buffers) (hallocated : ∀ buffer ∈ buffers, buffer.Allocated)
    (hshaped : LaunchBuffer.Shaped memory buffers) :
    ∃ words, (arguments.map fun a => b.position a.slot).mapM (Stage.wordsAt memory) = .ok words ∧
      words.map Array.size = arguments.map (·.words) := by
  obtain ⟨words, hwords, hsizes⟩ := mapM_exists_ok fun a ha =>
    (h a ha).wordsAt hallocated hshaped
  refine ⟨words, (List.mapM_map ..).trans hwords, ?_⟩
  clear hwords h
  induction hsizes with
  | nil => rfl
  | cons hsize _ ih => rw [List.map_cons, List.map_cons, hsize, ih]

namespace Stage

variable {s : Stage} {ar : Arithmetic Float32}

theorem Launchable.launch_exists (h : s.Launchable) (hadmits : b.Admits buffers s.arguments)
    (hallocated : ∀ buffer ∈ buffers, buffer.Allocated)
    (hshaped : LaunchBuffer.Shaped memory buffers) (ar : Arithmetic Float32) :
    ∃ memory', s.launch ar b memory = .ok memory' := by
  obtain ⟨reads, a, hargs, hreads, ha, htotal⟩ := h
  have hread : ∀ r ∈ reads, r.Proper b buffers := fun r hr =>
    hadmits.proper r (by simp [hargs, hr])
  have hwritten : a.Proper b buffers := hadmits.proper a (by simp [hargs])
  obtain ⟨inputs, hinputs, hlengths⟩ := Argument.mapM_wordsAt hread hallocated hshaped
  obtain ⟨output, houtput, hsize⟩ := hwritten.wordsAt hallocated hshaped
  obtain ⟨stores, hstores, hfills⟩ := htotal Float32 ar inputs hlengths
  have hgrants : s.grants memory b =
      .ok ⟨reads.map fun r => b.position r.slot, [b.position a.slot]⟩ := by
    rw [grants_congr hshaped, grants, hadmits.foldlM_grant, hargs, Grants.of_append hreads ha]
  have hfirst : fetch [b.position a.slot].toArray 0 = .ok (b.position a.slot) := rfl
  have hrun : s.program.run ar s.workgroup inputs output = .ok (stored output stores) := by
    rw [Program.run, hstores, ok_bind, hfills.storeAll_eq_ok hsize]
  refine ⟨memory.modify (b.position a.slot) fun buffer =>
    { buffer with words := some (stored output stores) }, ?_⟩
  rw [launch, hgrants, ok_bind, runGranted, hinputs, ok_bind, hfirst, ok_bind, houtput, ok_bind,
    hrun]
  rfl

theorem Refused.launch_eq {e : KernelError} (h : s.Refused b buffers e)
    (hshaped : LaunchBuffer.Shaped memory buffers) (ar : Arithmetic Float32) :
    s.launch ar b memory = .error e := by
  rw [launch, grants_congr hshaped, h.grants_eq]
  rfl

variable (hb : b.Within buffers) (hallocated : ∀ buffer ∈ buffers, buffer.Allocated)
  (hlaunchable : b.Admits buffers s.arguments → s.Launchable)

include hb hallocated hlaunchable

/-- A launch succeeds exactly if the arguments are admitted. -/
theorem launch_succeeds_iff (hshaped : LaunchBuffer.Shaped memory buffers) :
    (∃ memory', s.launch ar b memory = .ok memory') ↔ b.Admits buffers s.arguments := by
  refine ⟨?_, fun h => (hlaunchable h).launch_exists h hallocated hshaped ar⟩
  rintro ⟨memory', hmemory⟩
  rcases s.admits_or_refused hb with hadmits | ⟨e, hrefused⟩
  · exact hadmits
  · cases hmemory.symm.trans (hrefused.launch_eq hshaped ar)

/-- A launch fails exactly if an argument is refused, with the error of the first one. -/
theorem launch_eq_error_iff (hshaped : LaunchBuffer.Shaped memory buffers) {e : KernelError} :
    s.launch ar b memory = .error e ↔ s.Refused b buffers e := by
  refine ⟨fun h => ?_, fun h => h.launch_eq hshaped ar⟩
  rcases s.admits_or_refused hb with hadmits | ⟨e', hrefused⟩
  · obtain ⟨memory', hmemory⟩ := (hlaunchable hadmits).launch_exists hadmits hallocated hshaped ar
    cases hmemory.symm.trans h
  · obtain rfl : e' = e := Except.error.inj ((hrefused.launch_eq hshaped ar).symm.trans h)
    exact hrefused

end Stage

end Launches

end FieldCircuit
