import FieldCircuit.Kernel.Launch
import FieldCircuit.Proofs.Stores
import Mathlib.Logic.Function.Basic

/-!
# Launches on proper bindings

An operation sees memory through its slots. `Bindings.Holds` says that memory holds given words in the
slots, and that no slot that may be written shares its memory with another one. Under it a launch is
a change of the words in one slot, and running stages is a chain of such changes, `Performs`.
Bindings, grants and positions are not mentioned any more after that.
-/

namespace FieldCircuit

variable {α : Type}

def Slot.isInput : Slot → Bool
  | input _ => true
  | _ => false

def Bindings.position (b : Bindings) (slot : Slot) : Nat := (b.get? slot).getD 0

/-- Memory holds the words `σ` in the slots that have a size, and the slots that may be written lie
apart from all others. -/
structure Bindings.Holds (b : Bindings) (size : Slot → Option Nat)
    (memory : Array (LaunchBuffer α)) (σ : Slot → Array α) : Prop where
  bound : ∀ slot n, size slot = some n → b.get? slot = some (b.position slot)
  buffer : ∀ slot n, size slot = some n → memory[b.position slot]? = some (.ofWords (σ slot))
  words : ∀ slot n, size slot = some n → (σ slot).size = n
  apart : ∀ slot n other m, size slot = some n → size other = some m → slot.isInput = false →
    b.position slot = b.position other → slot = other

/-- The stage reads the slots `sources` and writes the slot `target`, which is another one and not an
input, and expects them to have the given sizes. -/
structure Stage.Binds (size : Slot → Option Nat) (s : Stage) (sources : List Slot) (target : Slot) :
    Prop where
  slots : s.arguments.map (fun a => (a.slot, a.isOutput)) =
    sources.map (fun slot => (slot, false)) ++ [(target, true)]
  words : ∀ a ∈ s.arguments, size a.slot = some a.words
  writable : target.isInput = false
  apart : target ∉ sources

theorem storeAll_size {a b : Array α} {l : List (Nat × α)} (h : storeAll a l = .ok b) :
    b.size = a.size := by
  induction l generalizing a with
  | nil => rw [Except.ok.inj h]
  | cons s l ih =>
      obtain ⟨c, hc, hb⟩ := bind_eq_ok_iff.1 ((List.foldlM_cons ..).symm.trans h)
      rw [ih hb]
      unfold store at hc
      split at hc
      · rw [← Except.ok.inj hc, Array.size_set]
      · cases hc

theorem Program.run_size {ar : Arithmetic α} {p : Program} {w : WorkGroup}
    {inputs : List (Array α)} {output words : Array α} (h : p.run ar w inputs output = .ok words) :
    words.size = output.size := by
  obtain ⟨_, _, hs⟩ := bind_eq_ok_iff.1 h
  exact storeAll_size hs

namespace Stage.Binds

variable {size : Slot → Option Nat} {s : Stage} {sources : List Slot} {target : Slot}

theorem split (h : s.Binds size sources target) : ∃ reads a,
    s.arguments = reads ++ [a] ∧ reads.map (·.slot) = sources ∧ (∀ r ∈ reads, r.isOutput = false) ∧
      a.slot = target ∧ a.isOutput = true := by
  obtain ⟨reads, last, hargs, hreads, hlast⟩ := List.map_eq_append_iff.1 h.slots
  obtain ⟨a, rest, rfl, ha, hrest⟩ := List.map_eq_cons_iff.1 hlast
  rw [List.map_eq_nil_iff] at hrest
  subst hrest
  have hslots : reads.map (·.slot) = sources := by
    have := congrArg (List.map Prod.fst) hreads
    simpa [List.map_map, Function.comp_def] using this
  have hflags : ∀ r ∈ reads, r.isOutput = false := by
    intro r hr
    have hmem : (r.slot, r.isOutput) ∈ sources.map (fun slot => (slot, false)) := by
      rw [← hreads]
      exact List.mem_map_of_mem hr
    obtain ⟨_, _, heq⟩ := List.mem_map.1 hmem
    exact (congrArg Prod.snd heq).symm
  exact ⟨reads, a, hargs, hslots, hflags, congrArg Prod.fst ha, congrArg Prod.snd ha⟩

theorem size_source (h : s.Binds size sources target) {slot : Slot} (hs : slot ∈ sources) :
    ∃ n, size slot = some n := by
  obtain ⟨reads, a, hargs, hslots, -, -, -⟩ := h.split
  rw [← hslots] at hs
  obtain ⟨r, hr, rfl⟩ := List.mem_map.1 hs
  exact ⟨r.words, h.words r (by simp [hargs, hr])⟩

theorem size_target (h : s.Binds size sources target) : ∃ n, size target = some n := by
  obtain ⟨reads, a, hargs, -, -, hslot, -⟩ := h.split
  exact ⟨a.words, hslot ▸ h.words a (by simp [hargs])⟩

end Stage.Binds

namespace Bindings.Holds

variable {b : Bindings} {size : Slot → Option Nat} {memory : Array (LaunchBuffer α)}
  {σ : Slot → Array α}

/-- An argument that is read is granted as long as nothing has been claimed for writing. -/
theorem grant_read (h : b.Holds size memory σ) {a : Argument} (hsize : size a.slot = some a.words)
    (ha : a.isOutput = false) (kernel : String) (reads : List Nat) :
    a.grant kernel memory b ⟨reads, []⟩ = .ok ⟨reads ++ [b.position a.slot], []⟩ := by
  simp [Argument.grant, h.bound _ _ hsize, h.buffer _ _ hsize, LaunchBuffer.ofWords,
    h.words _ _ hsize, Argument.access, ha, Grants.grant, Except.mapError]

theorem grant_reads (h : b.Holds size memory σ) (kernel : String) {arguments : List Argument}
    (hsize : ∀ a ∈ arguments, size a.slot = some a.words)
    (hread : ∀ a ∈ arguments, a.isOutput = false) (reads : List Nat) :
    arguments.foldlM (Argument.grant kernel memory b) ⟨reads, []⟩ =
      .ok ⟨reads ++ arguments.map fun a => b.position a.slot, []⟩ := by
  induction arguments generalizing reads with
  | nil => simp [pure, Except.pure]
  | cons a arguments ih =>
      rw [List.foldlM_cons, h.grant_read (hsize a (by simp)) (hread a (by simp)), ok_bind,
        ih (fun r hr => hsize r (by simp [hr])) fun r hr => hread r (by simp [hr])]
      simp

theorem grant_write (h : b.Holds size memory σ) {a : Argument} (hsize : size a.slot = some a.words)
    (ha : a.isOutput = true) (kernel : String) {reads : List Nat}
    (hnew : b.position a.slot ∉ reads) :
    a.grant kernel memory b ⟨reads, []⟩ = .ok ⟨reads, [b.position a.slot]⟩ := by
  simp [Argument.grant, h.bound _ _ hsize, h.buffer _ _ hsize, LaunchBuffer.ofWords,
    h.words _ _ hsize, Argument.access, ha, Grants.grant, hnew, Except.mapError]

theorem grants_eq_ok (h : b.Holds size memory σ) {s : Stage} {sources : List Slot} {target : Slot}
    (hs : s.Binds size sources target) :
    s.grants memory b = .ok ⟨sources.map b.position, [b.position target]⟩ := by
  obtain ⟨reads, a, hargs, rfl, hreads, rfl, ha⟩ := hs.split
  have hsize : ∀ r ∈ reads, size r.slot = some r.words := fun r hr =>
    hs.words r (by simp [hargs, hr])
  have hsizea : size a.slot = some a.words := hs.words a (by simp [hargs])
  have hnew : b.position a.slot ∉ reads.map fun r => b.position r.slot := by
    intro hmem
    obtain ⟨r, hr, heq⟩ := List.mem_map.1 hmem
    have hsame := h.apart _ _ _ _ hsizea (hsize r hr) hs.writable heq.symm
    exact hs.apart (hsame ▸ List.mem_map_of_mem hr)
  rw [Stage.grants, hargs, List.foldlM_append, h.grant_reads _ hsize hreads, ok_bind,
    List.foldlM_cons, List.nil_append, h.grant_write hsizea ha _ hnew, ok_bind, List.map_map]
  rfl

theorem wordsAt_eq_ok (h : b.Holds size memory σ) {slot : Slot} {n : Nat}
    (hsize : size slot = some n) : Stage.wordsAt memory (b.position slot) = .ok (σ slot) := by
  rw [Stage.wordsAt, fetch_eq_ok_iff.2 (h.buffer slot n hsize)]
  rfl

theorem update (h : b.Holds size memory σ) {target : Slot} {n : Nat}
    (hsize : size target = some n) (hin : target.isInput = false) {words : Array α}
    (hwords : words.size = n) :
    b.Holds size (memory.modify (b.position target) fun buffer => { buffer with words := some words })
      (Function.update σ target words) where
  bound := h.bound
  buffer := by
    intro slot m hm
    by_cases heq : slot = target
    · subst heq
      rw [Array.getElem?_modify, if_pos rfl, h.buffer slot n hsize, Function.update_self]
      simp [LaunchBuffer.ofWords, h.words slot n hsize, hwords]
    · have hne : b.position target ≠ b.position slot := fun hpos =>
        heq (h.apart _ _ _ _ hsize hm hin hpos).symm
      rw [Array.getElem?_modify, if_neg hne, h.buffer slot m hm, Function.update_of_ne heq]
  words := by
    intro slot m hm
    by_cases heq : slot = target
    · subst heq
      rw [Function.update_self, hwords]
      exact Option.some.inj (hsize.symm.trans hm)
    · rw [Function.update_of_ne heq, h.words slot m hm]
  apart := h.apart

/-- A launch whose program runs changes the words of its target, and nothing else. -/
theorem launch_eq_ok (h : b.Holds size memory σ) {s : Stage} {sources : List Slot} {target : Slot}
    (hs : s.Binds size sources target) {ar : Arithmetic α} {words : Array α}
    (hrun : s.program.run ar s.workgroup (sources.map σ) (σ target) = .ok words) :
    ∃ memory', s.launch ar b memory = .ok memory' ∧
      b.Holds size memory' (Function.update σ target words) := by
  obtain ⟨n, hn⟩ := hs.size_target
  have hreads : (sources.map b.position).mapM (Stage.wordsAt memory) = .ok (sources.map σ) := by
    rw [List.mapM_map]
    refine mapM_eq_ok fun slot hslot => ?_
    obtain ⟨m, hm⟩ := hs.size_source hslot
    exact h.wordsAt_eq_ok hm
  have hwords : words.size = n := (Program.run_size hrun).trans (h.words target n hn)
  refine ⟨_, ?_, h.update hn hs.writable hwords⟩
  rw [Stage.launch, h.grants_eq_ok hs, ok_bind, Stage.runGranted, hreads, ok_bind]
  have hfirst : fetch [b.position target].toArray 0 = .ok (b.position target) := rfl
  rw [hfirst, ok_bind, h.wordsAt_eq_ok hn, ok_bind, hrun]
  rfl

end Bindings.Holds

/-- Running stages one after another, each changing the words of its target. -/
inductive Performs (ar : Arithmetic α) (size : Slot → Option Nat) :
    List Stage → (Slot → Array α) → (Slot → Array α) → Prop
  | nil (σ : Slot → Array α) : Performs ar size [] σ σ
  | cons {s : Stage} {rest : List Stage} {σ σ' : Slot → Array α} {sources : List Slot}
      {target : Slot} {words : Array α} (binds : s.Binds size sources target)
      (runs : s.program.run ar s.workgroup (sources.map σ) (σ target) = .ok words)
      (others : Performs ar size rest (Function.update σ target words) σ') :
      Performs ar size (s :: rest) σ σ'

/-- Stages that perform can be run on memory. -/
theorem Performs.runStages {ar : Arithmetic α} {size : Slot → Option Nat} {stages : List Stage}
    {σ σ' : Slot → Array α} (h : Performs ar size stages σ σ') {b : Bindings}
    {memory : Array (LaunchBuffer α)} (hb : b.Holds size memory σ) :
    ∃ memory', Operation.runStages ar b stages memory = (.ok (), memory') ∧
      b.Holds size memory' σ' := by
  induction h generalizing memory with
  | nil σ => exact ⟨memory, rfl, hb⟩
  | cons binds runs _ ih =>
      obtain ⟨m, hm, hheld⟩ := hb.launch_eq_ok binds runs
      obtain ⟨memory', hrest, hheld'⟩ := ih hheld
      refine ⟨memory', ?_, hheld'⟩
      rw [Operation.runStages, hm]
      exact hrest

namespace Operation

def slotWords (op : Operation) (inputs : List FieldType) : Slot → Option Nat
  | .input i => inputs[i]?.map FieldType.words
  | .output 0 => some op.output.words
  | .output _ => none
  | .intermediate i => op.intermediates[i]?

theorem execute_of_performs {ar : Arithmetic α} {op : Operation} {inputs : List FieldType}
    {σ σ' : Slot → Array α} (h : Performs ar (op.slotWords inputs) op.stages σ σ') {b : Bindings}
    (hcount : b.intermediates.length = op.intermediates.length) {memory : Array (LaunchBuffer α)}
    (hb : b.Holds (op.slotWords inputs) memory σ) :
    ∃ memory', op.execute ar b memory = (.ok (), memory') ∧
      b.Holds (op.slotWords inputs) memory' σ' := by
  obtain ⟨memory', hrun, hheld⟩ := h.runStages hb
  exact ⟨memory', by rw [Operation.execute, if_neg (by simpa using hcount), hrun], hheld⟩

def slots (inputs : List (Array α)) (output : Array α) (intermediates : List (Array α)) :
    Slot → Array α
  | .input i => inputs.getD i #[]
  | .output _ => output
  | .intermediate i => intermediates.getD i #[]

/-- The place of a slot when inputs, output and intermediates lie one after the other. -/
def place (inputs : Nat) : Slot → Nat
  | .input i => i
  | .output _ => inputs
  | .intermediate i => inputs + 1 + i

def InRange (inputs intermediates : Nat) : Slot → Prop
  | .input i => i < inputs
  | .output i => i = 0
  | .intermediate i => i < intermediates

theorem distinct_get? {inputs intermediates : Nat} {slot : Slot}
    (h : InRange inputs intermediates slot) :
    (distinct inputs 1 intermediates).get? slot = some (place inputs slot) := by
  cases slot <;> simp_all [InRange, distinct, Bindings.get?, place]

theorem position_distinct {inputs intermediates : Nat} {slot : Slot}
    (h : InRange inputs intermediates slot) :
    (distinct inputs 1 intermediates).position slot = place inputs slot := by
  rw [Bindings.position, distinct_get? h, Option.getD_some]

theorem place_inj {inputs intermediates : Nat} {slot other : Slot}
    (h : InRange inputs intermediates slot) (h' : InRange inputs intermediates other)
    (heq : place inputs slot = place inputs other) : slot = other := by
  cases slot <;> cases other <;> grind [InRange, place]

structure Accepts (op : Operation) (types : List FieldType) (inputs : List (Array α))
    (output : Array α) (intermediates : List (Array α)) : Prop where
  inputs : inputs.map Array.size = types.map FieldType.words
  output : output.size = op.output.words
  intermediates : intermediates.map Array.size = op.intermediates

namespace Accepts

variable {op : Operation} {types : List FieldType} {inputs : List (Array α)} {output : Array α}
  {intermediates : List (Array α)}

theorem length_intermediates (h : op.Accepts types inputs output intermediates) :
    intermediates.length = op.intermediates.length := by
  simpa using congrArg List.length h.intermediates

theorem getElem?_input (h : op.Accepts types inputs output intermediates) {i n : Nat}
    (hi : op.slotWords types (.input i) = some n) :
    inputs[i]? = some (slots inputs output intermediates (.input i)) ∧
      (slots inputs output intermediates (.input i)).size = n := by
  have hget : (inputs.map Array.size)[i]? = some n := by
    rw [h.inputs, List.getElem?_map]
    exact hi
  rw [List.getElem?_map] at hget
  obtain ⟨a, ha, hn⟩ := Option.map_eq_some_iff.1 hget
  rw [slots, List.getD_eq_getElem?_getD, ha]
  exact ⟨rfl, hn⟩

theorem getElem?_intermediate (h : op.Accepts types inputs output intermediates) {i n : Nat}
    (hi : op.slotWords types (.intermediate i) = some n) :
    intermediates[i]? = some (slots inputs output intermediates (.intermediate i)) ∧
      (slots inputs output intermediates (.intermediate i)).size = n := by
  have hget : (intermediates.map Array.size)[i]? = some n := by
    rw [h.intermediates]
    exact hi
  rw [List.getElem?_map] at hget
  obtain ⟨a, ha, hn⟩ := Option.map_eq_some_iff.1 hget
  rw [slots, List.getD_eq_getElem?_getD, ha]
  exact ⟨rfl, hn⟩

theorem inRange (h : op.Accepts types inputs output intermediates) {slot : Slot} {n : Nat}
    (hn : op.slotWords types slot = some n) :
    InRange inputs.length intermediates.length slot := by
  cases slot with
  | input i => exact (List.getElem?_eq_some_iff.1 (h.getElem?_input hn).1).1
  | output i => cases i with
    | zero => rfl
    | succ i => cases hn
  | intermediate i => exact (List.getElem?_eq_some_iff.1 (h.getElem?_intermediate hn).1).1

theorem size_slots (h : op.Accepts types inputs output intermediates) {slot : Slot} {n : Nat}
    (hn : op.slotWords types slot = some n) :
    (slots inputs output intermediates slot).size = n := by
  cases slot with
  | input i => exact (h.getElem?_input hn).2
  | output i => cases i with
    | zero => exact h.output.trans (Option.some.inj hn)
    | succ i => cases hn
  | intermediate i => exact (h.getElem?_intermediate hn).2

theorem getElem?_place (h : op.Accepts types inputs output intermediates) {slot : Slot} {n : Nat}
    (hn : op.slotWords types slot = some n) :
    (inputs ++ [output] ++ intermediates)[place inputs.length slot]? =
      some (slots inputs output intermediates slot) := by
  have hrange := h.inRange hn
  cases slot with
  | input i =>
      rw [place, List.append_assoc, List.getElem?_append_left hrange, (h.getElem?_input hn).1]
  | output i => simp [place, slots]
  | intermediate i =>
      have hlength : (inputs ++ [output]).length = inputs.length + 1 := by simp
      rw [place, List.getElem?_append_right (by omega), hlength, Nat.add_sub_cancel_left,
        (h.getElem?_intermediate hn).1]

theorem holds (h : op.Accepts types inputs output intermediates) :
    (distinct inputs.length 1 intermediates.length).Holds (op.slotWords types)
      ((inputs ++ [output] ++ intermediates).map LaunchBuffer.ofWords).toArray
      (slots inputs output intermediates) where
  bound slot n hn := by
    rw [position_distinct (h.inRange hn), distinct_get? (h.inRange hn)]
  buffer slot n hn := by
    rw [position_distinct (h.inRange hn), List.getElem?_toArray, List.getElem?_map,
      h.getElem?_place hn, Option.map_some]
  words slot n hn := h.size_slots hn
  apart slot n other m hn hm _ heq := by
    rw [position_distinct (h.inRange hn), position_distinct (h.inRange hm)] at heq
    exact place_inj (h.inRange hn) (h.inRange hm) heq

end Accepts

/-- Running an operation on words of its own, if its stages perform. -/
theorem run_of_performs {ar : Arithmetic α} {op : Operation} {types : List FieldType}
    {inputs : List (Array α)} {output : Array α} {intermediates : List (Array α)}
    (h : op.Accepts types inputs output intermediates) {σ' : Slot → Array α}
    (hperf : Performs ar (op.slotWords types) op.stages (slots inputs output intermediates) σ') :
    (op.run ar inputs [output] intermediates).result = .ok () ∧
      (op.run ar inputs [output] intermediates).outputs = [σ' (.output 0)] := by
  have hcount : (distinct inputs.length 1 intermediates.length).intermediates.length =
      op.intermediates.length := by
    simp [distinct, h.length_intermediates]
  obtain ⟨memory', hexec, hheld⟩ := execute_of_performs hperf hcount h.holds
  have hout := hheld.buffer (.output 0) op.output.words rfl
  rw [position_distinct (h.inRange rfl), place, ← Array.getElem?_toList] at hout
  have hwords : (memory'.toList.map fun buffer => buffer.words.getD #[])[inputs.length]? =
      some (σ' (.output 0)) := by
    rw [List.getElem?_map, hout]
    rfl
  simp only [run, List.length_singleton, hexec]
  refine ⟨trivial, ?_⟩
  obtain ⟨hlt, hval⟩ := List.getElem?_eq_some_iff.1 hwords
  rw [List.drop_eq_getElem_cons hlt, hval]
  rfl

end Operation

end FieldCircuit
