import FieldCircuit.Proofs.Kernel.Fourier
import FieldCircuit.Proofs.Kernel.Stages
import FieldCircuit.Proofs.Source.Plain

/-!
# Stages of Fourier transforms

The stages of a transform run its passes one after another. The first reads the operand, the last
writes the result, and in between the words alternate between two buffers, so that no stage writes
what it reads. Types that can be transformed have planes of powers of two, for which all passes are
regular.
-/

namespace FieldCircuit

namespace FourierPass

variable {α : Type} {ar : Arithmetic α}

inductive Transforms (ar : Arithmetic α) : List FourierPass → Array α → Array α → Prop
  | nil (a : Array α) : Transforms ar [] a a
  | cons {f : FourierPass} {rest : List FourierPass} {a b c : Array α} (first : Maps ar f a b)
      (others : Transforms ar rest b c) : Transforms ar (f :: rest) a c

theorem transforms_append {l r : List FourierPass} {a c : Array α}
    (h : Transforms ar (l ++ r) a c) : ∃ b, Transforms ar l a b ∧ Transforms ar r b c := by
  induction l generalizing a with
  | nil => exact ⟨a, .nil a, h⟩
  | cons f l ih =>
      cases h with
      | cons first others =>
          obtain ⟨b, hl, hr⟩ := ih others
          exact ⟨b, .cons first hl, hr⟩

end FourierPass

namespace Synthesis.Fourier

structure IsPass (words last : Nat) (caps : Capabilities) (pass : FourierPass × Nat) (s : Stage) :
    Prop where
  takes : s.Takes [(sourceSlot pass.2, words)] (targetSlot last pass.2, words)
  program : s.program = .fourier pass.1
  launch : WorkGroup.covering [pass.1.n / 2, pass.1.lines] caps = .ok s.workgroup

theorem stage_eq_ok {name : String} {words last p : Nat} {pass : FourierPass}
    {twiddles : String × String} {caps : Capabilities} {s : Stage}
    (h : stage name words last p pass twiddles caps = .ok s) :
    IsPass words last caps (pass, p) s := by
  simp only [stage, bind_eq_ok_iff, liftFault_eq_ok_iff] at h
  obtain ⟨_, _, w, hw, hs⟩ := h
  rw [← Except.ok.inj hs]
  exact ⟨rfl, rfl, hw⟩

/-- The stages of a transform run its passes, in buffers of the size of the operand. -/
theorem build_eq_ok {direction : Direction} {t : FieldType} {caps : Capabilities} {op : Operation}
    (h : build direction t caps = .ok op) :
    op.output = t ∧
      op.intermediates =
        List.replicate (Nat.min ((FourierPass.plan t direction).length - 1) 2) t.words ∧
      List.Forall₂ (IsPass t.words ((FourierPass.plan t direction).length - 1) caps)
        (FourierPass.plan t direction).zipIdx op.stages := by
  simp only [build, bind_eq_ok_iff, liftFault_eq_ok_iff] at h
  obtain ⟨words, hwords, stages, hstages, hop⟩ := h
  obtain rfl := FieldType.words?_eq_ok hwords
  rw [← Except.ok.inj hop]
  have hpasses := mapM_eq_ok_iff.1 hstages
  refine ⟨rfl, rfl, List.Forall₂.imp ?_ hpasses⟩
  rintro ⟨pass, p⟩ s hs
  exact stage_eq_ok hs

variable {op : Operation} {t : FieldType} {last p : Nat}

theorem slotWords_target (houtput : op.output = t)
    (hinter : op.intermediates = List.replicate (Nat.min last 2) t.words) (hp : p ≤ last) :
    op.slotWords [t] (targetSlot last p) = some t.words := by
  unfold targetSlot
  split
  · rw [Operation.slotWords, houtput]
  · have hlt : p % 2 < Nat.min last 2 := Nat.lt_min.2 ⟨by omega, by omega⟩
    rw [Operation.slotWords, hinter, List.getElem?_replicate, if_pos hlt]

/-- The buffer that a pass reads is the operand or what the previous pass has written. -/
theorem sourceSlot_succ (last : Nat) (hp : p < last) : sourceSlot (p + 1) = targetSlot last p := by
  rw [sourceSlot, targetSlot, if_neg (by omega), if_neg (by omega), Nat.add_sub_cancel]

theorem slotWords_source (houtput : op.output = t)
    (hinter : op.intermediates = List.replicate (Nat.min last 2) t.words) (hp : p ≤ last) :
    op.slotWords [t] (sourceSlot p) = some t.words := by
  cases p with
  | zero => rfl
  | succ p =>
      rw [sourceSlot_succ last (by omega)]
      exact slotWords_target houtput hinter (by omega)

theorem targetSlot_apart (last p : Nat) :
    (targetSlot last p).isInput = false ∧ targetSlot last p ≠ sourceSlot p := by
  unfold targetSlot sourceSlot
  split <;> split
  · exact ⟨rfl, by simp⟩
  · exact ⟨rfl, by simp⟩
  · exact ⟨rfl, by simp⟩
  · refine ⟨rfl, ?_⟩
    rw [ne_eq, Slot.intermediate.injEq]
    omega

/-- The extents of a plane of complex numbers that can be transformed: a row of a power of two, or rows
and columns of powers of two. -/
structure Transformable (t : FieldType) : Prop where
  elements : t.elements = 1
  points : t.points = t.rows * t.columns
  part : t.layout.partStride = t.rows * t.columns
  words : t.words = 2 * (t.rows * t.columns)
  columns : ∃ m, 0 < m ∧ t.columns = 2 ^ m
  rows : if t.dimensions = 2 then ∃ m, 0 < m ∧ t.rows = 2 ^ m else t.rows = 1

theorem expectLength_eq_ok {t : FieldType} {n : Nat} (h : expectLength t n = .ok ()) :
    ∃ m, 0 < m ∧ n = 2 ^ m := by
  unfold expectLength at h
  split at h
  · cases h
  · rename_i hpower
    split at h
    · cases h
    · rename_i htwo
      obtain ⟨m, hm⟩ := floorPowerOfTwo_eq n
      have hn : n = 2 ^ m := by
        simp only [isPowerOfTwo, Bool.not_eq_true', beq_eq_false_iff_ne, not_not] at hpower
        rw [← hm]
        exact hpower
      refine ⟨m, ?_, hn⟩
      by_contra hzero
      rw [show m = 0 by omega] at hn
      omega

/-- A plane of complex numbers with extents that are powers of two can be transformed. -/
theorem transformable {t : FieldType} (hcomplex : t.element.isComplex = true) (horder : t.order = 0)
    (hdimensions : t.dimensions = 1 ∨ t.dimensions = 2)
    (hextents : ∀ n ∈ t.field.extents, ∃ m, 0 < m ∧ n = 2 ^ m) : Transformable t := by
  have helements : t.layout.elements = 1 := FieldType.elements_of_order horder
  have hlayers : t.layout.layers = 1 := t.fromInner_eq_one (i := 2) (by omega)
  have hpoints : t.layout.points = t.rows * t.columns := by
    rw [Layout.points_eq_mul, hlayers, Nat.one_mul]
    rfl
  obtain ⟨hwords, hpart⟩ := Layout.words_of_complex (l := t.layout) hcomplex
  rw [helements, hpoints, Nat.one_mul] at hwords hpart
  refine ⟨helements, by rw [← t.layout_points, hpoints], hpart,
    by rw [FieldType.words, hwords, Nat.mul_comm], ?_, ?_⟩
  · have hlt : 0 < t.field.extents.reverse.length := by
      rw [List.length_reverse]
      have : t.field.extents.length = t.dimensions := rfl
      omega
    refine hextents _ ?_
    rw [FieldType.columns, Shape.fromInner, List.getD_eq_getElem?_getD, List.getElem?_eq_getElem hlt]
    exact List.mem_reverse.1 (List.getElem_mem hlt)
  · split
    · rename_i htwo
      have hlt : 1 < t.field.extents.reverse.length := by
        rw [List.length_reverse]
        have : t.field.extents.length = t.dimensions := rfl
        omega
      refine hextents _ ?_
      rw [FieldType.rows, Shape.fromInner, List.getD_eq_getElem?_getD, List.getElem?_eq_getElem hlt]
      exact List.mem_reverse.1 (List.getElem_mem hlt)
    · exact t.fromInner_eq_one (i := 1) (by omega)

/-- The result type of a transform is that of its operand, which can be transformed. -/
theorem outputType_eq_ok {inputs : List FieldType} {t : FieldType}
    (h : outputType inputs = .ok t) : inputs = [t] ∧ Transformable t := by
  simp only [outputType, bind_eq_ok_iff, liftFault_eq_ok_iff] at h
  obtain ⟨_, hcount, input, hinput, h⟩ := h
  obtain ⟨x, rfl⟩ := List.length_eq_one_iff.1 (expectOperands_eq_ok hcount)
  obtain rfl : x = input := Except.ok.inj hinput
  split at h
  · cases h
  · rename_i hcomplex
    split at h
    · cases h
    · rename_i hshape
      obtain ⟨_, hextents, ht⟩ := bind_eq_ok_iff.1 h
      obtain rfl : x = t := Except.ok.inj ht
      simp only [Bool.not_eq_true', decide_eq_false_iff_not, not_not] at hshape
      exact ⟨rfl, transformable (by simpa using hcomplex) hshape.2 hshape.1 fun n hn =>
        expectLength_eq_ok (forM_eq_ok_iff.1 hextents n hn)⟩

theorem synthesize_fft {direction : Direction} {inputs : List FieldType} {t : FieldType}
    (h : outputType inputs = .ok t) (caps : Capabilities) :
    synthesize (.fft direction) inputs caps = build direction t caps := by
  simp only [synthesize, prepare, h, ok_bind]
  rfl

/-- All passes of a transform are regular, and their planes are those of the field. -/
theorem Transformable.regular {t : FieldType} (h : Transformable t) {direction : Direction}
    {f : FourierPass} (hf : f ∈ FourierPass.plan t direction) : f.Regular ∧ t.words = 2 * f.part := by
  obtain ⟨m, hm, hcolumns⟩ := h.columns
  simp only [FourierPass.plan, List.mem_append] at hf
  rcases hf with hf | hf
  · simp only [FourierPass.alongAxis, List.mem_map] at hf
    obtain ⟨span, hspan, rfl⟩ := hf
    have hlength : t.layout.columns = 2 ^ m := hcolumns
    rw [hlength, FourierPass.spans_two_pow] at hspan
    obtain ⟨s, hs, rfl⟩ := List.mem_map.1 hspan
    exact ⟨FourierPass.regular_rows hlength rfl (List.mem_range.1 hs) t.rows_pos rfl rfl h.part,
      by rw [h.words, h.part]⟩
  · have hrows := h.rows
    split at hf
    · rename_i hdimensions
      rw [if_pos hdimensions] at hrows
      obtain ⟨m', hm', hrows⟩ := hrows
      simp only [FourierPass.alongAxis, List.mem_map] at hf
      obtain ⟨span, hspan, rfl⟩ := hf
      have hlength : t.layout.rows = 2 ^ m' := hrows
      rw [hlength, FourierPass.spans_two_pow] at hspan
      obtain ⟨s, hs, rfl⟩ := List.mem_map.1 hspan
      exact ⟨FourierPass.regular_columns hlength rfl (List.mem_range.1 hs) t.columns_pos rfl rfl
        h.part, by rw [h.words, h.part]⟩
    · cases hf

theorem Transformable.plan_ne_nil {t : FieldType} (h : Transformable t) (direction : Direction) :
    FourierPass.plan t direction ≠ [] := by
  obtain ⟨m, hm, hcolumns⟩ := h.columns
  have hlength : t.layout.columns = 2 ^ m := hcolumns
  intro hnil
  have hempty := (List.append_eq_nil_iff.1 hnil).1
  rw [FourierPass.alongAxis, List.map_eq_nil_iff, hlength, FourierPass.spans_two_pow,
    List.map_eq_nil_iff, List.range_eq_nil] at hempty
  omega

theorem Transformable.words?_eq_ok {t : FieldType} (h : Transformable t)
    (hwords : t.words < sizeBound) : t.words? = .ok t.words := by
  have hplane : t.rows * t.columns < sizeBound := by
    have := h.words
    omega
  have hchecked : ∀ n < sizeBound, checked n = .ok n := fun n hn =>
    checked_eq_ok_iff.2 ⟨hn, rfl⟩
  have hpoints : t.points? = .ok t.points := hchecked _ (by rw [h.points]; exact hplane)
  have helements : t.elements? = .ok t.elements := hchecked _ (by rw [h.elements]; decide)
  rw [FieldType.words?, FieldType.layout?, hpoints, ok_bind, helements, ok_bind, h.part,
    hchecked _ hplane]
  exact hchecked _ hwords

theorem plain_twiddleText (direction : Direction) (n : Nat) :
    Plain (twiddleText direction n).1 ∧ Plain (twiddleText direction n).2 := by
  have htext : ∀ xs : List Float32, Plain (", ".intercalate (xs.map Decimal.literalText)) := by
    intro xs
    refine Plain.intercalate (Plain.ofList (by decide)) fun t ht => ?_
    obtain ⟨x, _, rfl⟩ := List.mem_map.1 ht
    exact Decimal.plain_literalText x
  exact ⟨htext _, htext _⟩

theorem stage_exists {name : String} (hname : Plain name) (words last p : Nat) {pass : FourierPass}
    (hpass : pass.Regular) (hpart : 2 * pass.part < sizeBound) {twiddles : String × String}
    (htwiddles : Plain twiddles.1 ∧ Plain twiddles.2) (caps : Capabilities) :
    ∃ s, stage name words last p pass twiddles caps = .ok s := by
  have hsigned : sizeBound = 2 * signedBound := by decide
  have hn : 0 < pass.n := by
    have := hpass.half_pos
    omega
  have hlength : pass.n ≤ pass.part := by
    rw [hpass.part_eq]
    exact Nat.le_mul_of_pos_right _ hpass.lines_pos
  have hlines : pass.lines ≤ pass.part := by
    rw [hpass.part_eq]
    exact Nat.le_mul_of_pos_left _ hn
  obtain ⟨w, hw⟩ := WorkGroup.covering_exists [pass.n / 2, pass.lines] caps (by
    intro e he
    simp only [List.mem_cons, List.not_mem_nil, or_false] at he
    omega)
  have hpassName : Plain s!"{name}_pass{p}" :=
    (hname.append (Plain.ofList (by decide))).append (plain_decimal p)
  obtain ⟨text, htext⟩ := source_eq_ok hpassName pass htwiddles
  exact ⟨_, bind_eq_ok_iff.2 ⟨text, htext, bind_eq_ok_iff.2 ⟨w, liftFault_eq_ok_iff.2 hw, rfl⟩⟩⟩

/-- A transform of a type that can be transformed is built, as long as its words fit a machine size. -/
theorem Transformable.build_exists {t : FieldType} (h : Transformable t)
    (hwords : t.words < sizeBound) (direction : Direction) (caps : Capabilities) :
    ∃ op, build direction t caps = .ok op := by
  have hname : Plain s!"fft_{direction.name}_{t.tag}" := by
    have hdirection : Plain direction.name := by
      cases direction
      · exact Plain.ofList (by decide)
      · exact Plain.ofList (by decide)
    exact (((Plain.ofList (by decide)).append hdirection).append
      (Plain.ofList (by decide))).append t.plain_tag
  have htwiddles : ∀ n,
      Plain (if n = t.columns then twiddleText direction t.columns
        else if t.rows = t.columns then twiddleText direction t.columns
        else twiddleText direction t.rows).1 ∧
      Plain (if n = t.columns then twiddleText direction t.columns
        else if t.rows = t.columns then twiddleText direction t.columns
        else twiddleText direction t.rows).2 := by
    intro n
    split
    · exact plain_twiddleText _ _
    · split
      · exact plain_twiddleText _ _
      · exact plain_twiddleText _ _
  obtain ⟨stages, hstages, -⟩ := mapM_exists_ok
    (f := fun pass : FourierPass × Nat => stage s!"fft_{direction.name}_{t.tag}" t.words
      ((FourierPass.plan t direction).length - 1) pass.2 pass.1
      (if pass.1.n = t.columns then twiddleText direction t.columns
        else if t.rows = t.columns then twiddleText direction t.columns
        else twiddleText direction t.rows) caps)
    (q := fun _ _ => True) (l := (FourierPass.plan t direction).zipIdx) (by
      intro pass hpass
      obtain ⟨hregular, hpart⟩ := h.regular (List.fst_mem_of_mem_zipIdx hpass)
      obtain ⟨s, hs⟩ := stage_exists hname t.words ((FourierPass.plan t direction).length - 1) pass.2
        hregular (hpart ▸ hwords) (htwiddles pass.1.n) caps
      exact ⟨s, hs, trivial⟩)
  exact ⟨_, bind_eq_ok_iff.2 ⟨t.words, liftFault_eq_ok_iff.2 (h.words?_eq_ok hwords),
    bind_eq_ok_iff.2 ⟨stages, hstages, rfl⟩⟩⟩

section Running

variable {words last : Nat} {caps : Capabilities} {size : Slot → Option Nat}

/-- Passes from some number on hand their words on up to the output. -/
theorem performs_from {α : Type} (ar : Arithmetic α) {passes : List FourierPass} {p : Nat}
    {stages : List Stage}
    (h : List.Forall₂ (IsPass words last caps) (passes.zipIdx p) stages)
    (hlast : p + passes.length = last + 1) (hne : passes ≠ [])
    (hregular : ∀ f ∈ passes, f.Regular ∧ words = 2 * f.part)
    (hsource : ∀ p ≤ last, size (sourceSlot p) = some words)
    (htarget : ∀ p ≤ last, size (targetSlot last p) = some words) {σ : Slot → Array α}
    (hσ : Sized size σ) :
    ∃ σ', Performs ar size stages σ σ' ∧
      FourierPass.Transforms ar passes (σ (sourceSlot p)) (σ' (.output 0)) := by
  induction passes generalizing p stages σ with
  | nil => exact absurd rfl hne
  | cons f rest ih =>
      rw [List.zipIdx_cons, List.forall₂_cons_left_iff] at h
      obtain ⟨s, stages, hs, hstages, rfl⟩ := h
      rw [List.length_cons] at hlast
      have hp : p ≤ last := by omega
      obtain ⟨hin, hapart⟩ := targetSlot_apart last p
      obtain ⟨hf, hwords⟩ := hregular f (by simp)
      have hbinds : s.Binds size [sourceSlot p] (targetSlot last p) :=
        hs.takes.binds (by simpa using hsource p hp) (htarget p hp) hin (by simpa using hapart)
      have hread : (σ (sourceSlot p)).size = 2 * f.part := by rw [hσ _ _ (hsource p hp), hwords]
      have hwrite : (σ (targetSlot last p)).size = 2 * f.part := by
        rw [hσ _ _ (htarget p hp), hwords]
      obtain ⟨b, hrun, hmaps⟩ := FourierPass.run_eq_ok hf hs.launch ar hread hwrite
      have hrun' : s.program.run ar s.workgroup ([sourceSlot p].map σ) (σ (targetSlot last p)) =
          .ok b := by
        rw [hs.program]
        exact hrun
      have hb : b.size = (σ (targetSlot last p)).size := by
        rw [hmaps.size, hwrite]
      cases rest with
      | nil =>
          cases hstages
          have hend : targetSlot last p = .output 0 := if_pos (by simp at hlast; omega)
          refine ⟨_, .cons hbinds hrun' (.nil _), .cons hmaps ?_⟩
          rw [hend, Function.update_self]
          exact .nil b
      | cons g rest =>
          rw [List.length_cons] at hlast
          obtain ⟨σ', hperforms, htransforms⟩ := ih hstages (by rw [List.length_cons]; omega)
            (by simp) (fun f hf => hregular f (by simp [hf])) (hσ.update (targetSlot last p) hb)
          rw [sourceSlot_succ last (by omega), Function.update_self] at htransforms
          exact ⟨σ', .cons hbinds hrun' hperforms, .cons hmaps htransforms⟩

/-- Passes from some number on are sound once the words they start from are there. -/
theorem sound_from {passes : List FourierPass} {p : Nat} {stages : List Stage} {known : List Slot}
    (h : List.Forall₂ (IsPass words last caps) (passes.zipIdx p) stages)
    (hlast : p + passes.length = last + 1) (hne : passes ≠ [])
    (hregular : ∀ f ∈ passes, f.Regular ∧ words = 2 * f.part)
    (hsource : ∀ p ≤ last, size (sourceSlot p) = some words)
    (htarget : ∀ p ≤ last, size (targetSlot last p) = some words)
    (hknown : (sourceSlot p).isInput = true ∨ sourceSlot p ∈ known) :
    SoundStages size known stages := by
  induction passes generalizing p stages known with
  | nil => exact absurd rfl hne
  | cons f rest ih =>
      rw [List.zipIdx_cons, List.forall₂_cons_left_iff] at h
      obtain ⟨s, stages, hs, hstages, rfl⟩ := h
      rw [List.length_cons] at hlast
      have hp : p ≤ last := by omega
      obtain ⟨hin, hapart⟩ := targetSlot_apart last p
      obtain ⟨hf, hwords⟩ := hregular f (by simp)
      have htotal : s.program.Total s.workgroup [words] words := by
        rw [hs.program, hwords]
        exact FourierPass.total hf hs.launch
      refine .cons_of_takes hs.takes (by simpa using hsource p hp) (htarget p hp) hin
        (by simpa using hapart) (by simpa using hknown) htotal ?_
      cases rest with
      | nil =>
          cases hstages
          have hend : targetSlot last p = .output 0 := if_pos (by simp at hlast; omega)
          exact .nil (by simp [hend])
      | cons g rest =>
          rw [List.length_cons] at hlast
          refine ih hstages (by rw [List.length_cons]; omega) (by simp)
            (fun f hf => hregular f (by simp [hf])) (.inr ?_)
          rw [sourceSlot_succ last (by omega)]
          exact List.mem_cons_self

end Running

end Synthesis.Fourier

end FieldCircuit
