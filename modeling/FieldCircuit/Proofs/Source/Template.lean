import FieldCircuit.Source.Template
import Mathlib.Data.List.Basic
import Mathlib.Data.List.TakeWhile

/-!
# Filled templates

A template is a text with slots in it. Where the texts between slots can be told from identifiers and
no value has a percent sign, filling the slots one after another is filling them all at once, and no
slot is left if each one has a value. `holes` reads a template, so that the conditions can be
checked by running them.
-/

namespace FieldCircuit.Template

/-- Slots that may have been filled, each with the text after it. -/
def filled (values : List Char → Option (List Char)) : List (List Char × List Char) → List Char
  | [] => []
  | (name, text) :: rest => (values name).getD (slot name) ++ text ++ filled values rest

theorem filled_cons (values : List Char → Option (List Char)) (name text : List Char)
    (rest : List (List Char × List Char)) :
    filled values ((name, text) :: rest) =
      (values name).getD (slot name) ++ (text ++ filled values rest) := by
  rw [filled, List.append_assoc]

/-- Whether a character can end an identifier without a percent sign. -/
def separates (text : List Char) : Bool := text.any (!isWordChar ·)

/-- The texts between slots can be told from identifiers. -/
def separated : List (List Char × List Char) → Bool
  | [] => true
  | [_] => true
  | (_, text) :: next :: rest => separates text && separated (next :: rest)

/-- The names are identifiers, and the texts have no percent sign and can be told from names. -/
structure Readable (segments : List (List Char × List Char)) : Prop where
  names : ∀ s ∈ segments, isIdentifier s.1 = true
  texts : ∀ s ∈ segments, '%' ∉ s.2
  separated : separated segments = true

theorem Readable.tail {s : List Char × List Char} {rest : List (List Char × List Char)}
    (h : Readable (s :: rest)) : Readable rest where
  names := fun x hx => h.names x (by simp [hx])
  texts := fun x hx => h.texts x (by simp [hx])
  separated := by
    cases rest with
    | nil => rfl
    | cons next rest =>
        have hsep := h.separated
        obtain ⟨_, _⟩ := s
        rw [Template.separated, Bool.and_eq_true] at hsep
        exact hsep.2

theorem isWordChar_of_identifier {name : List Char} (h : isIdentifier name = true) {c : Char}
    (hc : c ∈ name) : isWordChar c = true := by
  cases name with
  | nil => cases hc
  | cons d rest =>
      simp only [isIdentifier, Bool.and_eq_true, List.all_eq_true] at h
      rcases List.mem_cons.1 hc with rfl | hc
      · exact h.1.1
      · exact h.2 c hc

theorem percent_not_mem {name : List Char} (h : isIdentifier name = true) : '%' ∉ name := fun hc =>
  absurd (isWordChar_of_identifier h hc) (by decide)

theorem takeWhile_append {name : List Char} (h : isIdentifier name = true) (rest : List Char) :
    (name ++ '%' :: rest).takeWhile isWordChar = name ∧
      (name ++ '%' :: rest).dropWhile isWordChar = '%' :: rest := by
  have hword : ∀ c ∈ name, isWordChar c = true := fun c hc => isWordChar_of_identifier h hc
  have hpercent : isWordChar '%' = false := by decide
  constructor
  · rw [List.takeWhile_append_of_pos hword, List.takeWhile_cons, hpercent]
    simp
  · rw [List.dropWhile_append_of_pos hword, List.dropWhile_cons, hpercent]
    simp

/-- A slot stands at the beginning of a text only if its name comes before the first percent sign. -/
theorem slot_isPrefixOf {name text : List Char} (h : isIdentifier name = true)
    (hstart : (slot name).isPrefixOf ('%' :: text) = true) :
    text.takeWhile isWordChar = name ∧ (text.dropWhile isWordChar).head? = some '%' := by
  obtain ⟨rest, hrest⟩ := List.isPrefixOf_iff_prefix.1 hstart
  have htext : text = name ++ '%' :: rest := by
    simpa [slot] using hrest.symm
  obtain ⟨htake, hdrop⟩ := takeWhile_append h rest
  rw [htext, htake, hdrop]
  exact ⟨rfl, rfl⟩

theorem Readable.head_dropWhile {name text : List Char} {rest : List (List Char × List Char)}
    (h : Readable ((name, text) :: rest)) (values : List Char → Option (List Char)) :
    ((text ++ filled values rest).dropWhile isWordChar).head? ≠ some '%' := by
  have hfree : '%' ∉ text := h.texts _ List.mem_cons_self
  have hmem : ∀ l : List Char, '%' ∉ l → (l.dropWhile isWordChar).head? ≠ some '%' := by
    intro l hl heq
    exact hl (List.dropWhile_subset _ (List.mem_of_head? heq))
  cases rest with
  | nil =>
      rw [filled, List.append_nil]
      exact hmem text hfree
  | cons next rest =>
      have hsep := h.separated
      rw [Template.separated, Bool.and_eq_true, separates, List.any_eq_true] at hsep
      obtain ⟨⟨c, hc, hword⟩, _⟩ := hsep
      have hne : text.dropWhile isWordChar ≠ [] := by
        intro hnil
        rw [(List.dropWhile_eq_nil_iff.1 hnil) c hc] at hword
        cases hword
      have hempty : (text.dropWhile isWordChar).isEmpty = false := by
        simpa using hne
      rw [List.dropWhile_append, hempty]
      simp only [Bool.false_eq_true, if_false]
      rw [List.head?_append_of_ne_nil _ hne]
      exact hmem text hfree

section Replacing

variable {name value : List Char}

theorem replaceFrom_append {text : List Char} (h : '%' ∉ text) (rest : List Char) :
    replaceFrom (slot name) value 0 (text ++ rest) =
      text ++ replaceFrom (slot name) value 0 rest := by
  induction text with
  | nil => rfl
  | cons c text ih =>
      rw [List.mem_cons, not_or] at h
      have hstart : (slot name).isPrefixOf (c :: (text ++ rest)) = false := by
        simp [slot, List.isPrefixOf, h.1]
      rw [List.cons_append, replaceFrom, hstart, if_neg (by simp), ih h.2, List.cons_append]

theorem replaceFrom_skip (text rest : List Char) :
    replaceFrom (slot name) value text.length (text ++ rest) =
      replaceFrom (slot name) value 0 rest := by
  induction text with
  | nil => rfl
  | cons c text ih => rw [List.length_cons, List.cons_append, replaceFrom, ih]

theorem replaceFrom_slot (rest : List Char) :
    replaceFrom (slot name) value 0 (slot name ++ rest) =
      value ++ replaceFrom (slot name) value 0 rest := by
  have hstart : (slot name).isPrefixOf ('%' :: (name ++ ['%'] ++ rest)) = true :=
    List.isPrefixOf_iff_prefix.2 ⟨rest, rfl⟩
  have hlength : (slot name).length - 1 = (name ++ ['%']).length := rfl
  change replaceFrom (slot name) value 0 ('%' :: (name ++ ['%'] ++ rest)) = _
  rw [replaceFrom, hstart, if_pos rfl, hlength, replaceFrom_skip]

/-- Another slot is passed over, unless its end makes another slot with what follows. -/
theorem replaceFrom_other {other rest : List Char} (hname : isIdentifier name = true)
    (hother : isIdentifier other = true) (hne : other ≠ name)
    (hrest : (rest.dropWhile isWordChar).head? ≠ some '%') :
    replaceFrom (slot name) value 0 (slot other ++ rest) =
      slot other ++ replaceFrom (slot name) value 0 rest := by
  have hstart : ∀ text, (text.takeWhile isWordChar = name →
      (text.dropWhile isWordChar).head? ≠ some '%') →
      (slot name).isPrefixOf ('%' :: text) = false := by
    intro text htext
    by_contra hslot
    rw [Bool.not_eq_false] at hslot
    obtain ⟨htake, hdrop⟩ := slot_isPrefixOf hname hslot
    exact htext htake hdrop
  have hopen : (slot name).isPrefixOf ('%' :: (other ++ '%' :: rest)) = false :=
    hstart _ fun htake => absurd ((takeWhile_append hother rest).1.symm.trans htake) hne
  have hclose : (slot name).isPrefixOf ('%' :: rest) = false := hstart rest fun _ => hrest
  have htext : slot other ++ rest = '%' :: (other ++ '%' :: rest) := by simp [slot]
  rw [htext, replaceFrom, hopen, if_neg (by simp), replaceFrom_append (percent_not_mem hother),
    replaceFrom, hclose, if_neg (by simp)]
  simp [slot]

end Replacing

def extended (values : List Char → Option (List Char)) (name value : List Char) :
    List Char → Option (List Char) :=
  fun other => (values other).or (if other = name then some value else none)

theorem extended_free {values : List Char → Option (List Char)}
    (hvalues : ∀ name v, values name = some v → '%' ∉ v) {name value : List Char}
    (hvalue : '%' ∉ value) (other v : List Char) (h : extended values name value other = some v) :
    '%' ∉ v := by
  rw [extended, Option.or_eq_some_iff] at h
  rcases h with h | ⟨_, h⟩
  · exact hvalues other v h
  · split at h
    · rw [← Option.some.inj h]
      exact hvalue
    · cases h

/-- Replacing one slot in a readable template gives it a value and leaves the others alone. -/
theorem replaceAll_filled {values : List Char → Option (List Char)} {name value : List Char}
    (hname : isIdentifier name = true) (hnone : values name = none)
    (hvalues : ∀ other v, values other = some v → '%' ∉ v) {text : List Char} (htext : '%' ∉ text)
    {segments : List (List Char × List Char)} (h : Readable segments) :
    replaceAll (slot name) value (text ++ filled values segments) =
      text ++ filled (extended values name value) segments := by
  induction segments generalizing text with
  | nil =>
      rw [filled, filled, replaceAll, replaceFrom_append htext]
      rfl
  | cons s rest ih =>
      obtain ⟨other, after⟩ := s
      have hafter : '%' ∉ after := h.texts _ List.mem_cons_self
      have hother : isIdentifier other = true := h.names _ List.mem_cons_self
      have hrest : replaceFrom (slot name) value 0 (after ++ filled values rest) =
          after ++ filled (extended values name value) rest := ih hafter h.tail
      rw [replaceAll, replaceFrom_append htext, filled_cons, filled_cons]
      congr 1
      cases hv : values other with
      | some v =>
          rw [Option.getD_some, replaceFrom_append (hvalues other v hv), hrest, extended, hv]
          rfl
      | none =>
          rw [Option.getD_none]
          by_cases heq : other = name
          · subst heq
            rw [replaceFrom_slot, hrest, extended, hv]
            simp
          · rw [replaceFrom_other hname hother heq (h.head_dropWhile values), hrest, extended, hv]
            simp [heq]

/-- The values of slots, of which the first counts. -/
def valuesFrom (values : List Char → Option (List Char)) (slots : List (String × String)) :
    List Char → Option (List Char) :=
  slots.foldl (fun values s => extended values s.1.toList s.2.toList) values

theorem valuesFrom_isSome {values : List Char → Option (List Char)} {slots : List (String × String)}
    {name : List Char}
    (h : (values name).isSome = true ∨ name ∈ slots.map fun s => s.1.toList) :
    (valuesFrom values slots name).isSome = true := by
  induction slots generalizing values with
  | nil => simpa [valuesFrom] using h
  | cons s slots ih =>
      refine ih ?_
      rcases h with h | h
      · obtain ⟨v, hv⟩ := Option.isSome_iff_exists.1 h
        exact .inl (by simp [extended, hv])
      · rw [List.map_cons, List.mem_cons] at h
        rcases h with rfl | h
        · left
          cases hv : values s.1.toList <;> simp [extended, hv]
        · exact .inr h

/-- The slots with their names apart, all identifiers, and values without percent signs. -/
structure Fillable (slots : List (String × String)) : Prop where
  nodup : (slots.map fun s => s.1.toList).Nodup
  names : ∀ name ∈ slots.map fun s => s.1.toList, isIdentifier name = true
  values : ∀ s ∈ slots, '%' ∉ s.2.toList

/-- Filling the slots one after another fills them all at once. -/
theorem foldl_replaceAll {slots : List (String × String)} (hslots : Fillable slots)
    {values : List Char → Option (List Char)}
    (hfresh : ∀ s ∈ slots, values s.1.toList = none)
    (hvalues : ∀ other v, values other = some v → '%' ∉ v) {text : List Char} (htext : '%' ∉ text)
    {segments : List (List Char × List Char)} (h : Readable segments) :
    slots.foldl (fun text s => replaceAll (slot s.1.toList) s.2.toList text)
        (text ++ filled values segments) =
      text ++ filled (valuesFrom values slots) segments := by
  induction slots generalizing values with
  | nil => rfl
  | cons s slots ih =>
      obtain ⟨hnodup, hnames, hfree⟩ := hslots
      rw [List.map_cons, List.nodup_cons] at hnodup
      rw [List.foldl_cons, replaceAll_filled (hnames _ (by simp)) (hfresh s (by simp)) hvalues htext h]
      refine ih ⟨hnodup.2, fun x hx => hnames x (List.mem_cons_of_mem _ hx),
        fun x hx => hfree x (by simp [hx])⟩ ?_ ?_
      · intro x hx
        have hne : x.1.toList ≠ s.1.toList := fun heq =>
          hnodup.1 (List.mem_map.2 ⟨x, hx, heq⟩)
        rw [extended, hfresh x (by simp [hx]), if_neg hne]
        rfl
      · exact extended_free hvalues (hfree s (by simp))

theorem leftover?_append {text : List Char} (h : '%' ∉ text) (rest : List Char) :
    leftover? (text ++ rest) = leftover? rest := by
  induction text with
  | nil => rfl
  | cons c text ih =>
      rw [List.mem_cons, not_or] at h
      rw [List.cons_append, leftover?, if_neg (Ne.symm h.1), ih h.2]

theorem leftover?_eq_none {text : List Char} (h : '%' ∉ text) : leftover? text = none := by
  have hpassed := leftover?_append h []
  rwa [List.append_nil] at hpassed

theorem valuesFrom_free {slots : List (String × String)} (hfree : ∀ s ∈ slots, '%' ∉ s.2.toList)
    {values : List Char → Option (List Char)}
    (hvalues : ∀ name v, values name = some v → '%' ∉ v) {name v : List Char}
    (h : valuesFrom values slots name = some v) : '%' ∉ v := by
  induction slots generalizing values with
  | nil => exact hvalues name v h
  | cons s slots ih =>
      exact ih (fun x hx => hfree x (by simp [hx]))
        (extended_free hvalues (hfree s (by simp))) h

theorem percent_not_mem_filled {values : List Char → Option (List Char)}
    (hvalues : ∀ name v, values name = some v → '%' ∉ v)
    {segments : List (List Char × List Char)} (h : Readable segments)
    (hall : ∀ s ∈ segments, (values s.1).isSome = true) : '%' ∉ filled values segments := by
  induction segments with
  | nil => simp [filled]
  | cons s rest ih =>
      obtain ⟨name, text⟩ := s
      obtain ⟨v, hv⟩ := Option.isSome_iff_exists.1 (hall _ List.mem_cons_self)
      have hrest := ih h.tail fun x hx => hall x (by simp [hx])
      have htext : '%' ∉ text := h.texts _ List.mem_cons_self
      rw [filled_cons, hv, Option.getD_some, List.mem_append, List.mem_append, not_or, not_or]
      exact ⟨hvalues name v hv, htext, hrest⟩

/-- The text before the first percent sign, and the texts after each. -/
def pieces : List Char → List Char × List (List Char)
  | [] => ([], [])
  | c :: rest =>
    let (first, others) := pieces rest
    if c = '%' then ([], first :: others) else (c :: first, others)

theorem pieces_spec (text : List Char) :
    text = (pieces text).1 ++ (pieces text).2.flatMap ('%' :: ·) ∧
      '%' ∉ (pieces text).1 ∧ ∀ t ∈ (pieces text).2, '%' ∉ t := by
  induction text with
  | nil => simp [pieces]
  | cons c rest ih =>
      obtain ⟨heq, hfirst, hothers⟩ := ih
      rw [pieces]
      by_cases hc : c = '%'
      · simp only [if_pos hc]
        refine ⟨?_, by simp, ?_⟩
        · rw [List.nil_append, List.flatMap_cons, List.cons_append, ← heq, hc]
        · intro t ht
          rcases List.mem_cons.1 ht with rfl | ht
          · exact hfirst
          · exact hothers t ht
      · simp only [if_neg hc]
        refine ⟨?_, ?_, hothers⟩
        · rw [List.cons_append, ← heq]
        · simp [Ne.symm hc, hfirst]

def holes : List (List Char) → Option (List (List Char × List Char))
  | [] => some []
  | [_] => none
  | name :: text :: rest => (holes rest).map ((name, text) :: ·)

theorem holes_eq_some {texts : List (List Char)} {segments : List (List Char × List Char)}
    (h : holes texts = some segments) :
    texts.flatMap ('%' :: ·) = filled (fun _ => none) segments ∧ ∀ s ∈ segments, s.2 ∈ texts := by
  fun_induction holes texts generalizing segments with
  | case1 =>
      rw [← Option.some.inj h]
      exact ⟨rfl, by simp⟩
  | case2 => cases h
  | case3 name text rest ih =>
      obtain ⟨others, hothers, rfl⟩ := Option.map_eq_some_iff.1 h
      obtain ⟨heq, hmem⟩ := ih hothers
      refine ⟨?_, ?_⟩
      · rw [List.flatMap_cons, List.flatMap_cons, heq, filled_cons]
        simp [slot]
      · intro s hs
        rcases List.mem_cons.1 hs with rfl | hs
        · simp
        · simp [hmem s hs]

/-- Whether a text is a readable template whose slots have these names. -/
def covered (names : List (List Char)) (text : List Char) : Bool :=
  match holes (pieces text).2 with
  | some segments =>
    segments.all (fun s => isIdentifier s.1 && names.contains s.1) && separated segments
  | none => false

/-- A readable template is filled by slots that cover it. -/
theorem fill_eq_ok {template : String} {slots : List (String × String)} (hslots : Fillable slots)
    (h : covered (slots.map fun s => s.1.toList) template.toList = true) :
    ∃ text, fill template slots = .ok text := by
  unfold covered at h
  split at h
  · rename_i segments hsegments
    obtain ⟨htext, hfirst, hothers⟩ := pieces_spec template.toList
    obtain ⟨heq, hmem⟩ := holes_eq_some hsegments
    rw [heq] at htext
    simp only [Bool.and_eq_true, List.all_eq_true, List.contains_iff_mem] at h
    have hreadable : Readable segments :=
      ⟨fun s hs => (h.1 s hs).1, fun s hs => hothers _ (hmem s hs), h.2⟩
    have hnone : ∀ (name v : List Char), (none : Option (List Char)) = some v → '%' ∉ v :=
      fun _ _ hv => by cases hv
    have hfilled := foldl_replaceAll hslots (fun _ _ => rfl) hnone hfirst hreadable
    have hfree : '%' ∉ (pieces template.toList).1 ++
        filled (valuesFrom (fun _ => none) slots) segments := by
      rw [List.mem_append, not_or]
      refine ⟨hfirst, percent_not_mem_filled (fun name v hv =>
        valuesFrom_free hslots.values hnone hv) hreadable fun s hs => ?_⟩
      exact valuesFrom_isSome (.inr (h.1 s hs).2)
    rw [← htext] at hfilled
    refine ⟨String.ofList ((pieces template.toList).1 ++
      filled (valuesFrom (fun _ => none) slots) segments), ?_⟩
    simp only [fill]
    rw [hfilled, leftover?_eq_none hfree]
  · cases h

end FieldCircuit.Template
