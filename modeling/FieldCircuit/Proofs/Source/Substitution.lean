import FieldCircuit.Proofs.Source.Template

/-!
# Substitution

Filling the slots of a template one after another is described here without the functions that do it.
A slot is replaced wherever it stands, from left to right, and what has been filled in is not looked at
again before the next slot is filled. The text that results is refused if an identifier between
percent signs is left in it, and the first of these is the one that is named.

In a template whose slots can be told from the texts between them, and with values that have no percent
sign, the order of the slots does not matter: all of them are substituted at once, or the first
one without a value is named.
-/

namespace FieldCircuit.Template

/-- A text with every occurrence of a pattern replaced, from left to right: no occurrence ends before the
end of the one that is replaced next. -/
inductive Replaced (pattern value : List Char) : List Char → List Char → Prop
  | done {text : List Char} : ¬ pattern <:+: text → Replaced pattern value text text
  | next {before rest result : List Char} : ¬ pattern <:+: (before ++ pattern).dropLast →
      Replaced pattern value rest result →
        Replaced pattern value (before ++ pattern ++ rest) (before ++ value ++ result)

inductive Substituted : List (String × String) → List Char → List Char → Prop
  | nil (text : List Char) : Substituted [] text text
  | cons {name value : String} {slots : List (String × String)} {text next result : List Char} :
      Replaced (slot name.toList) value.toList text next → Substituted slots next result →
        Substituted ((name, value) :: slots) text result

/-- The name is the first identifier that stands between percent signs in a text. -/
structure FirstSlot (name text : List Char) : Prop where
  identifier : isIdentifier name = true
  first : ∃ before after, text = before ++ slot name ++ after ∧
    ∀ before' name' after', isIdentifier name' = true → text = before' ++ slot name' ++ after' →
      before.length ≤ before'.length

section Replacing

variable {name value text result : List Char}

theorem replaceFrom_cons {c : Char} (h : ¬ slot name <+: c :: text) :
    replaceFrom (slot name) value 0 (c :: text) = c :: replaceFrom (slot name) value 0 text := by
  rw [replaceFrom, if_neg fun hslot => h (List.isPrefixOf_iff_prefix.1 hslot)]

theorem replaceFrom_of_absent (h : ¬ slot name <:+: text) :
    replaceFrom (slot name) value 0 text = text := by
  induction text with
  | nil => rfl
  | cons c text ih =>
      rw [List.infix_cons_iff, not_or] at h
      rw [replaceFrom_cons h.1, ih h.2]

theorem shortened_begins (c : Char) (before rest : List Char) :
    c :: (before ++ slot name).dropLast <+: c :: (before ++ slot name ++ rest) :=
  List.cons_prefix_cons.2 ⟨rfl, List.IsPrefix.trans ( List.dropLast_prefix _) (List.prefix_append _ _)⟩

theorem replaceFrom_before {before rest : List Char}
    (h : ¬ slot name <:+: (before ++ slot name).dropLast) :
    replaceFrom (slot name) value 0 (before ++ slot name ++ rest) =
      before ++ value ++ replaceFrom (slot name) value 0 rest := by
  induction before with
  | nil => rw [List.nil_append, List.nil_append, replaceFrom_slot]
  | cons c before ih =>
      have hne : before ++ slot name ≠ [] := by simp [slot]
      rw [List.cons_append, List.dropLast_cons_of_ne_nil hne, List.infix_cons_iff, not_or] at h
      have hstart : ¬ slot name <+: c :: (before ++ slot name ++ rest) := by
        intro hslot
        refine h.1 (List.prefix_of_prefix_length_le hslot (shortened_begins c before rest) ?_)
        simp [slot]
      rw [List.cons_append, List.cons_append, replaceFrom_cons hstart, ih h.2]
      rfl

/-- A text stays replaced if a character is put before it with which no occurrence begins. -/
theorem Replaced.cons {c : Char} (h : Replaced (slot name) value text result)
    (hstart : ¬ slot name <+: c :: text) : Replaced (slot name) value (c :: text) (c :: result) := by
  cases h with
  | done hnone => exact .done fun hslot => (List.infix_cons_iff.1 hslot).elim hstart hnone
  | @next before rest result hfirst hrest =>
      have hne : before ++ slot name ≠ [] := by simp [slot]
      have hnext : ¬ slot name <:+: (c :: before ++ slot name).dropLast := by
        rw [List.cons_append, List.dropLast_cons_of_ne_nil hne]
        intro hslot
        exact (List.infix_cons_iff.1 hslot).elim
          (fun hhere => hstart (hhere.trans (shortened_begins c before rest))) hfirst
      exact .next hnext hrest

theorem replaced_replaceAll (name value text : List Char) :
    Replaced (slot name) value text (replaceAll (slot name) value text) := by
  induction hlength : text.length using Nat.strong_induction_on generalizing text with
  | _ n ih =>
      subst hlength
      by_cases hstart : slot name <+: text
      · obtain ⟨rest, rfl⟩ := hstart
        have hfirst : ¬ slot name <:+: ([] ++ slot name).dropLast := fun hslot => by
          have hle := hslot.length_le
          simp only [List.nil_append, List.length_dropLast, slot, List.length_append,
            List.length_cons, List.length_nil] at hle
          omega
        have hrest := ih rest.length (by simp only [slot, List.length_append, List.length_cons]; omega)
          rest rfl
        rw [replaceAll, replaceFrom_slot]
        exact .next hfirst hrest
      · cases text with
        | nil => exact .done fun hslot => hstart (List.infix_nil.1 hslot ▸ List.nil_prefix)
        | cons c text =>
            rw [replaceAll, replaceFrom_cons hstart]
            exact (ih text.length (Nat.lt_succ_self _) text rfl).cons hstart

/-- Replacing a slot everywhere is determined. -/
theorem replaced_iff :
    Replaced (slot name) value text result ↔ result = replaceAll (slot name) value text := by
  constructor
  · intro h
    induction h with
    | done hnone => exact (replaceFrom_of_absent hnone).symm
    | next hfirst _ ih => rw [replaceAll, replaceFrom_before hfirst, ih, replaceAll]
  · rintro rfl
    exact replaced_replaceAll name value text

end Replacing

def substituted (slots : List (String × String)) (text : List Char) : List Char :=
  slots.foldl (fun text s => replaceAll (slot s.1.toList) s.2.toList text) text

theorem substituted_iff {slots : List (String × String)} {text result : List Char} :
    Substituted slots text result ↔ result = substituted slots text := by
  induction slots generalizing text with
  | nil =>
      constructor
      · rintro ⟨⟩
        rfl
      · rintro rfl
        exact .nil _
  | cons s slots ih =>
      constructor
      · intro h
        cases h with
        | cons hreplaced hrest =>
            obtain rfl := replaced_iff.1 hreplaced
            exact ih.1 hrest
      · rintro rfl
        exact .cons (replaced_iff.2 rfl) (ih.2 rfl)

section Leftover

variable {name text : List Char}

theorem enclosed?_eq_some_iff :
    enclosed? text = some name ↔ isIdentifier name = true ∧ name ++ ['%'] <+: text := by
  constructor
  · intro h
    unfold enclosed? at h
    dsimp only at h
    split at h
    · rename_i hname
      obtain rfl := Option.some.inj h
      rw [Bool.and_eq_true, beq_iff_eq] at hname
      obtain ⟨rest, hrest⟩ := List.head?_eq_some_iff.1 hname.2
      refine ⟨hname.1, rest, ?_⟩
      rw [List.append_assoc, List.singleton_append, ← hrest, List.takeWhile_append_dropWhile]
    · cases h
  · rintro ⟨hname, rest, rfl⟩
    obtain ⟨htake, hdrop⟩ := takeWhile_append hname rest
    rw [List.append_assoc, List.singleton_append, enclosed?, htake, hdrop, hname]
    rfl

theorem slot_infix_cons {c : Char} : slot name <:+: c :: text ↔
    (c = '%' ∧ name ++ ['%'] <+: text) ∨ slot name <:+: text := by
  have hslot : slot name = '%' :: (name ++ ['%']) := rfl
  rw [List.infix_cons_iff, hslot, List.cons_prefix_cons, eq_comm (a := c)]

theorem leftover?_eq_none_iff :
    leftover? text = none ↔ ∀ name, isIdentifier name = true → ¬ slot name <:+: text := by
  induction text with
  | nil =>
      refine ⟨fun _ name _ hslot => ?_, fun _ => rfl⟩
      have hle := hslot.length_le
      simp [slot] at hle
  | cons c text ih =>
      have hhere : enclosed? text = none ↔
          ∀ name, isIdentifier name = true → ¬ name ++ ['%'] <+: text := by
        rw [Option.eq_none_iff_forall_ne_some]
        exact forall_congr' fun name => by rw [Ne, enclosed?_eq_some_iff, not_and]
      simp only [slot_infix_cons, not_or, not_and, forall_and]
      rw [leftover?, ← ih]
      by_cases hc : c = '%'
      · rw [if_pos hc, Option.or_eq_none_iff, hhere]
        simp only [hc, true_implies]
      · rw [if_neg hc]
        simp only [hc, false_implies, implies_true, true_and]

theorem firstSlot_of_leftover? (h : leftover? text = some name) : FirstSlot name text := by
  induction text with
  | nil => cases h
  | cons c text ih =>
      rw [leftover?] at h
      by_cases hc : c = '%'
      · subst hc
        rw [if_pos rfl, Option.or_eq_some_iff] at h
        rcases h with hhere | ⟨hnone, hlater⟩
        · obtain ⟨hname, rest, rfl⟩ := enclosed?_eq_some_iff.1 hhere
          exact ⟨hname, [], rest, rfl, fun before' _ _ _ _ => Nat.zero_le _⟩
        · obtain ⟨hname, before, after, rfl, hfirst⟩ := ih hlater
          refine ⟨hname, '%' :: before, after, rfl, fun before' name' after' hname' heq => ?_⟩
          cases before' with
          | nil =>
              have hstart : name' ++ ['%'] <+: before ++ slot name ++ after :=
                ⟨after', (List.cons.inj heq).2.symm⟩
              rw [enclosed?_eq_some_iff.2 ⟨hname', hstart⟩] at hnone
              cases hnone
          | cons d before' =>
              exact Nat.succ_le_succ (hfirst before' name' after' hname' (List.cons.inj heq).2)
      · rw [if_neg hc] at h
        obtain ⟨hname, before, after, rfl, hfirst⟩ := ih h
        refine ⟨hname, c :: before, after, rfl, fun before' name' after' hname' heq => ?_⟩
        cases before' with
        | nil => exact absurd (List.cons.inj heq).1 hc
        | cons d before' =>
            exact Nat.succ_le_succ (hfirst before' name' after' hname' (List.cons.inj heq).2)

theorem leftover?_slot (h : isIdentifier name = true) (rest : List Char) :
    leftover? (slot name ++ rest) = some name := by
  have hhere : enclosed? (name ++ ['%'] ++ rest) = some name :=
    enclosed?_eq_some_iff.2 ⟨h, List.prefix_append _ _⟩
  change leftover? ('%' :: (name ++ ['%'] ++ rest)) = _
  rw [leftover?, if_pos rfl, hhere, Option.some_or]

end Leftover

section Values

variable {values : List Char → Option (List Char)} {slots : List (String × String)} {name : List Char}

theorem filled_eq_flatMap (values : List Char → Option (List Char))
    (segments : List (List Char × List Char)) :
    filled values segments = segments.flatMap fun s => (values s.1).getD (slot s.1) ++ s.2 := by
  induction segments with
  | nil => rfl
  | cons s segments ih => rw [filled, ih, List.flatMap_cons]

theorem valuesFrom_cons (s : String × String) :
    valuesFrom values (s :: slots) = valuesFrom (extended values s.1.toList s.2.toList) slots := rfl

theorem valuesFrom_of_some {v : List Char} (h : values name = some v) :
    valuesFrom values slots name = some v := by
  induction slots generalizing values with
  | nil => exact h
  | cons s slots ih =>
      rw [valuesFrom_cons]
      exact ih (by rw [extended, h, Option.some_or])

theorem valuesFrom_of_notMem (h : name ∉ slots.map fun s => s.1.toList) :
    valuesFrom values slots name = values name := by
  induction slots generalizing values with
  | nil => rfl
  | cons s slots ih =>
      rw [List.map_cons, List.mem_cons, not_or] at h
      rw [valuesFrom_cons, ih h.2, extended, if_neg h.1, Option.or_none]

theorem valuesFrom_of_mem {s : String × String} (hnodup : (slots.map fun s => s.1.toList).Nodup)
    (hs : s ∈ slots) (h : values s.1.toList = none) :
    valuesFrom values slots s.1.toList = some s.2.toList := by
  induction slots generalizing values with
  | nil => cases hs
  | cons t slots ih =>
      rw [List.map_cons, List.nodup_cons] at hnodup
      rw [valuesFrom_cons]
      rcases List.mem_cons.1 hs with rfl | hs
      · refine valuesFrom_of_some ?_
        rw [extended, h, if_pos rfl, Option.none_or]
      · have hne : s.1.toList ≠ t.1.toList := fun heq =>
          hnodup.1 (heq ▸ List.mem_map_of_mem hs)
        refine ih hnodup.2 hs ?_
        rw [extended, h, if_neg hne, Option.none_or]

theorem Fillable.free (hslots : Fillable slots) {name v : List Char}
    (hv : valuesFrom (fun _ => none) slots name = some v) : '%' ∉ v :=
  valuesFrom_free hslots.values (fun _ _ hnone => by cases hnone) hv

theorem leftover?_filled (hvalues : ∀ name v, values name = some v → '%' ∉ v)
    {before after : List (List Char × List Char)} {text : List Char}
    (h : Readable (before ++ (name, text) :: after))
    (hbefore : ∀ s ∈ before, (values s.1).isSome = true) (hname : values name = none) :
    leftover? (filled values (before ++ (name, text) :: after)) = some name := by
  induction before with
  | nil =>
      rw [List.nil_append, filled_cons, hname, Option.getD_none]
      exact leftover?_slot (h.names _ List.mem_cons_self) _
  | cons s before ih =>
      obtain ⟨other, between⟩ := s
      obtain ⟨v, hv⟩ := Option.isSome_iff_exists.1 (hbefore _ List.mem_cons_self)
      have hbetween : '%' ∉ between := h.texts _ List.mem_cons_self
      rw [List.cons_append, filled_cons, hv, Option.getD_some, leftover?_append (hvalues other v hv),
        leftover?_append hbetween]
      exact ih h.tail fun s hs => hbefore s (List.mem_cons_of_mem _ hs)

end Values

theorem fill_eq (template : String) (slots : List (String × String)) :
    fill template slots = match leftover? (substituted slots template.toList) with
      | some name => .error (.unresolvedPlaceholder (String.ofList name))
      | none => .ok (String.ofList (substituted slots template.toList)) := rfl

section Readable

variable {opening : List Char} {segments : List (List Char × List Char)}
  {slots : List (String × String)}

/-- The slots of a readable template are filled all at once. -/
theorem substituted_readable (hopening : '%' ∉ opening) (h : Readable segments)
    (hslots : Fillable slots) :
    substituted slots (opening ++ segments.flatMap fun s => slot s.1 ++ s.2) =
      opening ++ filled (valuesFrom (fun _ => none) slots) segments := by
  have hnone : filled (fun _ => none) segments = segments.flatMap fun s => slot s.1 ++ s.2 :=
    filled_eq_flatMap _ segments
  rw [← hnone]
  exact foldl_replaceAll hslots (fun _ _ => rfl) (fun _ _ hv => by cases hv) hopening h

/-- If every slot of a readable template has a value, the values are substituted for them all at once. -/
theorem fill_readable (hopening : '%' ∉ opening) (h : Readable segments) (hslots : Fillable slots)
    {values : List Char → List Char}
    (hvalues : ∀ s ∈ segments, (String.ofList s.1, String.ofList (values s.1)) ∈ slots) :
    fill (String.ofList (opening ++ segments.flatMap fun s => slot s.1 ++ s.2)) slots =
      .ok (String.ofList (opening ++ segments.flatMap fun s => values s.1 ++ s.2)) := by
  have hvalue : ∀ s ∈ segments, valuesFrom (fun _ => none) slots s.1 = some (values s.1) := by
    intro s hs
    have hmem : valuesFrom (fun _ => none) slots (String.ofList s.1).toList =
        some (String.ofList (values s.1)).toList :=
      valuesFrom_of_mem hslots.nodup (hvalues s hs) rfl
    rwa [String.toList_ofList, String.toList_ofList] at hmem
  have hfilled : filled (valuesFrom (fun _ => none) slots) segments =
      segments.flatMap fun s => values s.1 ++ s.2 := by
    rw [filled_eq_flatMap]
    exact List.flatMap_congr fun s hs => by rw [hvalue s hs, Option.getD_some]
  have hfree : '%' ∉ filled (valuesFrom (fun _ => none) slots) segments :=
    percent_not_mem_filled (fun _ _ => hslots.free) h fun s hs => by
      rw [hvalue s hs, Option.isSome_some]
  rw [fill_eq, String.toList_ofList, substituted_readable hopening h hslots, leftover?_append hopening,
    leftover?_eq_none hfree, hfilled]

/-- If a slot of a readable template has no value, the first such slot is named. -/
theorem fill_readable_error (hopening : '%' ∉ opening) {before after : List (List Char × List Char)}
    {name text : List Char} (h : Readable (before ++ (name, text) :: after)) (hslots : Fillable slots)
    (hbefore : ∀ s ∈ before, String.ofList s.1 ∈ slots.map Prod.fst)
    (hname : String.ofList name ∉ slots.map Prod.fst) :
    fill (String.ofList (opening ++
        (before ++ (name, text) :: after).flatMap fun s => slot s.1 ++ s.2)) slots =
      .error (.unresolvedPlaceholder (String.ofList name)) := by
  have hvalue : ∀ s ∈ before, (valuesFrom (fun _ => none) slots s.1).isSome = true := by
    intro s hs
    obtain ⟨t, ht, heq⟩ := List.mem_map.1 (hbefore s hs)
    refine valuesFrom_isSome (.inr (List.mem_map.2 ⟨t, ht, ?_⟩))
    rw [heq, String.toList_ofList]
  have hnone : valuesFrom (fun _ => none) slots name = none := by
    refine valuesFrom_of_notMem fun hmem => hname ?_
    obtain ⟨t, ht, heq⟩ := List.mem_map.1 hmem
    exact List.mem_map.2 ⟨t, ht, by rw [← heq, String.ofList_toList]⟩
  have hleft : leftover? (filled (valuesFrom (fun _ => none) slots)
      (before ++ (name, text) :: after)) = some name :=
    leftover?_filled (fun _ _ => hslots.free) h hvalue hnone
  rw [fill_eq, String.toList_ofList, substituted_readable hopening h hslots, leftover?_append hopening,
    hleft]

end Readable

/-- A template is filled exactly if no identifier is left between percent signs when its slots have been
substituted, and else the first one is named. For a readable template that means: all values at once, or
the first slot without a value. -/
theorem fill_substitutes :
    (∀ (template : String) (slots : List (String × String)), ∃ text,
      (∀ result, Substituted slots template.toList result ↔ result = text) ∧
      ((∀ name, isIdentifier name = true → ¬ slot name <:+: text) ∧
          fill template slots = .ok (String.ofList text) ∨
        ∃ name, FirstSlot name text ∧
          fill template slots = .error (.unresolvedPlaceholder (String.ofList name)))) ∧
    ∀ (opening : List Char) (segments : List (List Char × List Char)) (slots : List (String × String)),
      '%' ∉ opening → Readable segments → Fillable slots →
        (∀ values : List Char → List Char,
          (∀ s ∈ segments, (String.ofList s.1, String.ofList (values s.1)) ∈ slots) →
            fill (String.ofList (opening ++ segments.flatMap fun s => slot s.1 ++ s.2)) slots =
              .ok (String.ofList (opening ++ segments.flatMap fun s => values s.1 ++ s.2))) ∧
        ∀ before name text after, segments = before ++ (name, text) :: after →
          (∀ s ∈ before, String.ofList s.1 ∈ slots.map Prod.fst) →
          String.ofList name ∉ slots.map Prod.fst →
            fill (String.ofList (opening ++ segments.flatMap fun s => slot s.1 ++ s.2)) slots =
              .error (.unresolvedPlaceholder (String.ofList name)) := by
  refine ⟨fun template slots => ?_, fun opening segments slots hopening h hslots => ⟨?_, ?_⟩⟩
  · refine ⟨substituted slots template.toList, fun result => substituted_iff, ?_⟩
    rw [fill_eq]
    cases hleft : leftover? (substituted slots template.toList) with
    | none => exact .inl ⟨leftover?_eq_none_iff.1 hleft, rfl⟩
    | some name => exact .inr ⟨name, firstSlot_of_leftover? hleft, rfl⟩
  · exact fun values hvalues => fill_readable hopening h hslots hvalues
  · rintro before name text after rfl hbefore hname
    exact fill_readable_error hopening h hslots hbefore hname

/-- A sum of two slots, with values for both in another order, and with a value for the first only. -/
theorem fill_substitutes_sum :
    fill "v = %a% + %b%;" [("b", "2"), ("a", "1")] = .ok "v = 1 + 2;" ∧
      fill "v = %a% + %b%;" [("c", "2"), ("a", "1")] = .error (.unresolvedPlaceholder "b") := by
  let segments : List (List Char × List Char) := [(['a'], [' ', '+', ' ']), (['b'], [';'])]
  have hsegments : Readable segments := ⟨by decide, by decide, by decide⟩
  have hopening : '%' ∉ ['v', ' ', '=', ' '] := by decide
  have hboth : Fillable [("b", "2"), ("a", "1")] := ⟨by decide, by decide, by decide⟩
  have hfirst : Fillable [("c", "2"), ("a", "1")] := ⟨by decide, by decide, by decide⟩
  refine ⟨(fill_substitutes.2 _ segments _ hopening hsegments hboth).1
      (fun name => if name = ['a'] then ['1'] else ['2']) (by decide), ?_⟩
  exact (fill_substitutes.2 _ segments _ hopening hsegments hfirst).2
    [(['a'], [' ', '+', ' '])] ['b'] [';'] [] rfl (by decide) (by decide)

end FieldCircuit.Template
