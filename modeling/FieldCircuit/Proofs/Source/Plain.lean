import FieldCircuit.Kernel.Synthesis
import FieldCircuit.Proofs.Outcome
import FieldCircuit.Proofs.Source.Template

/-!
# Texts without percent signs

What stands in the slots of kernel templates: numbers, literals, names of kernels and expressions. None
of these texts has a percent sign, so that every template that is covered by its slots can be filled,
whatever the numbers are.
-/

namespace FieldCircuit

def Plain (s : String) : Prop := '%' ∉ s.toList

namespace Plain

theorem ofList {l : List Char} (h : '%' ∉ l) : Plain (String.ofList l) := by
  rwa [Plain, String.toList_ofList]

theorem append {s t : String} (hs : Plain s) (ht : Plain t) : Plain (s ++ t) := by
  rw [Plain, String.toList_append, List.mem_append, not_or]
  exact ⟨hs, ht⟩

theorem intercalate {s : String} (hs : Plain s) {l : List String} (hl : ∀ t ∈ l, Plain t) :
    Plain (s.intercalate l) := by
  induction l with
  | nil =>
      rw [String.intercalate_nil]
      exact ofList (by decide)
  | cons t l ih =>
      cases l with
      | nil =>
          rw [String.intercalate_singleton]
          exact hl t (by simp)
      | cons u l =>
          rw [String.intercalate_cons_cons]
          exact ((hl t (by simp)).append hs).append (ih fun v hv => hl v (by simp [hv]))

end Plain

theorem percent_not_mem_toDigits (n : Nat) : '%' ∉ Nat.toDigits 10 n := fun h =>
  absurd (Nat.isDigit_of_mem_toDigits (by decide) (by decide) h) (by decide)

theorem plain_decimal (n : Nat) : Plain (Text.decimal n) := by
  rw [Plain, Text.decimal, Nat.toString_eq_repr, Nat.toList_repr]
  exact percent_not_mem_toDigits n

theorem plain_int (i : Int) : Plain (toString i) := by
  cases i with
  | ofNat n => exact plain_decimal n
  | negSucc n => exact (Plain.ofList (l := ['-']) (by decide)).append (plain_decimal (n + 1))

theorem plain_joined {separator : String} (hs : Plain separator) (ns : List Nat) :
    Plain (Text.joined separator ns) := by
  refine hs.intercalate fun t ht => ?_
  obtain ⟨n, _, rfl⟩ := List.mem_map.1 ht
  exact plain_decimal n

theorem FieldType.plain_tag (t : FieldType) : Plain t.tag := by
  unfold FieldType.tag
  split
  · exact Plain.ofList (by decide)
  · exact plain_joined (Plain.ofList (by decide)) _

namespace Decimal

theorem digitChar_ne (n : Nat) : Nat.digitChar n ≠ '%' := by
  by_cases h : n < 16
  · have hall : ∀ n < 16, Nat.digitChar n ≠ '%' := by decide
    exact hall n h
  · obtain ⟨k, rfl⟩ := Nat.exists_eq_add_of_le' (Nat.le_of_not_lt h)
    have hstar : Nat.digitChar (k + 16) = '*' := rfl
    rw [hstar]
    decide

theorem plain_digitText (ds : List Nat) : Plain (digitText ds) := by
  refine Plain.ofList fun h => ?_
  obtain ⟨d, _, hd⟩ := List.mem_map.1 h
  exact digitChar_ne d hd

theorem plain_zeros (n : Nat) : Plain (zeros n) :=
  Plain.ofList fun h => absurd (List.eq_of_mem_replicate h) (by decide)

theorem plain_positional (d : Digits) (keepsPoint : Bool) : Plain (d.positional keepsPoint) := by
  simp only [Digits.positional]
  split
  · exact ((Plain.ofList (by decide)).append (plain_zeros _)).append (plain_digitText _)
  · split
    · exact ((plain_digitText _).append (Plain.ofList (by decide))).append (plain_digitText _)
    · refine ((plain_digitText _).append (plain_zeros _)).append ?_
      cases keepsPoint
      · exact Plain.ofList (by decide)
      · exact Plain.ofList (by decide)

theorem plain_scientific (d : Digits) : Plain d.scientific := by
  simp only [Digits.scientific]
  refine (((plain_digitText _).append ?_).append (Plain.ofList (by decide))).append (plain_int _)
  split
  · exact Plain.ofList (by decide)
  · exact (Plain.ofList (by decide)).append (plain_digitText _)

theorem plain_layout (style : Style) (d : Digits) : Plain (d.layout style) := by
  unfold Digits.layout
  split
  · split
    · exact plain_positional d _
    · exact plain_scientific d
  · exact plain_positional d _

theorem plain_literalText (x : Float32) : Plain (literalText x) := by
  unfold literalText
  split
  · exact Plain.ofList (by decide)
  · split
    · split
      · exact Plain.ofList (by decide)
      · exact Plain.ofList (by decide)
    · refine Plain.append ?_ (Plain.ofList (by decide))
      simp only [finiteText]
      have hsign : Plain (if x.toBits.toNat < signBit then "" else "-") := by
        split
        · exact Plain.ofList (by decide)
        · exact Plain.ofList (by decide)
      split
      · exact hsign.append (Plain.ofList (by decide))
      · exact hsign.append (plain_layout _ _)

end Decimal

namespace Synthesis

theorem toList_textOf {lines : List String} (h : lines ≠ []) :
    (Reduction.textOf lines).toList = lines.flatMap fun line => line.toList ++ ['\n'] := by
  rw [Reduction.textOf, String.toList_append, String.toList_ofList]
  induction lines with
  | nil => exact absurd rfl h
  | cons line lines ih =>
      cases lines with
      | nil =>
          rw [String.intercalate_singleton]
          simp
      | cons next lines =>
          rw [String.intercalate_cons_cons, String.toList_append, String.toList_append,
            List.append_assoc, ih (by simp), List.flatMap_cons (x := line), String.toList_ofList]

namespace Reduction

theorem plain_identityLiteral (op : ReduceOp) : Plain op.identityLiteral := by
  cases op
  · exact Plain.ofList (by decide)
  · exact Plain.ofList (by decide)

theorem plain_render (op : ReduceOp) {a b : String} (ha : Plain a) (hb : Plain b) :
    Plain (op.render a b) := by
  cases op
  · exact (ha.append (Plain.ofList (by decide))).append hb
  · exact ((((Plain.ofList (by decide)).append ha).append (Plain.ofList (by decide))).append
      hb).append (Plain.ofList (by decide))

theorem plain_name (op : ReduceOp) (input : FieldType) :
    Plain s!"field_reduce_{op.name}_{input.tag}" := by
  have hop : Plain op.name := by
    cases op
    · exact Plain.ofList (by decide)
    · exact Plain.ofList (by decide)
  exact (((Plain.ofList (by decide)).append hop).append (Plain.ofList (by decide))).append
    input.plain_tag

theorem plain_destination (groups : Nat) : Plain (if 1 < groups then "partial" else "out") := by
  split
  · exact Plain.ofList (by decide)
  · exact Plain.ofList (by decide)

theorem plain_finish {name : String} (h : Plain name) : Plain s!"{name}_finish" :=
  h.append (Plain.ofList (by decide))

theorem fill_blockTemplate (op : ReduceOp) (groups width threads : Nat) {name : String}
    (hname : Plain name) : ∃ text, Template.fill blockTemplate
      [("groups", Text.decimal groups), ("width", Text.decimal width),
        ("threads", Text.decimal threads), ("name", name), ("identity", op.identityLiteral),
        ("accumulate", op.render "acc" "partial[g * WIDTH + column]"),
        ("combine", op.render "scratch[lid]" "scratch[lid + s]")] = .ok text := by
  refine Template.fill_eq_ok ⟨?_, ?_, ?_⟩ ?_
  · simp only [List.map_cons, List.map_nil]
    repeat rw [String.toList_ofList]
    decide
  · simp only [List.map_cons, List.map_nil]
    repeat rw [String.toList_ofList]
    decide
  · simp only [List.forall_mem_cons, List.not_mem_nil, false_implies, implies_true, and_true]
    exact ⟨plain_decimal _, plain_decimal _, plain_decimal _, hname, plain_identityLiteral op,
      plain_render op (Plain.ofList (by decide)) (Plain.ofList (by decide)),
      plain_render op (Plain.ofList (by decide)) (Plain.ofList (by decide))⟩
  · rw [blockTemplate, toList_textOf (by simp)]
    simp only [treeLines, List.cons_append, List.nil_append, List.flatMap_cons, List.flatMap_nil,
      List.map_cons, List.map_nil]
    repeat rw [String.toList_ofList]
    decide +kernel

theorem fill_planeTemplate (op : ReduceOp) (points groups elements threads : Nat)
    {name destination : String} (hname : Plain name) (hdestination : Plain destination) :
    ∃ text, Template.fill planeTemplate
      [("points", Text.decimal points), ("groups", Text.decimal groups),
        ("elements", Text.decimal elements), ("threads", Text.decimal threads), ("name", name),
        ("destination", destination), ("identity", op.identityLiteral),
        ("accumulate", op.render "acc" "plane[i]"),
        ("combine", op.render "scratch[lid]" "scratch[lid + s]")] = .ok text := by
  refine Template.fill_eq_ok ⟨?_, ?_, ?_⟩ ?_
  · simp only [List.map_cons, List.map_nil]
    repeat rw [String.toList_ofList]
    decide
  · simp only [List.map_cons, List.map_nil]
    repeat rw [String.toList_ofList]
    decide
  · simp only [List.forall_mem_cons, List.not_mem_nil, false_implies, implies_true, and_true]
    exact ⟨plain_decimal _, plain_decimal _, plain_decimal _, plain_decimal _, hname, hdestination,
      plain_identityLiteral op,
      plain_render op (Plain.ofList (by decide)) (Plain.ofList (by decide)),
      plain_render op (Plain.ofList (by decide)) (Plain.ofList (by decide))⟩
  · rw [planeTemplate, toList_textOf (by simp)]
    simp only [treeLines, List.cons_append, List.nil_append, List.flatMap_cons, List.flatMap_nil,
      List.map_cons, List.map_nil]
    repeat rw [String.toList_ofList]
    decide +kernel

end Reduction

theorem Correlation.plain_name (size rows columns : Nat) :
    Plain s!"filter_adjoint_{size}_{rows}x{columns}" :=
  (((((Plain.ofList (by decide)).append (plain_decimal size)).append
    (Plain.ofList (by decide))).append (plain_decimal rows)).append
    (Plain.ofList (by decide))).append (plain_decimal columns)

def Fourier.slotNames : List String :=
  ["n", "half", "span", "stride", "lines", "line_stride", "part", "scale", "twiddle_re",
    "twiddle_im", "name"]

theorem Fourier.slotNames_identifiers : (slotNames.map String.toList).Nodup ∧
    ∀ name ∈ slotNames.map String.toList, Template.isIdentifier name = true := by
  simp only [slotNames, List.map_cons, List.map_nil]
  repeat rw [String.toList_ofList]
  decide

theorem Fourier.covered_template :
    Template.covered (slotNames.map String.toList) template.toList = true := by
  rw [template, toList_textOf (by simp)]
  simp only [slotNames, List.flatMap_cons, List.flatMap_nil, List.map_cons, List.map_nil]
  repeat rw [String.toList_ofList]
  decide +kernel

theorem Fourier.source_eq_ok {name : String} (hname : Plain name) (pass : FourierPass)
    {twiddles : String × String} (htwiddles : Plain twiddles.1 ∧ Plain twiddles.2) :
    ∃ text, Fourier.source name pass twiddles = .ok text := by
  obtain ⟨hnodup, hnames⟩ := Fourier.slotNames_identifiers
  refine Template.fill_eq_ok ⟨hnodup, hnames, ?_⟩ Fourier.covered_template
  simp only [List.forall_mem_cons, List.not_mem_nil, false_implies, implies_true, and_true]
  exact ⟨plain_decimal _, plain_decimal _, plain_decimal _, plain_decimal _, plain_decimal _,
    plain_decimal _, plain_decimal _, Decimal.plain_literalText _, htwiddles.1, htwiddles.2, hname⟩

end Synthesis

end FieldCircuit
