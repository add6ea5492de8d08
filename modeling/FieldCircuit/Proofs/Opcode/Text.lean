import FieldCircuit.Opcode.Text
import FieldCircuit.Proofs.Decimal.Reader

/-!
# Opcodes are read back from their texts

The families with an argument are recognized by the first parenthesis, which no family and no operation
without an argument has in its name. Arguments end where the text ends, so that names may contain
parentheses, and prefixes are only looked for where there is no parenthesis.
-/

namespace FieldCircuit.Opcode

def Numeric : Opcode → Prop
  | scale x | offset x => x.isNaN = false
  | _ => True

def Sized : Opcode → Prop
  | filterAdjoint size => size < sizeBound
  | _ => True

/-- A call is split into its family and its argument, whatever the argument contains. -/
theorem splitCall?_call {family : String} (h : '(' ∉ family.toList) (argument : String) :
    splitCall? (call family argument).toList = some (family.toList, argument.toList) := by
  have hfamily : ∀ c ∈ family.toList, (c != '(') = true := by
    intro c hc
    simpa using fun heq : c = '(' => h (heq ▸ hc)
  have htext : (call family argument).toList =
      family.toList ++ '(' :: (argument.toList ++ [')']) := by
    simp only [call, String.toList_append, List.append_assoc]
    rfl
  have hstart : ∀ rest : List Char, ('(' :: rest).dropWhile (· != '(') = '(' :: rest ∧
      ('(' :: rest).takeWhile (· != '(') = [] := fun rest => ⟨rfl, rfl⟩
  rw [splitCall?, htext, List.dropWhile_append_of_pos hfamily, (hstart _).1]
  simp only [List.getLast?_append, List.getLast?_singleton, Option.some_or, if_true,
    List.dropLast_concat]
  rw [List.takeWhile_append_of_pos hfamily, (hstart _).2, List.append_nil]

theorem parse?_call {family : String} (h : '(' ∉ family.toList) (argument : String) :
    parse? (call family argument) = ofCall? family argument.toList := by
  simp only [parse?, splitCall?_call h, String.ofList_toList]

/-- An opcode is read back from its text. -/
theorem parse?_render {o : Opcode} (hnumeric : o.Numeric) (hsized : o.Sized) :
    parse? o.render = some o := by
  cases o with
  | unary op => cases op <;> rfl
  | binary op => cases op <;> rfl
  | complexBinary op => cases op <;> rfl
  | fieldReduce op => cases op <;> rfl
  | fft direction => cases direction <;> rfl
  | tensorReduce | constant | recurrence => rfl
  | convolve border => cases border <;> rfl
  | scale x =>
      have hread := Decimal.single?_parameterText hnumeric
      rw [render, parse?_call (by decide)]
      exact congrArg (Option.map scale) hread
  | offset x =>
      have hread := Decimal.single?_parameterText hnumeric
      rw [render, parse?_call (by decide)]
      exact congrArg (Option.map offset) hread
  | filterAdjoint size =>
      rw [render, parse?_call (by decide)]
      exact congrArg (Option.map filterAdjoint) (Text.size?_decimal hsized)
  | sensor name =>
      rw [render, parse?_call (by decide)]
      exact congrArg (fun name => some (sensor name)) String.ofList_toList
  | actuator name =>
      rw [render, parse?_call (by decide)]
      exact congrArg (fun name => some (actuator name)) String.ofList_toList
  | host name =>
      rw [render, parse?_call (by decide)]
      exact congrArg (fun name => some (host name)) String.ofList_toList

theorem sized_of_ofCall? {family : String} {argument : List Char} {o : Opcode}
    (h : ofCall? family argument = some o) : o.Sized := by
  unfold ofCall? at h
  split at h
  · obtain ⟨x, -, rfl⟩ := Option.map_eq_some_iff.1 h
    trivial
  · obtain ⟨x, -, rfl⟩ := Option.map_eq_some_iff.1 h
    trivial
  · obtain ⟨border, -, rfl⟩ := Option.map_eq_some_iff.1 h
    trivial
  · obtain ⟨size, hsize, rfl⟩ := Option.map_eq_some_iff.1 h
    exact Text.lt_of_size?_eq_some hsize
  · obtain rfl := Option.some.inj h
    trivial
  · obtain rfl := Option.some.inj h
    trivial
  · obtain rfl := Option.some.inj h
    trivial
  · cases h

theorem sized_of_ofWord? {s : List Char} {o : Opcode} (h : ofWord? s = some o) : o.Sized := by
  unfold ofWord? at h
  split at h
  · obtain ⟨op, -, rfl⟩ := Option.map_eq_some_iff.1 h
    trivial
  · split at h
    · obtain ⟨op, -, rfl⟩ := Option.map_eq_some_iff.1 h
      trivial
    · split at h
      · obtain ⟨direction, -, rfl⟩ := Option.map_eq_some_iff.1 h
        trivial
      · split at h
        · obtain rfl := Option.some.inj h
          trivial
        · obtain rfl := Option.some.inj h
          trivial
        · obtain rfl := Option.some.inj h
          trivial
        · rcases Option.or_eq_some_iff.1 h with h | ⟨-, h⟩
          · obtain ⟨op, -, rfl⟩ := Option.map_eq_some_iff.1 h
            trivial
          · obtain ⟨op, -, rfl⟩ := Option.map_eq_some_iff.1 h
            trivial

theorem sized_of_parse? {text : String} {o : Opcode} (h : parse? text = some o) : o.Sized := by
  unfold parse? at h
  split at h
  · exact sized_of_ofCall? h
  · exact sized_of_ofWord? h

/-- Texts of opcodes round trip: every opcode whose parameter is a number is read back from its text, so
that different opcodes have different texts; and whatever text an opcode was read from, it is read back
from its own. -/
theorem text_round_trip :
    (∀ o : Opcode, o.Numeric → o.Sized → parse? o.render = some o) ∧
    (∀ o o' : Opcode, o.Numeric → o.Sized → o'.Numeric → o'.Sized →
      o.render = o'.render → o = o') ∧
    ∀ (text : String) (o : Opcode), parse? text = some o → o.Numeric → parse? o.render = some o := by
  refine ⟨fun o hnumeric hsized => parse?_render hnumeric hsized, ?_, ?_⟩
  · intro o o' hnumeric hsized hnumeric' hsized' htext
    have hread := parse?_render hnumeric hsized
    rw [htext, parse?_render hnumeric' hsized'] at hread
    exact (Option.some.inj hread).symm
  · exact fun text o h hnumeric => parse?_render hnumeric (sized_of_parse? h)

/-- A filter adjoint, a host function whose name looks like a call, and a number that was not written in
its shortest form. -/
theorem text_round_trip_examples :
    parse? (filterAdjoint 3).render = some (filterAdjoint 3) ∧
    (host "complex_fft_(").render ≠ (host "complex_fft_()").render ∧
    parse? "scale(0.10)" = some (scale (Float32.ofBits 0x3DCCCCCD)) ∧
    parse? (scale (Float32.ofBits 0x3DCCCCCD)).render = some (scale (Float32.ofBits 0x3DCCCCCD)) := by
  have htenth : parse? "scale(0.10)" = some (scale (Float32.ofBits 0x3DCCCCCD)) := by decide +kernel
  have hnumber : (scale (Float32.ofBits 0x3DCCCCCD)).Numeric := by
    change (Float32.ofBits 0x3DCCCCCD).isNaN = false
    decide +kernel
  have hsized : (filterAdjoint 3).Sized := (by decide : 3 < sizeBound)
  refine ⟨text_round_trip.1 (filterAdjoint 3) trivial hsized, fun htext => ?_, htenth,
    text_round_trip.2.2 _ _ htenth hnumber⟩
  have heq := text_round_trip.2.1 (host "complex_fft_(") (host "complex_fft_()") trivial trivial
    trivial trivial htext
  exact absurd (host.inj heq) (by decide)

end FieldCircuit.Opcode
