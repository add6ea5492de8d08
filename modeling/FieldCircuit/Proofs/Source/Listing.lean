import FieldCircuit.Source.Listing
import Mathlib.Data.List.Basic

/-!
# What listings consist of

Everything that is done to a listing adds lines at its end. Which lines it adds depends on the depth of
the listing but not on the lines that are there, so that a listing that is continued in the same way
after two beginnings differs in these beginnings only.
-/

namespace FieldCircuit.Listing

def indented (depth : Nat) (text : String) : String :=
  if text.isEmpty then "" else indentation depth ++ text

theorem line_eq (lines : List String) (depth : Nat) (text : String) :
    line ⟨lines, depth⟩ text = ⟨lines ++ [indented depth text], depth⟩ := rfl

/-- Continues a listing with lines that do not depend on those that are there, and closes every block
that it opens. -/
def Appending (f : Listing → Listing) : Prop :=
  ∀ depth, ∃ added, ∀ lines, f ⟨lines, depth⟩ = ⟨lines ++ added, depth⟩

namespace Appending

variable {f body : Listing → Listing}

theorem id : Appending fun l => l :=
  fun _ => ⟨[], fun lines => by rw [List.append_nil]⟩

theorem line (h : Appending f) (text : String) : Appending fun l => (f l).line text := by
  intro depth
  obtain ⟨added, hadded⟩ := h depth
  refine ⟨added ++ [indented depth text], fun lines => ?_⟩
  simp only [hadded, line_eq, List.append_assoc]

theorem addLines (h : Appending f) (texts : List String) :
    Appending fun l => (f l).addLines texts := by
  induction texts generalizing f with
  | nil => exact h
  | cons text texts ih => exact ih (h.line text)

theorem blank (h : Appending f) : Appending fun l => (f l).blank := h.line ""

theorem block (h : Appending f) (header : String) (hbody : Appending body) :
    Appending fun l => (f l).block header body := by
  intro depth
  obtain ⟨added, hadded⟩ := h depth
  obtain ⟨inner, hinner⟩ := hbody (depth + 1)
  let opening := if header.isEmpty then "\x7b" else header ++ " \x7b"
  refine ⟨added ++ [indented depth opening] ++ inner ++ [indented depth "\x7d"], fun lines => ?_⟩
  simp only [Listing.block, enter, hadded, line_eq, hinner, leave, Nat.add_sub_cancel,
    List.append_assoc, opening]

end Appending

theorem indented_zero (text : String) : indented 0 text = text := by
  unfold indented
  split
  · rename_i hempty
    exact (String.isEmpty_iff.1 hempty).symm
  · exact String.empty_append

theorem addLines_eq (lines texts : List String) :
    addLines ⟨lines, 0⟩ texts = ⟨lines ++ texts, 0⟩ := by
  induction texts generalizing lines with
  | nil => rw [List.append_nil]; rfl
  | cons text texts ih =>
      change addLines (line ⟨lines, 0⟩ text) texts = _
      rw [line_eq, indented_zero, ih, List.append_assoc]
      rfl

theorem exists_text_eq (before after : List String) (depth : Nat) :
    ∃ front rear : List Char, ∀ line : String,
      (text ⟨before ++ line :: after, depth⟩).toList = front ++ line.toList ++ rear := by
  have hjoined : ∃ front rear : List Char, ∀ line : List Char,
      ['\n'].intercalate (before.map String.toList ++ line :: after.map String.toList) =
        front ++ line ++ rear := by
    induction before with
    | nil => cases after with
      | nil => exact ⟨[], [], fun line => by simp⟩
      | cons next after =>
          refine ⟨[], '\n' :: ['\n'].intercalate ((next :: after).map String.toList), fun line => ?_⟩
          simp only [List.map_cons, List.map_nil, List.nil_append, List.intercalate_cons_cons]
          simp
    | cons first before ih =>
        obtain ⟨front, rear, h⟩ := ih
        refine ⟨first.toList ++ ['\n'] ++ front, rear, fun line => ?_⟩
        obtain ⟨second, rest, hsecond⟩ : ∃ second rest,
            before.map String.toList ++ line :: after.map String.toList = second :: rest := by
          cases before with
          | nil => exact ⟨_, _, rfl⟩
          | cons second before => exact ⟨_, _, rfl⟩
        rw [List.map_cons, List.cons_append, hsecond, List.intercalate_cons_cons, ← hsecond, h]
        simp only [List.append_assoc]
  obtain ⟨front, rear, h⟩ := hjoined
  refine ⟨front, rear ++ ['\n'], fun line => ?_⟩
  have hlines := h line.toList
  unfold text
  rw [String.toList_append, String.toList_intercalate, List.map_append, List.map_cons]
  change ['\n'].intercalate _ ++ ['\n'] = _
  rw [hlines, List.append_assoc]

/-- Texts that differ in one line are different. -/
theorem text_injective (before after : List String) (depth : Nat) :
    Function.Injective fun line => text ⟨before ++ line :: after, depth⟩ := by
  obtain ⟨front, rear, h⟩ := exists_text_eq before after depth
  intro line other heq
  have hlists := congrArg String.toList heq
  simp only [h] at hlists
  exact String.toList_inj.1 (List.append_cancel_left (List.append_cancel_right hlists))

end FieldCircuit.Listing
