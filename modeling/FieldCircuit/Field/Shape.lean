import FieldCircuit.Text.Number

/-!
# Shapes

The extents of a field or of the tensor at each of its points, outermost first. The shape without
extents covers a single point.
-/

namespace FieldCircuit

/-- Extents, outermost first. -/
structure Shape where
  extents : List Nat
  deriving DecidableEq, Repr

namespace Shape

def point : Shape := ⟨[]⟩

def dimensions (s : Shape) : Nat := s.extents.length

def points (s : Shape) : Nat := s.extents.foldr (· * ·) 1

def get? (s : Shape) (i : Nat) : Option Nat := s.extents[i]?

/-- The extent at a position counted from the innermost, and one where there is none. -/
def fromInner (s : Shape) (i : Nat) : Nat := s.extents.reverse.getD i 1

/-- Extents joined by crosses, in parentheses. -/
def render (s : Shape) : String := "(" ++ Text.joined " x " s.extents ++ ")"

@[simp] theorem points_point : point.points = 1 := rfl

theorem points_pos {s : Shape} (h : ∀ e ∈ s.extents, 0 < e) : 0 < s.points := by
  obtain ⟨es⟩ := s
  simp only [points] at *
  induction es with
  | nil => simp
  | cons e es ih =>
    simp only [List.foldr_cons]
    exact Nat.mul_pos (h e (by simp)) (ih fun x hx => h x (by simp [hx]))

end Shape

end FieldCircuit
