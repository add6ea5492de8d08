import FieldCircuit.Proofs.Field.Layout
import Mathlib.Data.Set.Function
import Mathlib.Order.Interval.Set.Defs

/-!
# The storage of a field

A word of a field belongs to a part of a tensor element at a point. Parts, elements and points are the
digits of its position, from the slowest to the fastest, so that the words of a field fill its storage
without overlaps and without gaps. Only complex elements have a second part; where there is just one,
the distance between parts does not matter.
-/

namespace FieldCircuit

structure Place where
  part : Nat
  element : Nat
  point : Point
  deriving DecidableEq, Repr

namespace Layout

variable {l : Layout} {x : Place}

def position (l : Layout) (x : Place) : Nat :=
  x.part * l.partStride + l.index x.point.layer x.point.row x.point.column x.element

structure Holds (l : Layout) (x : Place) : Prop where
  part : x.part < l.parts
  element : x.element < l.elements
  point : l.Contains x.point

def partWords (l : Layout) : Nat := l.elements * l.points

def placeAt (l : Layout) (i : Nat) : Place :=
  ⟨i / l.partWords, i % l.partWords / l.points, l.pointAt (i % l.partWords % l.points)⟩

theorem words_eq_parts_mul (l : Layout) : l.words = l.parts * l.partWords := by
  rw [words_eq, partWords, Nat.mul_comm]

/-- The distance between the parts is the number of words of a part, if there is another part. -/
theorem mul_partStride {part : Nat} (h : part < l.parts) :
    part * l.partStride = part * l.partWords := by
  cases hc : l.element.isComplex with
  | true => rw [(words_of_complex hc).2, partWords]
  | false =>
      have hparts : l.parts = 1 := by
        rw [parts]
        cases he : l.element with
        | complex => rw [he] at hc; cases hc
        | float => rfl
        | pixel => rfl
      obtain rfl : part = 0 := by omega
      rw [Nat.zero_mul, Nat.zero_mul]

theorem Holds.position_eq (h : l.Holds x) :
    l.position x = x.part * l.partWords + l.elementAt x.point x.element := by
  rw [position, mul_partStride h.part]
  rfl

theorem Holds.position_lt (h : l.Holds x) : l.position x < l.words := by
  rw [h.position_eq, words_eq_parts_mul]
  exact lt_mul_of_digits h.part (h.point.elementAt_lt h.element)

theorem Holds.placeAt_position (h : l.Holds x) : l.placeAt (l.position x) = x := by
  have helement : l.elementAt x.point x.element < l.partWords := h.point.elementAt_lt h.element
  have hpoint : l.at x.point < l.points := h.point.at_lt
  rw [h.position_eq, placeAt, digits_div helement, digits_mod helement, elementAt_eq,
    digits_div hpoint, digits_mod hpoint, h.point.pointAt_at]

theorem holds_placeAt {i : Nat} (hi : i < l.words) : l.Holds (l.placeAt i) := by
  rw [words_eq_parts_mul] at hi
  have hpart : 0 < l.partWords := Nat.pos_of_ne_zero fun h => by simp [h] at hi
  have hpoints : 0 < l.points := Nat.pos_of_ne_zero fun h => by simp [partWords, h] at hpart
  refine ⟨Nat.div_lt_of_lt_mul (by rwa [Nat.mul_comm]), ?_, contains_pointAt (Nat.mod_lt _ hpoints)⟩
  have hmod : i % l.partWords < l.elements * l.points := Nat.mod_lt _ hpart
  exact Nat.div_lt_of_lt_mul (by rwa [Nat.mul_comm])

theorem position_placeAt {i : Nat} (hi : i < l.words) : l.position (l.placeAt i) = i := by
  rw [(holds_placeAt hi).position_eq, elementAt_eq]
  simp only [placeAt, at_pointAt]
  rw [Nat.div_add_mod', Nat.div_add_mod']

/-- Places and positions determine each other. -/
theorem position_bijOn (l : Layout) : Set.BijOn l.position {x | l.Holds x} (Set.Iio l.words) := by
  have hinv : Set.InvOn l.placeAt l.position {x | l.Holds x} (Set.Iio l.words) :=
    ⟨fun _ hx => Holds.placeAt_position hx, fun _ hi => position_placeAt hi⟩
  exact hinv.bijOn (fun _ hx => Holds.position_lt hx) fun _ hi => holds_placeAt hi

end Layout

theorem Shape.points_eq_prod (s : Shape) : s.points = s.extents.prod :=
  List.prod_eq_foldr.symm

/-- The words of every field whose number of words fits a machine size are stored without overlaps and
without gaps: every position below that number belongs to one part of one tensor element at one point.
There are as many words as the product of all extents times the number of parts. -/
theorem FieldType.storage_bijOn {field tensor : Shape} {element : Element} {t : FieldType} {n : Nat}
    (ht : FieldType.of field tensor element = .ok t) (hn : t.words? = .ok n) :
    Set.BijOn (fun x : Place => x.part * t.layout.partStride +
        t.layout.index x.point.layer x.point.row x.point.column x.element)
      {x | x.part < element.parts ∧ x.element < tensor.extents.prod ∧
        x.point.layer < field.fromInner 2 ∧ x.point.row < field.fromInner 1 ∧
        x.point.column < field.fromInner 0} (Set.Iio n) ∧
      n = t.layout.words ∧ n = field.extents.prod * tensor.extents.prod * element.parts ∧
      t.layout.points = field.extents.prod := by
  obtain ⟨rfl, rfl, rfl⟩ := FieldType.of_eq_ok ht
  obtain rfl := FieldType.words?_eq_ok hn
  have hpoints : t.layout.points = t.field.extents.prod := by
    rw [t.layout_points, FieldType.points, Shape.points_eq_prod]
  have hplaces : {x : Place | x.part < t.element.parts ∧ x.element < t.tensor.extents.prod ∧
      x.point.layer < t.field.fromInner 2 ∧ x.point.row < t.field.fromInner 1 ∧
      x.point.column < t.field.fromInner 0} = {x | t.layout.Holds x} := by
    ext x
    rw [← Shape.points_eq_prod]
    constructor
    · rintro ⟨hpart, helement, hlayer, hrow, hcolumn⟩
      exact ⟨hpart, helement, hlayer, hrow, hcolumn⟩
    · intro h
      exact ⟨h.part, h.element, h.point.layer, h.point.row, h.point.column⟩
  refine ⟨?_, rfl, ?_, hpoints⟩
  · rw [hplaces]
    exact t.layout.position_bijOn
  · rw [FieldType.words, Layout.words_eq, hpoints, Nat.mul_comm t.layout.elements,
      ← Shape.points_eq_prod t.tensor]
    rfl

/-- Complex matrices at the points of two layers of three rows and four columns. -/
theorem FieldType.storage_bijOn_two_by_three_by_four : ∃ t,
    FieldType.of ⟨[2, 3, 4]⟩ ⟨[2, 5]⟩ .complex = .ok t ∧ t.words? = .ok 480 ∧
      Set.BijOn (fun x : Place => x.part * t.layout.partStride +
          t.layout.index x.point.layer x.point.row x.point.column x.element)
        {x | x.part < 2 ∧ x.element < 10 ∧ x.point.layer < 2 ∧ x.point.row < 3 ∧
          x.point.column < 4} (Set.Iio 480) := by
  have hof : FieldType.of ⟨[2, 3, 4]⟩ ⟨[2, 5]⟩ .complex = .ok ⟨⟨[2, 3, 4]⟩, ⟨[2, 5]⟩, .complex,
      by decide, by decide, by decide, by decide⟩ := rfl
  have hwords : FieldType.words? ⟨⟨[2, 3, 4]⟩, ⟨[2, 5]⟩, .complex, by decide, by decide, by decide,
      by decide⟩ = .ok 480 := by
    decide +kernel
  exact ⟨_, hof, hwords, (FieldType.storage_bijOn hof hwords).1⟩

end FieldCircuit
