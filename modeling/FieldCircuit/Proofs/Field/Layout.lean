import FieldCircuit.Launch.PointMap
import FieldCircuit.Proofs.Outcome
import Mathlib.Algebra.BigOperators.Group.List.Lemmas
import Mathlib.Algebra.Order.Group.Nat
import Mathlib.Tactic.Ring

/-!
# Positions of points and elements

Points and tensor elements are stored in mixed radix, so that positions and coordinates determine each
other. The lemmas are stated for a layout and the points inside of it; every field type has a layout
with positive extents.
-/

namespace FieldCircuit

theorem lt_mul_of_digits {a b m n : Nat} (ha : a < m) (hb : b < n) : a * n + b < m * n := by
  have h : (a + 1) * n ≤ m * n := Nat.mul_le_mul_right n ha
  rw [Nat.add_mul, Nat.one_mul] at h
  omega

theorem digits_div {a b n : Nat} (hb : b < n) : (a * n + b) / n = a := by
  rw [Nat.mul_comm, Nat.mul_add_div (by omega), Nat.div_eq_of_lt hb, Nat.add_zero]

theorem digits_mod {a b n : Nat} (hb : b < n) : (a * n + b) % n = b := by
  rw [Nat.mul_add_mod_self_right, Nat.mod_eq_of_lt hb]

namespace FieldType

theorem of_eq_ok {field tensor : Shape} {element : Element} {t : FieldType}
    (h : FieldType.of field tensor element = .ok t) :
    t.field = field ∧ t.tensor = tensor ∧ t.element = element := by
  unfold FieldType.of at h
  split at h <;> (try cases h)
  split at h <;> (try cases h)
  split at h <;> (try cases h)
  split at h <;> (try cases h)
  exact ⟨rfl, rfl, rfl⟩

theorem extent_pos (t : FieldType) (i : Nat) : 0 < t.field.fromInner i := by
  rw [Shape.fromInner, List.getD_eq_getElem?_getD]
  cases h : t.field.extents.reverse[i]? with
  | none => simp
  | some e => exact t.field_pos e (List.mem_reverse.1 (List.mem_of_getElem? h))

theorem fromInner_lt (t : FieldType) {bound : Nat} (hbound : 1 < bound)
    (h : ∀ e ∈ t.field.extents, e < bound) (i : Nat) : t.field.fromInner i < bound := by
  rw [Shape.fromInner, List.getD_eq_getElem?_getD]
  cases hi : t.field.extents.reverse[i]? with
  | none => simpa using hbound
  | some e => exact h e (List.mem_reverse.1 (List.mem_of_getElem? hi))

theorem columns_pos (t : FieldType) : 0 < t.columns := t.extent_pos 0

theorem rows_pos (t : FieldType) : 0 < t.rows := t.extent_pos 1

theorem layers_pos (t : FieldType) : 0 < t.layers := t.extent_pos 2

theorem fromInner_eq_one (t : FieldType) {i : Nat} (h : t.dimensions ≤ i) :
    t.field.fromInner i = 1 := by
  have hlen : t.field.extents.reverse.length ≤ i := by
    rw [List.length_reverse]
    exact h
  rw [Shape.fromInner, List.getD_eq_getElem?_getD, List.getElem?_eq_none hlen, Option.getD_none]

theorem points_of_dimensions {t : FieldType} (h : t.dimensions = 0) : t.points = 1 := by
  have hnil : t.field.extents = [] := List.eq_nil_of_length_eq_zero h
  simp [points, Shape.points, hnil]

theorem elements_of_order {t : FieldType} (h : t.order = 0) : t.elements = 1 := by
  have hnil : t.tensor.extents = [] := List.eq_nil_of_length_eq_zero h
  simp [elements, Shape.points, hnil]

end FieldType

namespace Layout

structure Contains (l : Layout) (p : Point) : Prop where
  layer : p.layer < l.layers
  row : p.row < l.rows
  column : p.column < l.columns

variable {l : Layout} {p q : Point}

theorem at_eq (l : Layout) (p : Point) :
    l.at p = (p.layer * l.rows + p.row) * l.columns + p.column := by
  simp only [Layout.at, pointIndex, layerStride, rowStride]
  ring

theorem points_eq_mul (l : Layout) : l.points = l.layers * l.rows * l.columns := by
  simp only [points, tensorStride]
  ring

theorem elementAt_eq (l : Layout) (p : Point) (e : Nat) : l.elementAt p e = e * l.points + l.at p :=
  rfl

theorem Contains.at_lt (h : l.Contains p) : l.at p < l.points := by
  rw [at_eq, points_eq_mul]
  exact lt_mul_of_digits (lt_mul_of_digits h.layer h.row) h.column

def pointAt (l : Layout) (i : Nat) : Point :=
  ⟨i / l.columns / l.rows, i / l.columns % l.rows, i % l.columns⟩

theorem contains_pointAt {i : Nat} (hi : i < l.points) : l.Contains (l.pointAt i) := by
  rw [points_eq_mul] at hi
  have hcolumns : 0 < l.columns := Nat.pos_of_ne_zero fun h => by simp [h] at hi
  have hrows : 0 < l.rows := Nat.pos_of_ne_zero fun h => by simp [h] at hi
  have hdiv : i / l.columns < l.layers * l.rows := Nat.div_lt_of_lt_mul (by rwa [Nat.mul_comm])
  exact ⟨Nat.div_lt_of_lt_mul (by rwa [Nat.mul_comm]), Nat.mod_lt _ hrows, Nat.mod_lt _ hcolumns⟩

theorem at_pointAt (l : Layout) (i : Nat) : l.at (l.pointAt i) = i := by
  rw [at_eq]
  simp only [pointAt]
  rw [Nat.div_add_mod', Nat.div_add_mod']

theorem Contains.pointAt_at (h : l.Contains p) : l.pointAt (l.at p) = p := by
  rw [at_eq, pointAt, digits_div h.column, digits_mod h.column, digits_div h.row, digits_mod h.row]

theorem Contains.elementAt_lt (h : l.Contains p) {e : Nat} (he : e < l.elements) :
    l.elementAt p e < l.elements * l.points := by
  rw [elementAt_eq]
  exact lt_mul_of_digits he h.at_lt

/-- Every position of a part belongs to a tensor element of a point. -/
theorem exists_elementAt {i : Nat} (hi : i < l.elements * l.points) :
    ∃ p e, l.Contains p ∧ e < l.elements ∧ l.elementAt p e = i := by
  have hpoints : 0 < l.points := Nat.pos_of_ne_zero fun h => by simp [h] at hi
  refine ⟨l.pointAt (i % l.points), i / l.points, contains_pointAt (Nat.mod_lt _ hpoints), ?_, ?_⟩
  · exact Nat.div_lt_of_lt_mul (by rwa [Nat.mul_comm])
  · rw [elementAt_eq, at_pointAt, Nat.div_add_mod']

theorem words_eq (l : Layout) : l.words = l.elements * l.points * l.parts := by
  simp only [words, points]
  ring

theorem words_of_real (h : l.element.isComplex = false) : l.words = l.elements * l.points := by
  rw [words_eq, parts]
  cases he : l.element with
  | complex => rw [he] at h; cases h
  | float => simp [Element.parts]
  | pixel => simp [Element.parts]

theorem words_of_complex (h : l.element.isComplex = true) :
    l.words = l.elements * l.points * 2 ∧ l.partStride = l.elements * l.points := by
  rw [words_eq, parts, partStride, if_pos h, points, Nat.mul_comm l.tensorStride]
  cases he : l.element with
  | complex => exact ⟨rfl, rfl⟩
  | float => rw [he] at h; cases h
  | pixel => rw [he] at h; cases h

end Layout

theorem FieldType.words_of_real {t : FieldType} (h : t.element.isComplex = false) :
    t.words = t.elements * t.points := by
  rw [words, Layout.words_of_real (l := t.layout) h, t.layout_points]
  rfl

theorem FieldType.words?_eq_ok {t : FieldType} {n : Nat} (h : t.words? = .ok n) : n = t.words := by
  simp only [FieldType.words?, FieldType.layout?, bind_eq_ok_iff] at h
  obtain ⟨l, ⟨_, _, _, _, _, _, hl⟩, hn⟩ := h
  rw [(checked_eq_ok_iff.1 hn).2, ← Except.ok.inj hl]
  rfl

def FieldType.fourByTwo : FieldType :=
  ⟨⟨[4, 2]⟩, .point, .complex, by decide, by decide, by decide, by decide⟩

def FieldType.twoByThree : FieldType :=
  ⟨⟨[2, 3]⟩, .point, .float, by decide, by decide, by decide, by decide⟩

def FieldType.twoByThreePixels : FieldType :=
  ⟨⟨[2, 3]⟩, .point, .pixel, by decide, by decide, by decide, by decide⟩

def FieldType.number : FieldType :=
  ⟨.point, .point, .float, by decide, by decide, by decide, by decide⟩

def FieldType.threeByThree : FieldType :=
  ⟨⟨[3, 3]⟩, .point, .float, by decide, by decide, by decide, by decide⟩

theorem FieldType.words_pos (t : FieldType) : 0 < t.words := by
  have hpoints : 0 < t.layout.points := by
    rw [Layout.points_eq_mul]
    exact Nat.mul_pos (Nat.mul_pos t.layers_pos t.rows_pos) t.columns_pos
  have hparts : 0 < t.layout.parts := by
    rw [Layout.parts]
    cases t.layout.element <;> decide
  rw [FieldType.words, Layout.words_eq]
  exact Nat.mul_pos (Nat.mul_pos t.elements_pos hpoints) hparts

theorem FieldType.extent_le_words {t : FieldType} {e : Nat} (h : e ∈ t.field.extents) :
    e ≤ t.words := by
  have hdvd : e ∣ t.points := by
    rw [FieldType.points, Shape.points, ← List.prod_eq_foldr]
    exact List.dvd_prod h
  have hparts : 0 < t.layout.parts := by
    rw [Layout.parts]
    cases t.layout.element <;> decide
  calc e ≤ t.points := Nat.le_of_dvd t.points_pos hdvd
    _ ≤ t.elements * t.points := Nat.le_mul_of_pos_left _ t.elements_pos
    _ ≤ t.elements * t.points * t.layout.parts := Nat.le_mul_of_pos_right _ hparts
    _ = t.words := by rw [FieldType.words, Layout.words_eq, t.layout_points]; rfl

end FieldCircuit
