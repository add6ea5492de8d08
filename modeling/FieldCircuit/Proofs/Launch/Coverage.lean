import FieldCircuit.Proofs.Field.Layout
import FieldCircuit.Proofs.Outcome

/-!
# Launches cover their fields

The work items of a launch over a field reach every point and every tensor element of the field, and
nothing else: a launch has at least as many items on every axis as the box that it has to cover, and
items outside of the field are responsible for nothing.
-/

namespace FieldCircuit

theorem le_ceilDiv_mul (a : Nat) {b : Nat} (hb : 0 < b) : a ≤ ceilDiv a b * b := by
  have hmod := Nat.mod_lt a hb
  have hdiv := Nat.div_add_mod' a b
  unfold ceilDiv
  split
  · rw [Nat.add_zero]
    omega
  · rw [Nat.add_mul, Nat.one_mul]
    omega

theorem ceilPowerOfTwo_pos (n : Nat) : 0 < ceilPowerOfTwo n := by
  unfold ceilPowerOfTwo
  split
  · exact Nat.one_pos
  · exact Nat.pow_pos Nat.two_pos

namespace Axes

structure Positive (a : Axes) : Prop where
  x : 0 < a.x
  y : 0 < a.y
  z : 0 < a.z

/-- Halving the widest axis of a group with more than one item leaves no axis empty. -/
theorem Positive.halveWidest {a : Axes} (h : a.Positive) (hmany : 1 < a.product) :
    a.halveWidest.Positive := by
  have hwide : 2 ≤ a.x ∨ 2 ≤ a.y ∨ 2 ≤ a.z := by
    by_contra hnone
    have hx : a.x = 1 := by have := h.x; omega
    have hy : a.y = 1 := by have := h.y; omega
    have hz : a.z = 1 := by have := h.z; omega
    simp [product, hx, hy, hz] at hmany
  obtain ⟨hx, hy, hz⟩ := h
  unfold Axes.halveWidest
  split
  · exact ⟨by simp only; omega, hy, hz⟩
  · split
    · exact ⟨hx, by simp only; omega, hz⟩
    · exact ⟨hx, hy, by simp only; omega⟩

theorem mem_positions {a id : Axes} :
    id ∈ a.positions ↔ id.x < a.x ∧ id.y < a.y ∧ id.z < a.z := by
  obtain ⟨i, j, k⟩ := id
  simp only [positions, List.mem_flatMap, List.mem_map, List.mem_range, Axes.mk.injEq]
  constructor
  · rintro ⟨_, hk, _, hj, _, hi, rfl, rfl, rfl⟩
    exact ⟨hi, hj, hk⟩
  · rintro ⟨hi, hj, hk⟩
    exact ⟨k, hk, j, hj, i, hi, rfl, rfl, rfl⟩

end Axes

namespace WorkGroup

theorem shrink_positive {limit : Nat} (hlimit : 0 < limit) (fuel : Nat) {size : Axes}
    (h : size.Positive) : (shrink limit fuel size).Positive := by
  induction fuel generalizing size with
  | zero => exact h
  | succ fuel ih =>
      rw [shrink]
      split
      · exact ih (h.halveWidest (by omega))
      · exact h

theorem localFor_positive (dimensions : Nat) (box : Axes) (caps : Capabilities) :
    (localFor dimensions box caps).Positive := by
  refine shrink_positive (Nat.lt_of_lt_of_le Nat.one_pos (Nat.le_max_right _ _)) _ ?_
  have hbase : (defaultLocal dimensions).Positive := by
    unfold defaultLocal
    split <;> exact ⟨by decide, by decide, by decide⟩
  exact ⟨Nat.lt_min.2 ⟨hbase.x, ceilPowerOfTwo_pos _⟩, Nat.lt_min.2 ⟨hbase.y, ceilPowerOfTwo_pos _⟩,
    Nat.lt_min.2 ⟨hbase.z, ceilPowerOfTwo_pos _⟩⟩

/-- What a successful request for a launch is: the box is the one that was asked for, and the items
cover it. -/
theorem covering_eq_ok {extents : List Nat} {caps : Capabilities} {w : WorkGroup}
    (h : covering extents caps = .ok w) :
    w.extents = padded extents ∧ w.extents.x ≤ w.globalSize.x ∧ w.extents.y ≤ w.globalSize.y ∧
      w.extents.z ≤ w.globalSize.z := by
  unfold covering at h
  simp only at h
  split at h
  · rw [← Except.ok.inj h]
    have hpos := localFor_positive (axesOf extents) (padded extents) caps
    exact ⟨rfl, le_ceilDiv_mul _ hpos.x, le_ceilDiv_mul _ hpos.y, le_ceilDiv_mul _ hpos.z⟩
  · cases h

/-- The box of a launch is not longer than the power of two that rounding allows. -/
theorem padded_le {extents : List Nat} (h : ∀ e ∈ extents.take 3, e ≤ signedBound) :
    (padded extents).x ≤ signedBound ∧ (padded extents).y ≤ signedBound ∧
      (padded extents).z ≤ signedBound := by
  have haxis : ∀ i < 3, Nat.max (extents.getD i 1) 1 ≤ signedBound := by
    intro i hi
    have hone : 1 ≤ signedBound := by decide
    refine Nat.max_le.2 ⟨?_, hone⟩
    rw [List.getD_eq_getElem?_getD]
    cases he : extents[i]? with
    | none => exact hone
    | some e =>
        refine h e (List.mem_of_getElem? (i := i) ?_)
        rw [List.getElem?_take_of_lt hi, he]
  exact ⟨haxis 0 (by decide), haxis 1 (by decide), haxis 2 (by decide)⟩

/-- Only the first three extents of a launch have to have a power of two above them. -/
theorem covering_eq {extents : List Nat} (caps : Capabilities)
    (h : ∀ e ∈ extents.take 3, e ≤ signedBound) :
    let box := padded extents
    let size := localFor (axesOf extents) box caps
    covering extents caps = .ok ⟨axesOf extents, box,
      ⟨rounded box.x size.x, rounded box.y size.y, rounded box.z size.z⟩, size⟩ := by
  obtain ⟨hx, hy, hz⟩ := padded_le h
  have hall : (padded extents).toList.all (· ≤ signedBound) = true := by
    simp only [Axes.toList, List.all_cons, List.all_nil, hx, hy, hz, decide_true, Bool.and_self]
  simp only [covering]
  rw [if_pos hall]

theorem covering_exists (extents : List Nat) (caps : Capabilities)
    (h : ∀ e ∈ extents, e ≤ signedBound) : ∃ w, covering extents caps = .ok w :=
  ⟨_, covering_eq caps fun e he => h e (List.mem_of_mem_take he)⟩

theorem mem_activeItems {extents : List Nat} {caps : Capabilities} {w : WorkGroup}
    (h : covering extents caps = .ok w) {id : Axes} :
    id ∈ w.activeItems ↔
      id.x < (padded extents).x ∧ id.y < (padded extents).y ∧ id.z < (padded extents).z := by
  obtain ⟨hbox, hx, hy, hz⟩ := covering_eq_ok h
  rw [activeItems, List.mem_filter, workItems, Axes.mem_positions, hbox] at *
  simp only [Axes.inside, Bool.and_eq_true, decide_eq_true_eq]
  omega

end WorkGroup

namespace Addressing

/-- The box of a launch over a field: the tensor elements have an axis of their own, or share that of
the layers. -/
theorem padded_launchExtents (t : FieldType) (mode : AddressingMode) :
    WorkGroup.padded (launchExtents t mode) =
      match t.dimensions, mode == .tensorElement with
      | 3, true => ⟨t.columns, t.rows, t.layers * t.elements⟩
      | 2, true => ⟨t.columns, t.rows, t.elements⟩
      | 1, true => ⟨t.columns, t.elements, 1⟩
      | 0, true => ⟨t.elements, 1, 1⟩
      | _, _ => ⟨t.columns, t.rows, t.layers⟩ := by
  have hc := t.columns_pos
  have hr := t.rows_pos
  have hl := t.layers_pos
  have he := t.elements_pos
  have hle : 0 < t.layers * t.elements := Nat.mul_pos hl he
  have hmax : ∀ n : Nat, 0 < n → Nat.max n 1 = n := fun n hn => Nat.max_eq_left hn
  have hdim : t.dimensions ≤ 3 := t.field_le
  have hcolumns : t.dimensions = 0 → t.columns = 1 := fun h => t.fromInner_eq_one (by omega)
  have hrows : t.dimensions ≤ 1 → t.rows = 1 := fun h => t.fromInner_eq_one (by omega)
  have hlayers : t.dimensions ≤ 2 → t.layers = 1 := fun h => t.fromInner_eq_one (by omega)
  have hmode : mode = .tensorElement ∨ (mode == .tensorElement) = false := by
    cases mode <;> simp
  generalize hd : t.dimensions = d at *
  rcases hmode with rfl | hmode
  · obtain rfl | rfl | rfl | rfl : d = 0 ∨ d = 1 ∨ d = 2 ∨ d = 3 := by omega
    · simp [launchExtents, hd, WorkGroup.padded, hmax, he]
    · simp [launchExtents, hd, WorkGroup.padded, hmax, he, hc]
    · simp [launchExtents, hd, WorkGroup.padded, hmax, he, hc, hr]
    · simp [launchExtents, hd, WorkGroup.padded, hmax, hle, hc, hr]
  · have hne : mode ≠ .tensorElement := by
      rintro rfl
      cases hmode
    obtain rfl | rfl | rfl | rfl : d = 0 ∨ d = 1 ∨ d = 2 ∨ d = 3 := by omega
    · simp [launchExtents, hd, WorkGroup.padded, hne, hcolumns, hrows, hlayers]
    · simp [launchExtents, hd, WorkGroup.padded, hne, hmax, hc, hrows, hlayers]
    · simp [launchExtents, hd, WorkGroup.padded, hne, hmax, hc, hr, hlayers]
    · simp [launchExtents, hd, WorkGroup.padded, hne, hmax, hc, hr, hl]

theorem workGroup?_eq_ok {t : FieldType} {mode : AddressingMode} {caps : Capabilities}
    {w : WorkGroup} (h : workGroup? t mode caps = .ok w) :
    WorkGroup.covering (launchExtents t mode) caps = .ok w := by
  unfold workGroup? at h
  simp only at h
  split at h
  · exact h
  · cases h

end Addressing

namespace PointMap

variable {t : FieldType} {mode : AddressingMode} {caps : Capabilities} {w : WorkGroup}

/-- A located item is responsible for a point of the field, and for one of its elements. -/
theorem locate_inside {m : PointMap} {id : Axes} {p : Point} {e : Option Nat}
    (h : m.locate id = some (p, e)) : m.layout.Contains p ∧ ∀ k ∈ e, k < m.layout.elements := by
  unfold locate at h
  simp only [Option.ite_none_right_eq_some] at h
  obtain ⟨hin, h⟩ := h
  obtain ⟨rfl, rfl⟩ := Prod.mk.inj (Option.some.inj h)
  simp only [Bool.and_eq_true, decide_eq_true_eq, Option.all_eq_true] at hin
  exact ⟨⟨hin.1.2, hin.1.1.2, hin.1.1.1⟩, hin.2⟩

/-- Some item is responsible for every tensor element of every point. -/
theorem exists_locate (h : Addressing.workGroup? t mode caps = .ok w) {p : Point}
    (hp : t.layout.Contains p) {e : Nat} (he : e < t.layout.elements) :
    ∃ id ∈ w.workItems, (of t mode).locate id =
      some (p, if mode == .tensorElement then some e else none) := by
  obtain ⟨hbox, hx, hy, hz⟩ := WorkGroup.covering_eq_ok (Addressing.workGroup?_eq_ok h)
  rw [hbox, Addressing.padded_launchExtents] at hx hy hz
  obtain ⟨hlayer, hrow, hcolumn⟩ := hp
  have hdim : t.dimensions ≤ 3 := t.field_le
  have hcolumns : t.dimensions = 0 → t.columns = 1 := fun h => t.fromInner_eq_one (by omega)
  have hrows : t.dimensions ≤ 1 → t.rows = 1 := fun h => t.fromInner_eq_one (by omega)
  have hlayers : t.dimensions ≤ 2 → t.layers = 1 := fun h => t.fromInner_eq_one (by omega)
  simp only [FieldType.layout] at hlayer hrow hcolumn he
  obtain ⟨layer, row, column⟩ := p
  simp only at hlayer hrow hcolumn
  generalize hd : t.dimensions = d at *
  cases hmode : mode == .tensorElement with
  | true =>
    rw [hmode] at hx hy hz
    -- the axis of the elements is the first one after those of the field
    obtain rfl | rfl | rfl | rfl : d = 0 ∨ d = 1 ∨ d = 2 ∨ d = 3 := by omega
    · simp only at hx hy hz
      refine ⟨⟨e, 0, 0⟩, Axes.mem_positions.2 ⟨by simp only; omega, by simp only; omega,
        by simp only; omega⟩, ?_⟩
      simp [locate, layerElement, of, perElement, hd, hmode, FieldType.layout, he, t.columns_pos,
        t.rows_pos, t.layers_pos]
      omega
    · simp only at hx hy hz
      refine ⟨⟨column, e, 0⟩, Axes.mem_positions.2 ⟨by simp only; omega, by simp only; omega,
        by simp only; omega⟩, ?_⟩
      simp [locate, layerElement, of, perElement, hd, hmode, FieldType.layout, he, t.rows_pos,
        t.layers_pos, hcolumn]
      omega
    · simp only at hx hy hz
      refine ⟨⟨column, row, e⟩, Axes.mem_positions.2 ⟨by simp only; omega, by simp only; omega,
        by simp only; omega⟩, ?_⟩
      simp [locate, layerElement, of, perElement, hd, hmode, FieldType.layout, he, t.layers_pos,
        hcolumn, hrow]
      omega
    · simp only at hx hy hz
      have hlt : e * t.layers + layer < t.elements * t.layers := lt_mul_of_digits he hlayer
      rw [Nat.mul_comm t.layers] at hz
      refine ⟨⟨column, row, e * t.layers + layer⟩, Axes.mem_positions.2 ⟨by simp only; omega,
        by simp only; omega, by simp only; omega⟩, ?_⟩
      simp [locate, layerElement, of, perElement, hd, hmode, FieldType.layout, he, digits_div hlayer,
        digits_mod hlayer, hlayer, hcolumn, hrow]
  | false =>
    rw [hmode] at hx hy hz
    simp only at hx hy hz
    refine ⟨⟨column, row, layer⟩, Axes.mem_positions.2 ⟨by simp only; omega, by simp only; omega,
      by simp only; omega⟩, ?_⟩
    obtain rfl | rfl | rfl | rfl : d = 0 ∨ d = 1 ∨ d = 2 ∨ d = 3 := by omega
    · simp [locate, layerElement, of, perElement, hd, hmode, FieldType.layout, t.columns_pos,
        t.rows_pos, t.layers_pos]
      omega
    · simp [locate, layerElement, of, perElement, hd, hmode, FieldType.layout, t.rows_pos,
        t.layers_pos, hcolumn]
      omega
    · simp [locate, layerElement, of, perElement, hd, hmode, FieldType.layout, t.layers_pos, hcolumn,
        hrow]
      omega
    · simp [locate, layerElement, of, perElement, hd, hmode, FieldType.layout, hlayer, hcolumn, hrow]

/-- A launch visits the tensor elements of the points of its field, and nothing else. -/
theorem mem_visits (h : Addressing.workGroup? t mode caps = .ok w) {p : Point} {e : Nat} :
    (p, e) ∈ (of t mode).visits w ↔ t.layout.Contains p ∧ e < t.layout.elements := by
  rw [visits, List.mem_flatMap]
  constructor
  · rintro ⟨id, -, hmem⟩
    rw [assignments] at hmem
    split at hmem
    · cases hmem
    · rename_i p' e' hlocate
      obtain ⟨k, hk, hpk⟩ := List.mem_map.1 hmem
      obtain ⟨rfl, rfl⟩ := Prod.mk.inj hpk
      obtain ⟨hp, he⟩ := locate_inside hlocate
      refine ⟨hp, ?_⟩
      cases e' with
      | some k' =>
          rw [elements, List.mem_singleton] at hk
          subst hk
          exact he _ rfl
      | none => exact List.mem_range.1 hk
  · rintro ⟨hp, he⟩
    obtain ⟨id, hid, hlocate⟩ := exists_locate h hp he
    refine ⟨id, hid, ?_⟩
    rw [assignments, hlocate]
    refine List.mem_map.2 ⟨e, ?_, rfl⟩
    split
    · exact List.mem_singleton.2 rfl
    · exact List.mem_range.2 he

/-- A launch with one item per point visits the points of its field, and nothing else. -/
theorem mem_points (h : Addressing.workGroup? t mode caps = .ok w) {p : Point} :
    p ∈ (of t mode).points w ↔ t.layout.Contains p := by
  rw [points, List.mem_filterMap]
  constructor
  · rintro ⟨id, -, hid⟩
    obtain ⟨⟨p', e⟩, hlocate, rfl⟩ := Option.map_eq_some_iff.1 hid
    exact (locate_inside hlocate).1
  · intro hp
    obtain ⟨id, hid, hlocate⟩ := exists_locate h hp t.elements_pos
    exact ⟨id, hid, by rw [hlocate]; rfl⟩

end PointMap

end FieldCircuit
