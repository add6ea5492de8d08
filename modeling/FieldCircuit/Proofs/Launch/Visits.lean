import FieldCircuit.Proofs.Kernel.PointStages
import FieldCircuit.Proofs.Launch.Limits
import Mathlib.Data.List.Nodup

/-!
# Launches visit their fields once

The work item that is responsible for a tensor element of a point can be told from the point and the
element, so that no two items of a launch share one. Axes that do not tell items apart have a single
item, because the launch does not extend along them.
-/

namespace FieldCircuit

theorem Axes.nodup_positions (a : Axes) : a.positions.Nodup := by
  have hlines : ∀ j k, ((List.range a.x).map fun i => Axes.mk i j k).Nodup := fun j k =>
    List.nodup_range.map fun i i' heq => congrArg Axes.x heq
  have hplanes : ∀ k, ((List.range a.y).flatMap fun j =>
      (List.range a.x).map fun i => Axes.mk i j k).Nodup := by
    intro k
    refine List.nodup_flatMap.2 ⟨fun j _ => hlines j k, List.nodup_range.imp fun hne => ?_⟩
    intro id hid hid'
    obtain ⟨_, _, rfl⟩ := List.mem_map.1 hid
    obtain ⟨_, _, heq⟩ := List.mem_map.1 hid'
    exact hne (congrArg Axes.y heq).symm
  refine List.nodup_flatMap.2 ⟨fun k _ => hplanes k, List.nodup_range.imp fun hne => ?_⟩
  intro id hid hid'
  obtain ⟨_, _, hid⟩ := List.mem_flatMap.1 hid
  obtain ⟨_, _, rfl⟩ := List.mem_map.1 hid
  obtain ⟨_, _, hid'⟩ := List.mem_flatMap.1 hid'
  obtain ⟨_, _, heq⟩ := List.mem_map.1 hid'
  exact hne (congrArg Axes.z heq).symm

namespace WorkGroup

theorem nodup_activeItems (w : WorkGroup) : w.activeItems.Nodup :=
  w.globalSize.nodup_positions.filter _

/-- Devices round a launch over a box differently, but the items inside the box are the same. -/
theorem activeItems_perm {extents : List Nat} {caps : Capabilities} {w : WorkGroup}
    (h : covering extents caps = .ok w) : w.activeItems.Perm (padded extents).positions :=
  (List.perm_ext_iff_of_nodup w.nodup_activeItems (padded extents).nodup_positions).2 fun _ =>
    (mem_activeItems h).trans Axes.mem_positions.symm

end WorkGroup

namespace PointMap

def item (m : PointMap) (p : Point) (e : Nat) : Axes :=
  match m.dimensions, m.perElement with
  | 3, true => ⟨p.column, p.row, e * m.layout.layers + p.layer⟩
  | 2, true => ⟨p.column, p.row, e⟩
  | 1, true => ⟨p.column, e, 0⟩
  | _, true => ⟨e, 0, 0⟩
  | _, false => ⟨p.column, p.row, p.layer⟩

variable {t : FieldType} {mode : AddressingMode} {caps : Capabilities} {w : WorkGroup}

theorem isSome_of_locate {m : PointMap} {id : Axes} {p : Point} {e : Option Nat}
    (h : m.locate id = some (p, e)) : e.isSome = m.perElement := by
  unfold locate at h
  simp only [Option.ite_none_right_eq_some] at h
  obtain ⟨-, rfl⟩ := Prod.mk.inj (Option.some.inj h.2)
  unfold layerElement
  split <;> simp_all

/-- What a work item is responsible for: its point, and the elements that its mode gives to it. -/
theorem mem_assignments {m : PointMap} {id : Axes} {p : Point} {e : Nat} :
    (p, e) ∈ m.assignments id ↔
      e < m.layout.elements ∧ m.locate id = some (p, if m.perElement then some e else none) := by
  unfold assignments
  cases hlocate : m.locate id with
  | none => simp
  | some located =>
      obtain ⟨q, k⟩ := located
      have hsome := isSome_of_locate hlocate
      obtain ⟨-, hbound⟩ := locate_inside hlocate
      cases k with
      | none =>
          rw [← hsome]
          simp [elements, and_comm, eq_comm]
      | some k =>
          rw [← hsome]
          have hk := hbound k rfl
          simp only [elements, List.map_cons, List.map_nil, List.mem_singleton, Prod.mk.injEq,
            Option.some.injEq, Option.isSome_some, if_true]
          constructor
          · rintro ⟨rfl, rfl⟩
            exact ⟨hk, rfl, rfl⟩
          · rintro ⟨-, rfl, rfl⟩
            exact ⟨rfl, rfl⟩

/-- The items of a launch over a field can be told from what they are responsible for. -/
theorem eq_item_of_locate (h : Addressing.workGroup? t mode caps = .ok w) {id : Axes}
    (hid : id ∈ w.workItems) {p : Point} {e : Option Nat}
    (hlocate : (of t mode).locate id = some (p, e)) : id = (of t mode).item p (e.getD 0) := by
  have hcovering := Addressing.workGroup?_eq_ok h
  obtain ⟨hbox, -⟩ := WorkGroup.covering_eq_ok hcovering
  obtain ⟨hx, hy, hz⟩ := WorkGroup.covering_single hcovering
  obtain ⟨hidx, hidy, hidz⟩ := Axes.mem_positions.1 hid
  rw [hbox, Addressing.padded_launchExtents] at hx hy hz
  have hdim : t.dimensions ≤ 3 := t.field_le
  have hcolumns : t.dimensions = 0 → t.columns = 1 := fun h => t.fromInner_eq_one (by omega)
  have hrows : t.dimensions ≤ 1 → t.rows = 1 := fun h => t.fromInner_eq_one (by omega)
  have hlayers : t.dimensions ≤ 2 → t.layers = 1 := fun h => t.fromInner_eq_one (by omega)
  obtain ⟨i, j, k⟩ := id
  simp only at hidx hidy hidz
  unfold locate at hlocate
  simp only [Option.ite_none_right_eq_some] at hlocate
  obtain ⟨rfl, rfl⟩ := Prod.mk.inj (Option.some.inj hlocate.2)
  generalize hd : t.dimensions = d at *
  cases hmode : mode == .tensorElement with
  | true =>
    rw [hmode] at hx hy hz
    obtain rfl | rfl | rfl | rfl : d = 0 ∨ d = 1 ∨ d = 2 ∨ d = 3 := by omega
    · simp [item, layerElement, of, perElement, hd, hmode] at *
      omega
    · simp [item, layerElement, of, perElement, hd, hmode] at *
      omega
    · simp [item, layerElement, of, perElement, hd, hmode]
    · simp [item, layerElement, of, perElement, hd, hmode]
      rw [Nat.div_add_mod']
  | false =>
    rw [hmode] at hx hy hz
    simp only at hx hy hz
    obtain rfl | rfl | rfl | rfl : d = 0 ∨ d = 1 ∨ d = 2 ∨ d = 3 := by omega
    · simp [item, layerElement, of, perElement, hd, hmode] at *
      omega
    · simp [item, layerElement, of, perElement, hd, hmode] at *
      omega
    · simp [item, layerElement, of, perElement, hd, hmode] at *
      omega
    · simp [item, layerElement, of, perElement, hd, hmode]

/-- Exactly one item of a launch is responsible for a tensor element of a point. -/
theorem existsUnique_item (h : Addressing.workGroup? t mode caps = .ok w) {p : Point} {e : Nat}
    (hp : t.layout.Contains p) (he : e < t.layout.elements) :
    ∃! id, id ∈ w.workItems ∧ (p, e) ∈ (of t mode).assignments id := by
  obtain ⟨id, hid, hassigned⟩ := List.mem_flatMap.1 ((mem_visits h).2 ⟨hp, he⟩)
  refine ⟨id, ⟨hid, hassigned⟩, ?_⟩
  rintro other ⟨hother, hassigned'⟩
  rw [eq_item_of_locate h hother (mem_assignments.1 hassigned').2,
    eq_item_of_locate h hid (mem_assignments.1 hassigned).2]

theorem nodup_assignments (m : PointMap) (id : Axes) : (m.assignments id).Nodup := by
  unfold assignments
  split
  · exact List.nodup_nil
  · rename_i p e _
    have helements : (m.elements e).Nodup := by
      cases e with
      | none => exact List.nodup_range
      | some k => exact List.nodup_singleton k
    exact helements.map (Prod.mk_right_injective p)

/-- A launch visits no tensor element of a point twice. -/
theorem nodup_visits (h : Addressing.workGroup? t mode caps = .ok w) :
    ((of t mode).visits w).Nodup := by
  refine List.nodup_flatMap.2 ⟨fun id _ => nodup_assignments _ id,
    w.globalSize.nodup_positions.imp_of_mem ?_⟩
  intro id other hid hother hne pair hpair hpair'
  obtain ⟨p, e⟩ := pair
  obtain ⟨hp, he⟩ := (mem_visits h).1 (List.mem_flatMap.2 ⟨id, hid, hpair⟩)
  exact hne ((existsUnique_item h hp he).unique ⟨hid, hpair⟩ ⟨hother, hpair'⟩)

end PointMap

/-- The launch that is selected for an operation visits every tensor element of every point of its
result, and nothing else, and it visits each one once: no two of its work items, and no item twice,
are responsible for the same element. -/
theorem Addressing.select_visits_once {cls : OpClass} {inputs : List FieldType} {output : FieldType}
    {caps : Capabilities} {mode : AddressingMode} {w : WorkGroup}
    (h : Addressing.select cls inputs output caps = .ok (mode, w)) :
    w.workItems.Nodup ∧ ((PointMap.of output mode).visits w).Nodup ∧
      ∀ layer row column element : Nat,
        ((⟨layer, row, column⟩, element) ∈ (PointMap.of output mode).visits w ↔
          layer < output.layers ∧ row < output.rows ∧ column < output.columns ∧
            element < output.elements) ∧
        (layer < output.layers → row < output.rows → column < output.columns →
          element < output.elements →
          ∃! id, id ∈ w.workItems ∧
            (⟨layer, row, column⟩, element) ∈ (PointMap.of output mode).assignments id) := by
  have hlaunch := Addressing.select_eq_ok h
  refine ⟨w.globalSize.nodup_positions, PointMap.nodup_visits hlaunch, ?_⟩
  intro layer row column element
  refine ⟨?_, fun hlayer hrow hcolumn helement =>
    PointMap.existsUnique_item hlaunch ⟨hlayer, hrow, hcolumn⟩ helement⟩
  rw [PointMap.mem_visits hlaunch]
  constructor
  · rintro ⟨⟨hlayer, hrow, hcolumn⟩, helement⟩
    exact ⟨hlayer, hrow, hcolumn, helement⟩
  · rintro ⟨hlayer, hrow, hcolumn, helement⟩
    exact ⟨⟨hlayer, hrow, hcolumn⟩, helement⟩

def FieldType.twoLayers : FieldType :=
  ⟨⟨[2, 3, 5]⟩, ⟨[6]⟩, .float, by decide, by decide, by decide, by decide⟩

/-- On a device with seven items per group, 288 items stand for the 180 tensor elements of two layers of
vectors, and one of them for the fourth element of the last point. -/
theorem Addressing.select_visits_once_two_layers : ∃ w,
    Addressing.select .elementWise [.twoLayers] .twoLayers ⟨49152, 7, 16, 1073741824⟩ =
        .ok (.tensorElement, w) ∧
      w.globalSize = ⟨6, 4, 12⟩ ∧
      ((PointMap.of .twoLayers .tensorElement).visits w).Nodup ∧
      ∃! id, id ∈ w.workItems ∧
        (⟨1, 2, 4⟩, 3) ∈ (PointMap.of .twoLayers .tensorElement).assignments id := by
  obtain ⟨w, hw, hsize⟩ : ∃ w,
      Addressing.select .elementWise [.twoLayers] .twoLayers ⟨49152, 7, 16, 1073741824⟩ =
        .ok (.tensorElement, w) ∧ w.globalSize = ⟨6, 4, 12⟩ := ⟨_, rfl, rfl⟩
  obtain ⟨-, hnodup, hvisits⟩ := Addressing.select_visits_once hw
  exact ⟨w, hw, hsize, hnodup,
    (hvisits 1 2 4 3).2 (by decide) (by decide) (by decide) (by decide)⟩

end FieldCircuit
