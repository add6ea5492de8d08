import FieldCircuit.Proofs.Kernel.TilePlan

/-!
# Launches respect the device

The groups of a launch are powers of two on every axis and have no more items than the device allows,
and whole groups cover the extents. A group starts from powers of two; halving its widest axis halves
the number of its items, so that as many halvings as that number has bits are enough.
-/

namespace FieldCircuit

theorem exists_half {n : Nat} (h : ∃ k, n = 2 ^ k) (hn : 1 < n) :
    (∃ k, n / 2 = 2 ^ k) ∧ n = 2 * (n / 2) := by
  obtain ⟨k, rfl⟩ := h
  cases k with
  | zero => exact absurd hn (by decide)
  | succ k =>
      have hhalf : 2 ^ (k + 1) / 2 = 2 ^ k := by
        rw [pow_succ, Nat.mul_div_cancel _ (by decide)]
      rw [hhalf]
      exact ⟨⟨k, rfl⟩, pow_succ' 2 k⟩

namespace Axes

structure PowersOfTwo (a : Axes) : Prop where
  x : ∃ k, a.x = 2 ^ k
  y : ∃ k, a.y = 2 ^ k
  z : ∃ k, a.z = 2 ^ k

structure Within (a b : Axes) : Prop where
  x : a.x ≤ b.x
  y : a.y ≤ b.y
  z : a.z ≤ b.z

theorem Within.refl (a : Axes) : a.Within a := ⟨Nat.le_refl _, Nat.le_refl _, Nat.le_refl _⟩

theorem Within.trans {a b c : Axes} (h : a.Within b) (h' : b.Within c) : a.Within c :=
  ⟨Nat.le_trans h.x h'.x, Nat.le_trans h.y h'.y, Nat.le_trans h.z h'.z⟩

theorem halveWidest_within (a : Axes) : a.halveWidest.Within a := by
  unfold halveWidest
  split
  · exact ⟨Nat.div_le_self _ _, Nat.le_refl _, Nat.le_refl _⟩
  · split
    · exact ⟨Nat.le_refl _, Nat.div_le_self _ _, Nat.le_refl _⟩
    · exact ⟨Nat.le_refl _, Nat.le_refl _, Nat.div_le_self _ _⟩

theorem PowersOfTwo.positive {a : Axes} (h : a.PowersOfTwo) : a.Positive := by
  obtain ⟨⟨i, hx⟩, ⟨j, hy⟩, ⟨k, hz⟩⟩ := h
  exact ⟨hx ▸ Nat.two_pow_pos i, hy ▸ Nat.two_pow_pos j, hz ▸ Nat.two_pow_pos k⟩

/-- The axis that is not shorter than the others has more than one item if they all together have. -/
theorem Positive.one_lt_of_widest {a : Axes} (h : a.Positive) (hmany : 1 < a.product) {n : Nat}
    (hx : a.x ≤ n) (hy : a.y ≤ n) (hz : a.z ≤ n) : 1 < n := by
  by_contra hone
  have hax : a.x = 1 := by have := h.x; omega
  have hay : a.y = 1 := by have := h.y; omega
  have haz : a.z = 1 := by have := h.z; omega
  simp [product, hax, hay, haz] at hmany

/-- Halving the widest axis of a group with more than one item leaves half of the items. -/
theorem PowersOfTwo.halveWidest {a : Axes} (h : a.PowersOfTwo) (hmany : 1 < a.product) :
    a.halveWidest.PowersOfTwo ∧ a.product = 2 * a.halveWidest.product := by
  unfold Axes.halveWidest
  split
  · rename_i hx
    obtain ⟨hpower, hdouble⟩ := exists_half h.x
      (h.positive.one_lt_of_widest hmany (Nat.le_refl _) hx.1 hx.2)
    refine ⟨⟨hpower, h.y, h.z⟩, ?_⟩
    calc a.x * a.y * a.z = 2 * (a.x / 2) * a.y * a.z := by rw [← hdouble]
      _ = 2 * (a.x / 2 * a.y * a.z) := by ring
  · split
    · rename_i hx hy
      obtain ⟨hpower, hdouble⟩ := exists_half h.y
        (h.positive.one_lt_of_widest hmany (by omega) (Nat.le_refl _) hy)
      refine ⟨⟨h.x, hpower, h.z⟩, ?_⟩
      calc a.x * a.y * a.z = a.x * (2 * (a.y / 2)) * a.z := by rw [← hdouble]
        _ = 2 * (a.x * (a.y / 2) * a.z) := by ring
    · rename_i hx hy
      obtain ⟨hpower, hdouble⟩ := exists_half h.z
        (h.positive.one_lt_of_widest hmany (by omega) (by omega) (Nat.le_refl _))
      refine ⟨⟨h.x, h.y, hpower⟩, ?_⟩
      calc a.x * a.y * a.z = a.x * a.y * (2 * (a.z / 2)) := by rw [← hdouble]
        _ = 2 * (a.x * a.y * (a.z / 2)) := by ring

end Axes

namespace WorkGroup

/-- A group that has been shrunk often enough has powers of two that are not above those it started
from, and no more items than the limit. -/
theorem shrink_spec {limit : Nat} (hlimit : 0 < limit) (fuel : Nat) {size : Axes}
    (h : size.PowersOfTwo) (hfuel : size.product < 2 ^ fuel) :
    (shrink limit fuel size).PowersOfTwo ∧ (shrink limit fuel size).Within size ∧
      (shrink limit fuel size).product ≤ limit := by
  induction fuel generalizing size with
  | zero => exact ⟨h, .refl _, Nat.le_trans (Nat.le_of_lt_succ hfuel) (Nat.zero_le _)⟩
  | succ fuel ih =>
      rw [shrink]
      split
      · rename_i hlarge
        obtain ⟨hpowers, hhalf⟩ := h.halveWidest (by omega)
        have hrest : size.halveWidest.product < 2 ^ fuel := by
          rw [pow_succ] at hfuel
          omega
        obtain ⟨hpowers', hwithin, hle⟩ := ih hpowers hrest
        exact ⟨hpowers', hwithin.trans size.halveWidest_within, hle⟩
      · rename_i hsmall
        exact ⟨h, .refl _, Nat.le_of_not_lt hsmall⟩

theorem powersOfTwo_defaultLocal (dimensions : Nat) : (defaultLocal dimensions).PowersOfTwo := by
  unfold defaultLocal
  split
  · exact ⟨⟨8, rfl⟩, ⟨0, rfl⟩, ⟨0, rfl⟩⟩
  · exact ⟨⟨4, rfl⟩, ⟨4, rfl⟩, ⟨0, rfl⟩⟩

def ceilings (box : Axes) : Axes :=
  ⟨ceilPowerOfTwo box.x, ceilPowerOfTwo box.y, ceilPowerOfTwo box.z⟩

/-- The group that shrinking starts from: the default sizes, or the powers of two that cover the extents
where these are smaller. -/
def startingGroup (dimensions : Nat) (box : Axes) : Axes :=
  ⟨Nat.min (defaultLocal dimensions).x (ceilPowerOfTwo box.x),
    Nat.min (defaultLocal dimensions).y (ceilPowerOfTwo box.y),
    Nat.min (defaultLocal dimensions).z (ceilPowerOfTwo box.z)⟩

theorem powersOfTwo_startingGroup (dimensions : Nat) (box : Axes) :
    (startingGroup dimensions box).PowersOfTwo := by
  have hmin : ∀ {m : Nat} (n : Nat), (∃ k, m = 2 ^ k) →
      ∃ k, Nat.min m (ceilPowerOfTwo n) = 2 ^ k := by
    rintro m n ⟨i, rfl⟩
    obtain ⟨j, hj⟩ := ceilPowerOfTwo_eq n
    exact ⟨Nat.min i j, by rw [hj, min_two_pow]⟩
  have hbase := powersOfTwo_defaultLocal dimensions
  exact ⟨hmin box.x hbase.x, hmin box.y hbase.y, hmin box.z hbase.z⟩

/-- The group for some extents has powers of two, which are neither above the defaults nor above those
that cover the extents, and no more items than the device allows. -/
theorem localFor_spec (dimensions : Nat) (box : Axes) (caps : Capabilities) :
    (localFor dimensions box caps).PowersOfTwo ∧
      (localFor dimensions box caps).Within (defaultLocal dimensions) ∧
      (localFor dimensions box caps).Within (ceilings box) ∧
      (localFor dimensions box caps).product ≤ Nat.max caps.maxWorkgroup 1 := by
  have hlimit : 0 < Nat.max caps.maxWorkgroup 1 :=
    Nat.lt_of_lt_of_le Nat.one_pos (Nat.le_max_right _ _)
  obtain ⟨hpowers, hwithin, hle⟩ :=
    shrink_spec hlimit _ (powersOfTwo_startingGroup dimensions box) Nat.lt_log2_self
  exact ⟨hpowers,
    hwithin.trans ⟨Nat.min_le_left _ _, Nat.min_le_left _ _, Nat.min_le_left _ _⟩,
    hwithin.trans ⟨Nat.min_le_right _ _, Nat.min_le_right _ _, Nat.min_le_right _ _⟩, hle⟩

/-- On one axis, whole groups of a power of two cover an extent. -/
structure Tiles (size items extent : Nat) : Prop where
  power : ∃ k, size = 2 ^ k
  multiple : size ∣ items
  covers : extent ≤ items

structure Allowed (w : WorkGroup) (caps : Capabilities) : Prop where
  threads : w.localThreads ≤ Nat.max caps.maxWorkgroup 1
  x : Tiles w.localSize.x w.globalSize.x w.extents.x
  y : Tiles w.localSize.y w.globalSize.y w.extents.y
  z : Tiles w.localSize.z w.globalSize.z w.extents.z

theorem tiles_rounded (extent : Nat) {size : Nat} (h : ∃ k, size = 2 ^ k) :
    Tiles size (rounded extent size) extent where
  power := h
  multiple := Nat.dvd_mul_left _ _
  covers := by
    obtain ⟨k, rfl⟩ := h
    exact le_ceilDiv_mul extent (Nat.two_pow_pos k)

theorem covering_allowed {extents : List Nat} {caps : Capabilities} {w : WorkGroup}
    (h : covering extents caps = .ok w) : w.Allowed caps := by
  unfold covering at h
  simp only at h
  split at h
  · obtain ⟨hpowers, -, -, hle⟩ := localFor_spec (axesOf extents) (padded extents) caps
    rw [← Except.ok.inj h]
    exact ⟨hle, tiles_rounded _ hpowers.x, tiles_rounded _ hpowers.y, tiles_rounded _ hpowers.z⟩
  · cases h

theorem covering_single {extents : List Nat} {caps : Capabilities} {w : WorkGroup}
    (h : covering extents caps = .ok w) :
    (w.extents.x = 1 → w.globalSize.x = 1) ∧ (w.extents.y = 1 → w.globalSize.y = 1) ∧
      (w.extents.z = 1 → w.globalSize.z = 1) := by
  unfold covering at h
  simp only at h
  split at h
  · obtain ⟨hpowers, -, hceil, -⟩ := localFor_spec (axesOf extents) (padded extents) caps
    have hsingle : ∀ {extent size : Nat}, 0 < size → size ≤ ceilPowerOfTwo extent → extent = 1 →
        rounded extent size = 1 := by
      rintro extent size hpos hle rfl
      obtain rfl : size = 1 := Nat.le_antisymm hle hpos
      rfl
    rw [← Except.ok.inj h]
    exact ⟨hsingle hpowers.positive.x hceil.x, hsingle hpowers.positive.y hceil.y,
      hsingle hpowers.positive.z hceil.z⟩
  · cases h

/-- Launches of a power of two of threads are allowed if the device has as many. -/
theorem ofGrid_allowed {dimensions groups rows threads : Nat} {caps : Capabilities} {w : WorkGroup}
    (h : ofGrid dimensions groups rows threads = .ok w) (hpower : ∃ k, threads = 2 ^ k)
    (hthreads : threads ≤ Nat.max caps.maxWorkgroup 1) : w.Allowed caps := by
  simp only [ofGrid, bind_eq_ok_iff] at h
  obtain ⟨items, hitems, hw⟩ := h
  obtain rfl := (checked_eq_ok_iff.1 hitems).2
  have hmax : threads.max 1 = threads := by
    obtain ⟨k, rfl⟩ := hpower
    exact Nat.max_eq_left (Nat.two_pow_pos k)
  rw [← Except.ok.inj hw, hmax]
  exact ⟨by simpa [localThreads, Axes.product] using hthreads,
    ⟨hpower, Nat.dvd_mul_left _ _, Nat.le_refl _⟩, ⟨⟨0, rfl⟩, Nat.one_dvd _, Nat.le_refl _⟩,
    ⟨⟨0, rfl⟩, Nat.one_dvd _, Nat.le_refl _⟩⟩

end WorkGroup

end FieldCircuit
