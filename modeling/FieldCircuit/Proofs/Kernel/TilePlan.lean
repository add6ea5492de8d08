import FieldCircuit.Kernel.TilePlan
import FieldCircuit.Proofs.Field.Layout
import FieldCircuit.Proofs.Launch.Coverage
import Mathlib.Order.Bounds.Basic

/-!
# Tile plans

A plan that the search returns is regular: its threads are a power of two and fill a rectangular tile,
and its tiles cover the image. The search starts from a power of two and only halves it, and it never
goes below two threads on a device that allows two.
-/

namespace FieldCircuit

theorem floorPowerOfTwo_eq (n : Nat) : ∃ k, floorPowerOfTwo n = 2 ^ k := by
  unfold floorPowerOfTwo
  split
  · exact ⟨0, rfl⟩
  · exact ⟨_, rfl⟩

theorem ceilPowerOfTwo_eq (n : Nat) : ∃ k, ceilPowerOfTwo n = 2 ^ k := by
  unfold ceilPowerOfTwo
  split
  · exact ⟨0, rfl⟩
  · exact ⟨_, rfl⟩

theorem floorPowerOfTwo_le {n : Nat} (h : 0 < n) : floorPowerOfTwo n ≤ n := by
  unfold floorPowerOfTwo
  split
  · exact h
  · exact Nat.log2_self_le (by omega)

theorem two_le_floorPowerOfTwo {n : Nat} (h : 2 ≤ n) : 2 ≤ floorPowerOfTwo n := by
  have hlog : 1 ≤ Nat.log2 n := (Nat.le_log2 (by omega)).2 (by simpa using h)
  rw [floorPowerOfTwo, if_neg (by omega)]
  calc 2 = 2 ^ 1 := rfl
    _ ≤ 2 ^ Nat.log2 n := Nat.pow_le_pow_right (by decide) hlog

theorem min_two_pow (a b : Nat) : Nat.min (2 ^ a) (2 ^ b) = 2 ^ Nat.min a b := by
  rcases Nat.le_total a b with h | h
  · rw [show Nat.min a b = a from Nat.min_eq_left h]
    exact Nat.min_eq_left (Nat.pow_le_pow_right (by decide) h)
  · rw [show Nat.min a b = b from Nat.min_eq_right h]
    exact Nat.min_eq_right (Nat.pow_le_pow_right (by decide) h)

theorem threadLimit_eq (caps : Capabilities) : ∃ k ≤ 8, threadLimit caps = 2 ^ k := by
  obtain ⟨k, hk⟩ := floorPowerOfTwo_eq (Nat.min caps.maxWorkgroup maxReductionThreads)
  refine ⟨k, ?_, hk⟩
  have hle : threadLimit caps ≤ 2 ^ 8 := by
    rw [threadLimit]
    by_cases hzero : Nat.min caps.maxWorkgroup maxReductionThreads = 0
    · rw [hzero]
      decide
    · exact (floorPowerOfTwo_le (Nat.pos_of_ne_zero hzero)).trans (Nat.min_le_right _ _)
  rw [threadLimit, hk] at hle
  exact (Nat.pow_le_pow_iff_right (by decide)).1 hle

theorem groupLimit_pos (caps : Capabilities) : 0 < groupLimit caps :=
  Nat.mul_pos (Nat.lt_of_lt_of_le Nat.one_pos (Nat.le_max_right _ _)) (by decide)

namespace TilePlan

/-- A workgroup has one thread per point of its tile, and they are a power of two. -/
structure Tiled (p : TilePlan) : Prop where
  threads : p.threads = 2 ^ p.levels
  tile : p.tileRows * p.tileColumns = p.threads

namespace Tiled

variable {p : TilePlan}

theorem threads_pos (h : p.Tiled) : 0 < p.threads := by
  rw [h.threads]
  exact Nat.two_pow_pos _

theorem tileColumns_pos (h : p.Tiled) : 0 < p.tileColumns :=
  Nat.pos_of_ne_zero fun h0 => by
    have := h.tile
    rw [h0, Nat.mul_zero] at this
    have := h.threads_pos
    omega

theorem tileRows_pos (h : p.Tiled) : 0 < p.tileRows :=
  Nat.pos_of_ne_zero fun h0 => by
    have := h.tile
    rw [h0, Nat.zero_mul] at this
    have := h.threads_pos
    omega

theorem thread_point (h : p.Tiled) {lid : Nat} (hlid : lid < p.threads) :
    lid / p.tileColumns < p.tileRows ∧ lid % p.tileColumns < p.tileColumns := by
  refine ⟨Nat.div_lt_of_lt_mul ?_, Nat.mod_lt _ h.tileColumns_pos⟩
  rwa [Nat.mul_comm, h.tile]

/-- A shifted thread stands for a point of the tile with its halo. -/
theorem halo_point (h : p.Tiled) {lid shift : Nat} (hlid : lid < p.threads)
    (hshift : shift < p.outputs) : lid / p.tileColumns + shift / p.size < p.haloRows ∧
      lid % p.tileColumns + shift % p.size < p.haloColumns := by
  obtain ⟨hrow, hcolumn⟩ := h.thread_point hlid
  have hu : shift / p.size < p.size := Nat.div_lt_of_lt_mul hshift
  have hv : shift % p.size < p.size := Nat.mod_lt _ (Nat.zero_lt_of_lt hu)
  simp only [haloRows, haloColumns, half]
  omega

theorem levels_ne_zero (h : p.Tiled) (hthreads : 2 ≤ p.threads) : p.levels ≠ 0 := by
  intro h0
  rw [h.threads, h0] at hthreads
  omega

end Tiled

/-- The threads of a plan are a power of two and fill a tile, the tiles cover the image, and the filter
has a center. -/
structure Regular (p : TilePlan) : Prop extends p.Tiled where
  down : p.tilesDown = ceilDiv p.rows p.tileRows
  across : p.tilesAcross = ceilDiv p.columns p.tileColumns
  odd : p.size % 2 = 1
  rows : 0 < p.rows
  columns : 0 < p.columns
  groups : 0 < p.groups

namespace Regular

variable {p : TilePlan}

theorem size_eq (h : p.Regular) : p.size = 2 * p.half + 1 := by
  have := h.odd
  simp only [half]
  omega

theorem size_pos (h : p.Regular) : 0 < p.size := by
  have := h.size_eq
  omega

theorem rows_le (h : p.Regular) : p.rows ≤ p.tilesDown * p.tileRows := by
  rw [h.down]
  exact le_ceilDiv_mul _ h.tileRows_pos

theorem columns_le (h : p.Regular) : p.columns ≤ p.tilesAcross * p.tileColumns := by
  rw [h.across]
  exact le_ceilDiv_mul _ h.tileColumns_pos

end Regular

/-- The number of threads is enough to bound the doublings, whatever it is: they end at a power of two
whose square reaches the threads, and at the least one. -/
theorem isLeast_widen (threads : Nat) :
    IsLeast {t | (∃ j, t = 2 ^ j) ∧ threads ≤ t * t} (widen threads threads 1) := by
  have hend : ∀ j, threads ≤ 2 ^ j * 2 ^ j → (∀ i < j, 2 ^ i * 2 ^ i < threads) →
      IsLeast {t | (∃ j, t = 2 ^ j) ∧ threads ≤ t * t} (2 ^ j) := by
    refine fun j hj hsmall => ⟨⟨⟨j, rfl⟩, hj⟩, ?_⟩
    rintro _ ⟨⟨i, rfl⟩, hreach⟩
    refine Nat.pow_le_pow_right (by decide) (Nat.le_of_not_lt fun hi => ?_)
    exact Nat.not_lt.2 hreach (hsmall i hi)
  -- powers below the one where the doublings stand have been found too small
  have hall : ∀ fuel j, threads ≤ j + fuel → (∀ i < j, 2 ^ i * 2 ^ i < threads) →
      IsLeast {t | (∃ j, t = 2 ^ j) ∧ threads ≤ t * t} (widen threads fuel (2 ^ j)) := by
    intro fuel
    induction fuel with
    | zero =>
        intro j hfuel hsmall
        refine hend j (hfuel.trans ?_) hsmall
        exact (Nat.lt_two_pow_self (n := j)).le.trans (Nat.le_mul_self _)
    | succ fuel ih =>
        intro j hfuel hsmall
        rw [widen]
        split
        · rename_i hj
          rw [← pow_succ]
          refine ih (j + 1) (by omega) fun i hi => ?_
          rcases Nat.lt_succ_iff_lt_or_eq.1 hi with hi | rfl
          · exact hsmall i hi
          · exact hj
        · rename_i hj
          exact hend j (Nat.le_of_not_lt hj) hsmall
  exact hall threads 0 (by omega) fun i hi => by cases hi

theorem columnsFor_two_pow (k : Nat) : columnsFor (2 ^ k) = 2 ^ ((k + 1) / 2) := by
  have hleast : IsLeast {t | (∃ j, t = 2 ^ j) ∧ 2 ^ k ≤ t * t} (2 ^ ((k + 1) / 2)) := by
    refine ⟨⟨⟨_, rfl⟩, ?_⟩, ?_⟩
    · rw [← Nat.pow_add]
      exact Nat.pow_le_pow_right (by decide) (by omega)
    · rintro _ ⟨⟨j, rfl⟩, hreach⟩
      rw [← Nat.pow_add, Nat.pow_le_pow_iff_right (by decide)] at hreach
      exact Nat.pow_le_pow_right (by decide) (by omega)
  rw [columnsFor, IsLeast.unique (isLeast_widen _) hleast]
  exact Nat.min_eq_left (Nat.pow_le_pow_right (by decide) (by omega))

theorem half_two_pow {k : Nat} (hk : 0 < k) : 2 ^ k / 2 = 2 ^ (k - 1) := by
  obtain ⟨j, rfl⟩ := Nat.exists_eq_succ_of_ne_zero (by omega : k ≠ 0)
  rw [pow_succ, Nat.mul_div_cancel _ (by decide), Nat.succ_sub_one]

theorem tiled_withThreads (rows columns size : Nat) (caps : Capabilities) (k : Nat) :
    (withThreads rows columns size caps (2 ^ k)).Tiled where
  threads := by simp [withThreads, levels, Nat.log2_two_pow]
  tile := by
    simp only [withThreads, columnsFor_two_pow]
    rw [Nat.pow_div (by omega) (by omega), ← Nat.pow_add]
    congr 1
    omega

theorem regular_withThreads {rows columns size : Nat} (caps : Capabilities) (k : Nat)
    (hrows : 0 < rows) (hcolumns : 0 < columns) (hodd : size % 2 = 1) :
    (withThreads rows columns size caps (2 ^ k)).Regular where
  toTiled := tiled_withThreads rows columns size caps k
  down := rfl
  across := rfl
  odd := hodd
  rows := hrows
  columns := hcolumns
  groups := Nat.lt_of_lt_of_le Nat.one_pos (Nat.le_max_right _ _)

/-- What the search returns: a plan whose threads come from the start by halving, which ends before there
are fewer than sixteen, and for which local memory has room. -/
theorem searchFrom_eq_ok {rows columns size : Nat} {caps : Capabilities} {p : TilePlan} (fuel : Nat)
    {k : Nat} (h : searchFrom rows columns size caps fuel (2 ^ k) = .ok p) :
    ∃ i, p = withThreads rows columns size caps (2 ^ i) ∧ p.fits caps = true ∧
      p.localBytes ≤ caps.localMemory ∧ min 4 k ≤ i ∧ i ≤ k := by
  induction fuel generalizing k with
  | zero => cases h
  | succ fuel ih =>
      rw [searchFrom] at h
      split at h
      · cases h
      · rename_i hfits
        rw [Bool.not_eq_true, Bool.not_eq_false'] at hfits
        split at h
        · rename_i hroom
          rw [← Except.ok.inj h]
          exact ⟨k, rfl, hfits, hroom, Nat.min_le_right 4 k, Nat.le_refl k⟩
        · split at h
          · cases h
          · rename_i hmin
            -- at least sixteen threads are left, so the power does not run out
            have hk : 5 ≤ k := by
              by_contra hk
              exact hmin (Nat.div_lt_of_lt_mul (Nat.pow_lt_pow_right (a := 2) (n := 5) (by decide)
                (by omega)))
            rw [half_two_pow (by omega)] at h
            obtain ⟨i, hp, hfit, hroom, hi, hle⟩ := ih h
            exact ⟨i, hp, hfit, hroom, by omega, by omega⟩

theorem search_eq_ok {rows columns size : Nat} {caps : Capabilities} {p : TilePlan}
    (h : search rows columns size caps = .ok p) :
    ∃ i, p = withThreads rows columns size caps (2 ^ i) ∧ p.fits caps = true ∧
      (2 ≤ caps.maxWorkgroup → 1 ≤ i) := by
  obtain ⟨k, -, hstart⟩ := threadLimit_eq caps
  simp only [search, hstart] at h
  obtain ⟨i, hp, hfits, -, hi, -⟩ := searchFrom_eq_ok _ h
  refine ⟨i, hp, hfits, fun hcaps => ?_⟩
  have htwo : 2 ≤ Nat.min caps.maxWorkgroup maxReductionThreads :=
    Nat.le_min.2 ⟨hcaps, by decide⟩
  have hlarge : 2 ≤ threadLimit caps := two_le_floorPowerOfTwo htwo
  have hk : k ≠ 0 := by
    rintro rfl
    omega
  omega

end TilePlan

end FieldCircuit
