import FieldCircuit.Proofs.Launch.Visits
import FieldCircuit.Proofs.SizeRounding
import Mathlib.Logic.Function.Iterate

/-!
# Shrinking a group to a device

The launch over some extents starts from a group of powers of two and halves its widest axis until
the device allows it. The halving ends, after as few steps as possible, whatever the limit of the
device is. Whole groups then cover the extents with as few items as possible, and the items inside
the extents are the positions of the box, each once.
-/

namespace FieldCircuit

namespace Axes

theorem length_positions (a : Axes) : a.positions.length = a.product := by
  simp only [positions, product, List.length_flatMap, List.length_map, List.length_range,
    List.map_const', List.sum_replicate, smul_eq_mul]
  ring

end Axes

namespace WorkGroup

theorem isLeast_rounded (extent : Nat) {size : Nat} (hsize : 0 < size) :
    IsLeast {n | size ∣ n ∧ extent ≤ n} (rounded extent size) := by
  have hleast := isLeast_ceilDiv extent hsize
  refine ⟨⟨Nat.dvd_mul_left _ _, hleast.1⟩, ?_⟩
  rintro _ ⟨⟨m, rfl⟩, hm⟩
  rw [rounded, Nat.mul_comm size m]
  exact Nat.mul_le_mul_right size (hleast.2 (by rwa [Nat.mul_comm] at hm))

/-- Shrinking halves the widest axis until the limit is kept, and not once more. -/
theorem shrink_eq_iterate {limit : Nat} (hlimit : 0 < limit) (fuel : Nat) {size : Axes}
    (h : size.PowersOfTwo) (hfuel : size.product < 2 ^ fuel) :
    ∃ n, IsLeast {n | (Axes.halveWidest^[n] size).product ≤ limit} n ∧
      shrink limit fuel size = Axes.halveWidest^[n] size := by
  induction fuel generalizing size with
  | zero =>
      have hnone : size.product ≤ limit := by omega
      exact ⟨0, ⟨hnone, fun _ _ => Nat.zero_le _⟩, rfl⟩
  | succ fuel ih =>
      rw [shrink]
      split
      · rename_i hlarge
        obtain ⟨hpowers, hhalf⟩ := h.halveWidest (by omega)
        obtain ⟨n, ⟨hn, hleast⟩, heq⟩ := ih hpowers (by rw [pow_succ] at hfuel; omega)
        refine ⟨n + 1, ⟨hn, ?_⟩, heq⟩
        rintro m hm
        cases m with
        | zero => exact absurd hm (Nat.not_le_of_lt hlarge)
        | succ m => exact Nat.succ_le_succ (hleast hm)
      · rename_i hsmall
        exact ⟨0, ⟨Nat.le_of_not_lt hsmall, fun _ _ => Nat.zero_le _⟩, rfl⟩

/-- A group that is not above the power of two that covers an extent divides it, so that the items
of whole groups stay below it. -/
theorem rounded_spec {size extent : Nat} (hpower : ∃ k, size = 2 ^ k)
    (hceiling : size ≤ ceilPowerOfTwo extent) (hextent : ceilPowerOfTwo extent < sizeBound) :
    IsLeast {n | size ∣ n ∧ extent ≤ n} (rounded extent size) ∧
      rounded extent size < sizeBound := by
  have hmultiple : size ∣ ceilPowerOfTwo extent :=
    two_pow_dvd_of_le hpower (ceilPowerOfTwo_eq extent) hceiling
  obtain ⟨k, rfl⟩ := hpower
  have hleast := isLeast_rounded extent (Nat.two_pow_pos k)
  exact ⟨hleast, (hleast.2 ⟨hmultiple, le_ceilPowerOfTwo extent⟩).trans_lt hextent⟩

/-- The launch over some extents, of which the first three count and zeros are taken as one: as long
as the extents can be rounded to powers of two, there is a launch on every device. Its group arises
from the starting group by halving the widest axis as often as the device requires, and not once
more. It has powers of two that are neither above the defaults nor above those that cover the
extents, and the items of an axis are the least multiple of its group size that covers its extent.
The items inside the extents are the positions of the box, each once, as many as the product of the
extents. -/
theorem covering_shrinks_to_device {extents : List Nat}
    (hsizes : ∀ e ∈ extents.take 3, ceilPowerOfTwo e < sizeBound) (caps : Capabilities) :
    ∃ w, covering extents caps = .ok w ∧
      w.dimensions = Nat.min (Nat.max extents.length 1) 3 ∧
      w.extents = ⟨Nat.max (extents.getD 0 1) 1, Nat.max (extents.getD 1 1) 1,
        Nat.max (extents.getD 2 1) 1⟩ ∧
      (∃ n, IsLeast {n | (Axes.halveWidest^[n] (startingGroup w.dimensions w.extents)).product ≤
            Nat.max caps.maxWorkgroup 1} n ∧
          w.localSize = Axes.halveWidest^[n] (startingGroup w.dimensions w.extents)) ∧
      w.localThreads ≤ Nat.max caps.maxWorkgroup 1 ∧
      (∀ axis ∈ [Axes.x, Axes.y, Axes.z], (∃ k, axis w.localSize = 2 ^ k) ∧
        axis w.localSize ≤ axis (defaultLocal w.dimensions) ∧
        axis w.localSize ≤ ceilPowerOfTwo (axis w.extents) ∧
        IsLeast {n | axis w.localSize ∣ n ∧ axis w.extents ≤ n} (axis w.globalSize) ∧
        axis w.globalSize < sizeBound) ∧
      w.activeItems.Nodup ∧
      (∀ id : Axes, id ∈ w.activeItems ↔
        id.x < w.extents.x ∧ id.y < w.extents.y ∧ id.z < w.extents.z) ∧
      w.activeItems.length = w.extents.x * w.extents.y * w.extents.z := by
  have hsmall : ∀ e ∈ extents.take 3, e ≤ signedBound := fun e he =>
    ceilPowerOfTwo_lt_sizeBound_iff.1 (hsizes e he)
  have hcovering := covering_eq caps hsmall
  obtain ⟨hpowers, hdefault, hceiling, hle⟩ :=
    localFor_spec (axesOf extents) (padded extents) caps
  have hlimit : 0 < Nat.max caps.maxWorkgroup 1 :=
    Nat.lt_of_lt_of_le Nat.one_pos (Nat.le_max_right _ _)
  obtain ⟨n, hn, hiterate⟩ := shrink_eq_iterate hlimit _
    (powersOfTwo_startingGroup (axesOf extents) (padded extents)) Nat.lt_log2_self
  obtain ⟨hx, hy, hz⟩ := padded_le hsmall
  have hround : ∀ {extent : Nat}, extent ≤ signedBound → ceilPowerOfTwo extent < sizeBound :=
    ceilPowerOfTwo_lt_sizeBound_iff.2
  refine ⟨_, hcovering, rfl, rfl, ⟨n, hn, hiterate⟩, hle, ?_, nodup_activeItems _,
    fun id => mem_activeItems hcovering, ?_⟩
  · simp only [List.forall_mem_cons, List.not_mem_nil, false_implies, implies_true, and_true]
    exact ⟨⟨hpowers.x, hdefault.x, hceiling.x, rounded_spec hpowers.x hceiling.x (hround hx)⟩,
      ⟨hpowers.y, hdefault.y, hceiling.y, rounded_spec hpowers.y hceiling.y (hround hy)⟩,
      ⟨hpowers.z, hdefault.z, hceiling.z, rounded_spec hpowers.z hceiling.z (hround hz)⟩⟩
  · exact (activeItems_perm hcovering).length_eq.trans (Axes.length_positions _)

/-- A group of sixteen by sixteen items is halved twice for a device that allows a hundred: first
along the columns, then along the rows. The last extent does not count. -/
theorem covering_shrinks_to_device_hundred : ∃ w,
    covering [100, 50, 0, 9] ⟨49152, 100, 16, 1073741824⟩ = .ok w ∧ w.extents = ⟨100, 50, 1⟩ ∧
      w.localSize = ⟨8, 8, 1⟩ ∧ w.activeItems.length = 100 * 50 * 1 ∧
      IsLeast {n | 8 ∣ n ∧ 50 ≤ n} w.globalSize.y := by
  have hsizes : ∀ e ∈ List.take 3 [100, 50, 0, 9], ceilPowerOfTwo e < sizeBound := by decide
  obtain ⟨w, hw, -, hbox, -, -, haxes, -, -, hlength⟩ :=
    covering_shrinks_to_device hsizes ⟨49152, 100, 16, 1073741824⟩
  have hsize : w.localSize = ⟨8, 8, 1⟩ := by
    rw [← Except.ok.inj ((covering_eq ⟨49152, 100, 16, 1073741824⟩ (by decide)).symm.trans hw)]
    rfl
  have hleast := (haxes Axes.y (by simp)).2.2.2.1
  rw [hsize, hbox] at hleast
  rw [hbox] at hlength
  exact ⟨w, hw, hbox, hsize, hlength, hleast⟩

end WorkGroup

end FieldCircuit
