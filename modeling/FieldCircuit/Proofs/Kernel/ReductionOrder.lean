import FieldCircuit.Proofs.FilterAdjoint

/-!
# Order of a tiled reduction

In which order a tiled stage adds up its products. The additions of floating point words do not
associate, so the order is part of what the stage computes: a balanced tree over the threads of a
tile, and one tile after the other. No law of the arithmetic is assumed, and what local memory
holds at first does not matter, although nodes of the tree are computed from it until the
pipeline is full.
-/

namespace FieldCircuit.Correlation

variable {α : Type} {p : TilePlan} {ar : Arithmetic α} {image gradient : Array α}

/-- The product of a thread of a tile for a shift by `u` rows and `v` columns. Both factors are zero
outside of the image. -/
def shiftedProduct (ar : Arithmetic α) (p : TilePlan) (image gradient : Array α)
    (t u v lid : Nat) : α :=
  let r := tileRow p t + lid / p.tileColumns
  let c := tileColumn p t + lid % p.tileColumns
  ar.mul
    (planeWord ar.zero p.rows p.columns image ((r + u : Nat) - (p.half : Int))
      ((c + v : Nat) - (p.half : Int)))
    (planeWord ar.zero p.rows p.columns gradient r c)

/-- The balanced tree over the products of a tile, with the threads in order as its leaves. -/
def tileTree (ar : Arithmetic α) (p : TilePlan) (image gradient : Array α) (t u v : Nat) : α :=
  treeNode ar.add (fun leaf => shiftedProduct ar p image gradient t u v (leaf - p.threads))
    p.levels 1

/-- The trees of the tiles of a workgroup, added up from zero in the order of the tiles. -/
def orderedSum (ar : Arithmetic α) (p : TilePlan) (image gradient : Array α) (g u v : Nat) : α :=
  (strided g p.tiles p.groups).foldl
    (fun sum t => ar.add sum (tileTree ar p image gradient t u v)) ar.zero

theorem product_shift (r0 c0 u lid : Nat) {v : Nat} (hv : v < p.size) :
    product ar p image gradient r0 c0 (u * p.size + v) lid = ar.mul
      (planeWord ar.zero p.rows p.columns image
        ((r0 + lid / p.tileColumns + u : Nat) - (p.half : Int))
        ((c0 + lid % p.tileColumns + v : Nat) - (p.half : Int)))
      (weightValue ar p gradient r0 c0 lid) := by
  rw [product, digits_div hv, digits_mod hv, Nat.add_assoc r0, Nat.add_assoc c0]

theorem tileSum_shift (t u : Nat) {v : Nat} (hv : v < p.size) :
    tileSum ar p image gradient t (u * p.size + v) = tileTree ar p image gradient t u v := by
  rw [tileSum, shiftNode, tileTree]
  congr 1
  funext leaf
  exact product_shift (tileRow p t) (tileColumn p t) u (leaf - p.threads) hv

theorem groupWord_shift (hlevels : p.levels ≠ 0) (g u : Nat) {v : Nat} (hv : v < p.size) :
    groupWord ar p image gradient g (u * p.size + v) = orderedSum ar p image gradient g u v := by
  simp only [groupWord, if_neg hlevels, tileSum_shift _ u hv, orderedSum]

/-- A tiled stage adds up in a fixed order, whatever the operations on words are. A workgroup that
starts with any words in local memory succeeds, and for the shift by `u` rows and `v` columns it
leaves the trees over the products of its tiles, added up from zero in the order of the tiles. So
does a launch in the row of every workgroup. -/
theorem reduces_in_order (hp : p.Tiled) (hthreads : 2 ≤ p.threads) (ar : Arithmetic α)
    (himage : image.size = p.rows * p.columns) (hgradient : gradient.size = p.rows * p.columns) :
    (∀ (m : LocalMemory α) (g : Nat), m.Sized p → ∃ m', group ar p image gradient m g = .ok m' ∧
      m'.Sized p ∧ m'.staging.size = p.outputs ∧ ∀ u < p.size, ∀ v < p.size,
        m'.staging[u * p.size + v]? = some (orderedSum ar p image gradient g u v)) ∧
    ∀ (w : WorkGroup) (output : Array α), output.size = w.groupCount * p.outputs →
      ∃ words, (Program.correlation ⟨p⟩).run ar w [image, gradient] output = .ok words ∧
        words.size = w.groupCount * p.outputs ∧ ∀ g < w.groupCount, ∀ u < p.size, ∀ v < p.size,
          words[g * p.outputs + (u * p.size + v)]? =
            some (orderedSum ar p image gradient g u v) := by
  have hlevels := hp.levels_ne_zero hthreads
  have hshift : ∀ u < p.size, ∀ v < p.size, u * p.size + v < p.outputs := fun u hu v hv =>
    lt_mul_of_digits hu hv
  constructor
  · intro m g hm
    obtain ⟨m', hgroup, hm', hstaging⟩ := group_eq_ok ar hp himage hgradient hm g
    refine ⟨m', hgroup, hm', by rw [hstaging, size_table], fun u hu v hv => ?_⟩
    rw [hstaging, getElem?_table (hshift u hu v hv), groupWord_shift hlevels g u hv]
  · intro w output houtput
    refine ⟨_, run_eq_ok (k := ⟨p⟩) hp ar himage hgradient houtput, size_table _ _,
      fun g hg u hu v hv => ?_⟩
    have hrow := hshift u hu v hv
    rw [getElem?_table (lt_mul_of_digits hg hrow), digits_div hrow, digits_mod hrow,
      groupWord_shift hlevels g u hv]

/-- Three rows of six columns are cut into tiles of two points, of which only the fifth lies inside the
image together with its halo. The first of four workgroups takes the first, the fifth and the ninth. Here
words are subtracted wherever the stage adds, which makes the order visible. -/
theorem reduces_in_order_three_by_six :
    let p := TilePlan.withThreads 3 6 3 ⟨4096, 8, 1, 65536⟩ 2
    let ar : Arithmetic ℤ := { Arithmetic.integers with add := (· - ·) }
    let image : Array ℤ := #[1, 2, 3, 4, 5, 6, 7, 8, 9, 10, 11, 12, 13, 14, 15, 16, 17, 18]
    strided 0 p.tiles p.groups = [0, 4, 8] ∧
      ∃ m', group ar p image image ⟨Array.replicate 12 7, Array.replicate 5 7, Array.replicate 5 7,
          #[]⟩ 0 = .ok m' ∧
        m'.staging[0 * 3 + 1]? = some (0 - (0 - 0) - (3 * 9 - 4 * 10) - (11 * 17 - 12 * 18)) := by
  intro p ar image
  have hp : p.Tiled := (TilePlan.regular_withThreads _ 1 (by decide) (by decide) rfl).toTiled
  have himage : image.size = p.rows * p.columns := rfl
  obtain ⟨hgroup, -⟩ := reduces_in_order hp (by decide) ar himage himage
  obtain ⟨m', hm', -, -, hwords⟩ := hgroup
    ⟨Array.replicate 12 7, Array.replicate 5 7, Array.replicate 5 7, #[]⟩ 0
    ⟨by decide, by decide, by decide⟩
  have hvalue : orderedSum ar p image image 0 0 1 =
      0 - (0 - 0) - (3 * 9 - 4 * 10) - (11 * 17 - 12 * 18) := by decide
  exact ⟨by decide, m', hm', (hwords 0 (by decide) 1 (by decide)).trans (congrArg some hvalue)⟩

end FieldCircuit.Correlation
