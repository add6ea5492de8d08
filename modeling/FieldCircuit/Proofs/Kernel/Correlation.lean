import FieldCircuit.Proofs.Kernel.Sound
import FieldCircuit.Proofs.Kernel.TreePipeline
import Mathlib.Algebra.BigOperators.Ring.Finset

/-!
# Tiled correlation

What a launch stores: each workgroup leaves, for every shift, the sum over its tiles of the trees over
their products. Words outside of a plane are zero, be they in the halo of a tile or in the part
of a tile that sticks out. No law of the arithmetic is assumed for this. In a commutative ring the
rows of all workgroups add up to the correlation.
-/

namespace FieldCircuit

/-- The words with the operations of the kernels are a commutative ring. -/
structure Arithmetic.IsRing {α : Type} [CommRing α] (ar : Arithmetic α) : Prop where
  zero : ar.zero = 0
  add : ∀ x y, ar.add x y = x + y
  mul : ∀ x y, ar.mul x y = x * y

namespace Correlation

variable {α : Type} {p : TilePlan}

/-- The word of a plane at a position that may lie outside of it. -/
def planeWord (zero : α) (rows columns : Nat) (words : Array α) (r c : Int) : α :=
  if 0 ≤ r ∧ r < rows ∧ 0 ≤ c ∧ c < columns then words.getD (r.toNat * columns + c.toNat) zero
  else zero

theorem sample_eq_ok (ar : Arithmetic α) {image : Array α} (h : image.size = p.rows * p.columns)
    (r c : Int) : sample ar p image r c = .ok (planeWord ar.zero p.rows p.columns image r c) := by
  unfold sample planeWord
  split
  · rename_i hin
    have hlt : r.toNat * p.columns + c.toNat < image.size := by
      rw [h]
      exact lt_mul_of_digits (by omega) (by omega)
    exact fetch_getD hlt ar.zero
  · rfl

/-- The word of a halo that belongs to the image at a distance from the first point of a tile. -/
def haloValue (ar : Arithmetic α) (p : TilePlan) (image : Array α) (r0 c0 k : Nat) : α :=
  planeWord ar.zero p.rows p.columns image ((r0 + k / p.haloColumns : Nat) - (p.half : Int))
    ((c0 + k % p.haloColumns : Nat) - (p.half : Int))

/-- The unchecked loads of a tile inside the image are those that would pass the check. -/
theorem haloWord_eq_ok (ar : Arithmetic α) (hp : p.Tiled) {image : Array α}
    (h : image.size = p.rows * p.columns) {r0 c0 k : Nat} (hk : k < p.haloWords) :
    haloWord ar p image r0 c0 k = .ok (haloValue ar p image r0 c0 k) := by
  have hcolumns : 0 < p.haloColumns := Nat.add_pos_left hp.tileColumns_pos _
  have hkr : k / p.haloColumns < p.tileRows + 2 * p.half :=
    Nat.div_lt_of_lt_mul (by rwa [Nat.mul_comm])
  have hkc : k % p.haloColumns < p.tileColumns + 2 * p.half := Nat.mod_lt _ hcolumns
  simp only [haloWord, haloValue]
  generalize k / p.haloColumns = kr at hkr ⊢
  generalize k % p.haloColumns = kc at hkc ⊢
  split
  · rename_i hinside
    simp only [interior, Bool.and_eq_true, decide_eq_true_eq] at hinside
    obtain ⟨⟨⟨hr, hc⟩, hrows⟩, hcols⟩ := hinside
    have hrow : r0 - p.half + kr < p.rows := by omega
    have hcol : c0 - p.half + kc < p.columns := by omega
    have hindex : (r0 - p.half + kr) * p.columns + c0 - p.half + kc =
        (r0 - p.half + kr) * p.columns + (c0 - p.half + kc) := by omega
    have hr' : ((r0 + kr : Nat) - (p.half : Int)).toNat = r0 - p.half + kr := by omega
    have hc' : ((c0 + kc : Nat) - (p.half : Int)).toNat = c0 - p.half + kc := by omega
    rw [hindex, fetch_getD (by rw [h]; exact lt_mul_of_digits hrow hcol) ar.zero, planeWord,
      if_pos (by omega), hr', hc']
  · exact sample_eq_ok ar h _ _

theorem foldlM_strided {ε : Type} (f : Array α → Nat → Except ε (Array α)) (threads : List Nat)
    (walk : Nat → List Nat) (a : Array α) :
    threads.foldlM (fun a lid => (walk lid).foldlM f a) a = (threads.flatMap walk).foldlM f a := by
  induction threads generalizing a with
  | nil => rfl
  | cons lid threads ih =>
      rw [List.foldlM_cons, List.flatMap_cons, List.foldlM_append]
      congr 1
      funext b
      exact ih b

/-- The threads together load the whole halo. -/
theorem loadHalo_eq_ok (ar : Arithmetic α) (hp : p.Tiled) {image halo : Array α}
    (himage : image.size = p.rows * p.columns) (hhalo : halo.size = p.haloWords) (r0 c0 : Nat) :
    loadHalo ar p image r0 c0 (List.range p.threads) halo =
      .ok (table p.haloWords (haloValue ar p image r0 c0)) := by
  have hthreads := hp.threads_pos
  have hmem : ∀ k, k ∈ (List.range p.threads).flatMap
      (fun lid => strided lid p.haloWords p.threads) ↔ k < p.haloWords := by
    intro k
    rw [List.mem_flatMap]
    constructor
    · rintro ⟨lid, _, hk⟩
      exact ((mem_strided hthreads).1 hk).2.1
    · intro hk
      refine ⟨k % p.threads, List.mem_range.2 (Nat.mod_lt _ hthreads), ?_⟩
      have hdiv := Nat.div_add_mod k p.threads
      refine (mem_strided hthreads).2 ⟨Nat.mod_le _ _, hk, ?_⟩
      rw [show k - k % p.threads = p.threads * (k / p.threads) by omega, Nat.mul_mod_right]
  have hfold := (foldlM_eq_ok (p := fun a : Array α => a.size = p.haloWords)
    (f := fun halo k => do store halo k (← haloWord ar p image r0 c0 k))
    (g := fun a k => a.setIfInBounds k (haloValue ar p image r0 c0 k))
    (l := (List.range p.threads).flatMap fun lid => strided lid p.haloWords p.threads) hhalo (by
      intro a k hk ha
      have hlt := (hmem k).1 hk
      rw [haloWord_eq_ok ar hp himage hlt, ok_bind, store_eq_ok_setIfInBounds _ (by omega)]
      exact ⟨rfl, by simpa using ha⟩)).1
  rw [loadHalo, foldlM_strided, hfold]
  congr 1
  have hstored : ∀ l : List Nat,
      l.foldl (fun a k => a.setIfInBounds k (haloValue ar p image r0 c0 k)) halo =
        stored halo (l.map fun k => (k, haloValue ar p image r0 c0 k)) := by
    intro l
    rw [stored, List.foldl_map]
  rw [hstored]
  refine (Fills.of_map id _ (fun k hk => (hmem k).1 hk) fun k hk =>
    ⟨k, (hmem k).2 hk, rfl⟩).stored_eq_table hhalo ?_
  intro s hs
  obtain ⟨k, _, rfl⟩ := List.mem_map.1 hs
  rfl

def weightValue (ar : Arithmetic α) (p : TilePlan) (field : Array α) (r0 c0 lid : Nat) : α :=
  planeWord ar.zero p.rows p.columns field (r0 + lid / p.tileColumns : Nat)
    (c0 + lid % p.tileColumns : Nat)

theorem weight_eq_ok (ar : Arithmetic α) {field : Array α} (h : field.size = p.rows * p.columns)
    (r0 c0 lid : Nat) : weight ar p field r0 c0 lid = .ok (weightValue ar p field r0 c0 lid) := by
  simp only [weight, weightValue, planeWord]
  generalize r0 + lid / p.tileColumns = r
  generalize c0 + lid % p.tileColumns = c
  by_cases hin : r < p.rows ∧ c < p.columns
  · rw [if_pos hin, if_pos (by omega), Int.toNat_natCast, Int.toNat_natCast]
    exact fetch_getD (by rw [h]; exact lt_mul_of_digits hin.1 hin.2) ar.zero
  · rw [if_neg hin, if_neg (by omega)]

def product (ar : Arithmetic α) (p : TilePlan) (image field : Array α) (r0 c0 shift lid : Nat) : α :=
  ar.mul
    (planeWord ar.zero p.rows p.columns image
      ((r0 + (lid / p.tileColumns + shift / p.size) : Nat) - (p.half : Int))
      ((c0 + (lid % p.tileColumns + shift % p.size) : Nat) - (p.half : Int)))
    (weightValue ar p field r0 c0 lid)

/-- A halo that is loaded together with the weights supplies the products of a tile. -/
theorem supplies (ar : Arithmetic α) (hp : p.Tiled) (image field : Array α) (r0 c0 : Nat) :
    Supplies ar p (table p.haloWords (haloValue ar p image r0 c0))
      (table p.threads (weightValue ar p field r0 c0)) (product ar p image field r0 c0) := by
  intro it hit lid hlid
  obtain ⟨hrow, hcol⟩ := hp.halo_point hlid hit
  have hlt : (lid / p.tileColumns + it / p.size) * p.haloColumns +
      (lid % p.tileColumns + it % p.size) < p.haloWords := lt_mul_of_digits hrow hcol
  refine ⟨_, _, ?_, fetch_table hlid, rfl⟩
  rw [Nat.add_assoc _ (lid % p.tileColumns), fetch_table hlt, haloValue, digits_div hcol,
    digits_mod hcol]

structure LocalMemory.Sized (p : TilePlan) (m : LocalMemory α) : Prop where
  halo : m.halo.size = p.haloWords
  even : m.even.size = p.treeWords
  odd : m.odd.size = p.treeWords

def tileSum (ar : Arithmetic α) (p : TilePlan) (image field : Array α) (t shift : Nat) : α :=
  shiftNode ar p (product ar p image field (tileRow p t) (tileColumn p t)) shift p.levels 1

def staged (ar : Arithmetic α) (p : TilePlan) (image field : Array α) (s : Nat → α)
    (t i : Nat) : α :=
  if p.levels = 0 then s i else ar.add (s i) (tileSum ar p image field t i)

theorem tile_eq_ok (ar : Arithmetic α) (hp : p.Tiled) {image field : Array α}
    (himage : image.size = p.rows * p.columns) (hfield : field.size = p.rows * p.columns)
    {m : LocalMemory α} (hm : m.Sized p) {s : Nat → α} (hs : m.staging = table p.outputs s)
    (t : Nat) : ∃ m', tile ar p image field m t = .ok m' ∧ m'.Sized p ∧
      m'.staging = table p.outputs (staged ar p image field s t) := by
  obtain ⟨halo, even, odd, _⟩ := m
  obtain ⟨hhalo, heven, hodd⟩ := hm
  subst hs
  have hweights : (List.range p.threads).mapM (weight ar p field (tileRow p t) (tileColumn p t)) =
      .ok ((List.range p.threads).map (weightValue ar p field (tileRow p t) (tileColumn p t))) :=
    mapM_eq_ok fun lid _ => weight_eq_ok ar hfield _ _ lid
  obtain ⟨m', n, hrun, hhalo', heven', hodd', hstaging⟩ := iterations_eq_ok
    (m := ⟨table p.haloWords (haloValue ar p image (tileRow p t) (tileColumn p t)), even, odd,
      table p.outputs s⟩) hp (supplies ar hp image field (tileRow p t) (tileColumn p t)) heven hodd
    rfl
  refine ⟨m', ?_, ⟨by rw [hhalo', size_table], heven', hodd'⟩, hstaging⟩
  simp only [tile]
  rw [loadHalo_eq_ok ar hp himage hhalo, ok_bind, hweights, ok_bind, toArray_map_range, hrun]
  rfl

def groupWord (ar : Arithmetic α) (p : TilePlan) (image field : Array α) (g i : Nat) : α :=
  (strided g p.tiles p.groups).foldl
    (fun x t => if p.levels = 0 then x else ar.add x (tileSum ar p image field t i)) ar.zero

theorem group_eq_ok (ar : Arithmetic α) (hp : p.Tiled) {image field : Array α}
    (himage : image.size = p.rows * p.columns) (hfield : field.size = p.rows * p.columns)
    {m : LocalMemory α} (hm : m.Sized p) (g : Nat) :
    ∃ m', group ar p image field m g = .ok m' ∧ m'.Sized p ∧
      m'.staging = table p.outputs (groupWord ar p image field g) := by
  have htiles : ∀ (tiles : List Nat) (m : LocalMemory α) (s : Nat → α), m.Sized p →
      m.staging = table p.outputs s →
      ∃ m', tiles.foldlM (tile ar p image field) m = .ok m' ∧ m'.Sized p ∧
        m'.staging = table p.outputs fun i => tiles.foldl (fun x t =>
          if p.levels = 0 then x else ar.add x (tileSum ar p image field t i)) (s i) := by
    intro tiles
    induction tiles with
    | nil =>
        intro m s hm hs
        exact ⟨m, rfl, hm, hs⟩
    | cons t tiles ih =>
        intro m s hm hs
        obtain ⟨m₁, hrun, hm₁, hs₁⟩ := tile_eq_ok ar hp himage hfield hm hs t
        obtain ⟨m', hrest, hm', hs'⟩ := ih m₁ _ hm₁ hs₁
        exact ⟨m', by rw [List.foldlM_cons, hrun, ok_bind, hrest], hm', hs'⟩
  exact htiles _ { m with staging := Array.replicate p.outputs ar.zero } _
    ⟨hm.halo, hm.even, hm.odd⟩ (replicate_eq_table _ _)

def rowStores (ar : Arithmetic α) (p : TilePlan) (image field : Array α) (g : Nat) :
    List (Nat × α) :=
  (List.range p.outputs).map fun i => (g * p.outputs + i, groupWord ar p image field g i)

theorem stores_eq_ok {k : Correlation} {w : WorkGroup} (hp : k.plan.Tiled) (ar : Arithmetic α)
    {image field : Array α} (himage : image.size = k.plan.rows * k.plan.columns)
    (hfield : field.size = k.plan.rows * k.plan.columns) :
    k.stores ar w [image, field] =
      .ok ((List.range w.groupCount).flatMap (rowStores ar k.plan image field)) := by
  have hinit : (LocalMemory.initial ar k.plan).Sized k.plan := by
    constructor <;> simp [LocalMemory.initial]
  have himage0 : fetch [image, field].toArray 0 = .ok image := rfl
  have hfield0 : fetch [image, field].toArray 1 = .ok field := rfl
  obtain ⟨⟨m, rows⟩, hrun, -, hrows⟩ := foldlM_range_eq_ok (n := w.groupCount)
    (b := (LocalMemory.initial ar k.plan, ([] : List (List (Nat × α)))))
    (f := fun s g => do
      let m ← group ar k.plan image field s.1 g
      let row := m.staging.toList.zipIdx.map fun word => (g * k.plan.outputs + word.2, word.1)
      return (m, row :: s.2))
    (p := fun n s => s.1.Sized k.plan ∧
      s.2.reverse = (List.range n).map (rowStores ar k.plan image field))
    ⟨hinit, rfl⟩ (by
      rintro g ⟨m, rows⟩ _ ⟨hm, hrows⟩
      obtain ⟨m', hrun, hm', hstaging⟩ := group_eq_ok ar hp himage hfield hm g
      refine ⟨(m', _), by simp only [hrun, ok_bind]; rfl, hm', ?_⟩
      simp only [List.reverse_cons, hrows, List.range_succ, List.map_append, hstaging,
        zipIdx_toList_table, List.map_map]
      rfl)
  simp only [stores, himage0, hfield0, ok_bind]
  refine bind_eq_ok_iff.2 ⟨(m, rows), hrun, ?_⟩
  exact congrArg (fun rows => Except.ok (List.flatten rows)) hrows

theorem mem_rowStores {ar : Arithmetic α} {image field : Array α} {groups : Nat} {s : Nat × α} :
    s ∈ (List.range groups).flatMap (rowStores ar p image field) ↔
      ∃ g < groups, ∃ i < p.outputs, s = (g * p.outputs + i, groupWord ar p image field g i) := by
  simp only [List.mem_flatMap, List.mem_range, rowStores, List.mem_map, eq_comm (a := s)]

theorem fills_rowStores (ar : Arithmetic α) (p : TilePlan) (image field : Array α) (groups : Nat) :
    Fills (groups * p.outputs) ((List.range groups).flatMap (rowStores ar p image field)) where
  inside := by
    intro s hs
    obtain ⟨g, hg, i, hi, rfl⟩ := mem_rowStores.1 hs
    exact lt_mul_of_digits hg hi
  covers := by
    intro n hn
    have houtputs : 0 < p.outputs :=
      Nat.pos_of_ne_zero fun h0 => by rw [h0, Nat.mul_zero] at hn; omega
    refine ⟨_, mem_rowStores.2 ⟨n / p.outputs, Nat.div_lt_of_lt_mul (by rwa [Nat.mul_comm]),
      n % p.outputs, Nat.mod_lt _ houtputs, rfl⟩, Nat.div_add_mod' n p.outputs⟩

theorem total {k : Correlation} {w : WorkGroup} (hp : k.plan.Tiled) :
    (Program.correlation k).Total w
      [k.plan.rows * k.plan.columns, k.plan.rows * k.plan.columns]
      (w.groupCount * k.plan.outputs) := by
  intro α ar inputs hsizes
  obtain ⟨image, rest, rfl, himage, hrest⟩ := List.map_eq_cons_iff.1 hsizes
  obtain ⟨field, rest, rfl, hfield, hnil⟩ := List.map_eq_cons_iff.1 hrest
  rw [List.map_eq_nil_iff] at hnil
  subst hnil
  exact ⟨_, stores_eq_ok hp ar himage hfield, fills_rowStores ar _ image field w.groupCount⟩

theorem run_eq_ok {k : Correlation} {w : WorkGroup} (hp : k.plan.Tiled) (ar : Arithmetic α)
    {image field output : Array α} (himage : image.size = k.plan.rows * k.plan.columns)
    (hfield : field.size = k.plan.rows * k.plan.columns)
    (houtput : output.size = w.groupCount * k.plan.outputs) :
    (Program.correlation k).run ar w [image, field] output =
      .ok (table (w.groupCount * k.plan.outputs) fun n =>
        groupWord ar k.plan image field (n / k.plan.outputs) (n % k.plan.outputs)) := by
  have hstores : (Program.correlation k).stores ar w [image, field] =
      .ok ((List.range w.groupCount).flatMap (rowStores ar k.plan image field)) :=
    stores_eq_ok hp ar himage hfield
  have hfills := fills_rowStores ar k.plan image field w.groupCount
  rw [Program.run, hstores, ok_bind, hfills.storeAll_eq_ok houtput]
  congr 1
  refine hfills.stored_eq_table houtput ?_
  intro s hs
  obtain ⟨g, _, i, hi, rfl⟩ := mem_rowStores.1 hs
  simp only
  rw [digits_div hi, digits_mod hi]

section Ring

variable [CommRing α] {ar : Arithmetic α}

def term (p : TilePlan) (image field : Array α) (shift r c : Nat) : α :=
  planeWord 0 p.rows p.columns image ((r + shift / p.size : Nat) - (p.half : Int))
    ((c + shift % p.size : Nat) - (p.half : Int)) * planeWord 0 p.rows p.columns field r c

theorem tileSum_eq (har : ar.IsRing) (hp : p.Regular) (image field : Array α) (t shift : Nat) :
    tileSum ar p image field t shift = ∑ a ∈ Finset.range p.tileRows,
      ∑ b ∈ Finset.range p.tileColumns, term p image field shift
        (t / p.tilesAcross * p.tileRows + a) (t % p.tilesAcross * p.tileColumns + b) := by
  rw [tileSum, shiftNode, treeNode_eq_sum har.add, ← hp.threads, ← hp.tile,
    sum_range_digits (fun a b => term p image field shift
      (t / p.tilesAcross * p.tileRows + a) (t % p.tilesAcross * p.tileColumns + b))]
  apply Finset.sum_congr rfl
  intro lid _
  rw [hp.tile, Nat.one_mul, Nat.add_sub_cancel_left, product, weightValue, har.mul, har.zero, term]
  simp only [tileRow, tileColumn, Nat.add_assoc]

theorem groupWord_eq (har : ar.IsRing) (hlevels : p.levels ≠ 0) (image field : Array α) (g i : Nat) :
    groupWord ar p image field g i =
      ((strided g p.tiles p.groups).map fun t => tileSum ar p image field t i).sum := by
  simp only [groupWord, if_neg hlevels, har.zero, har.add]
  rw [← List.foldl_map (f := fun t => tileSum ar p image field t i) (g := fun x y => x + y),
    List.sum_eq_foldl]

theorem term_eq_zero {image field : Array α} {shift r c : Nat} (h : p.rows ≤ r ∨ p.columns ≤ c) :
    term p image field shift r c = 0 := by
  rw [term, planeWord, planeWord, if_neg (c := 0 ≤ (r : Int) ∧ _) (by omega), mul_zero]

/-- All workgroups together add up the terms of all points. -/
theorem sum_groupWord (har : ar.IsRing) (hp : p.Regular) (hlevels : p.levels ≠ 0)
    (image field : Array α) (i : Nat) :
    ∑ g ∈ Finset.range p.groups, groupWord ar p image field g i =
      ∑ r ∈ Finset.range p.rows, ∑ c ∈ Finset.range p.columns, term p image field i r c := by
  calc ∑ g ∈ Finset.range p.groups, groupWord ar p image field g i
      = ∑ t ∈ Finset.range p.tiles, tileSum ar p image field t i := by
        simp only [groupWord_eq har hlevels]
        exact sum_strided _ _ hp.groups
    _ = ∑ x ∈ Finset.range p.tilesDown, ∑ y ∈ Finset.range p.tilesAcross,
          ∑ a ∈ Finset.range p.tileRows, ∑ b ∈ Finset.range p.tileColumns,
            term p image field i (x * p.tileRows + a) (y * p.tileColumns + b) := by
        simp only [tileSum_eq har hp]
        exact (sum_range_digits (fun x y => ∑ a ∈ Finset.range p.tileRows,
          ∑ b ∈ Finset.range p.tileColumns,
            term p image field i (x * p.tileRows + a) (y * p.tileColumns + b)) _ _).symm
    _ = ∑ r ∈ Finset.range (p.tilesDown * p.tileRows),
          ∑ c ∈ Finset.range (p.tilesAcross * p.tileColumns), term p image field i r c := by
        rw [← sum_range_mul]
        apply Finset.sum_congr rfl
        intro x _
        rw [Finset.sum_comm]
        apply Finset.sum_congr rfl
        intro a _
        rw [← sum_range_mul]
    _ = ∑ r ∈ Finset.range p.rows, ∑ c ∈ Finset.range p.columns, term p image field i r c := by
        have hrows := Finset.range_subset_range.2 hp.rows_le
        have hcolumns := Finset.range_subset_range.2 hp.columns_le
        rw [← Finset.sum_subset hrows fun r _ hr => ?_]
        · apply Finset.sum_congr rfl
          intro r _
          exact (Finset.sum_subset hcolumns fun c _ hc =>
            term_eq_zero (.inr (by simpa using hc))).symm
        · exact Finset.sum_eq_zero fun c _ => term_eq_zero (.inl (by simpa using hr))

end Ring

end Correlation

end FieldCircuit
