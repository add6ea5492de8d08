import FieldCircuit.Proofs.Kernel.Sound
import FieldCircuit.Proofs.Launch.Coverage
import FieldCircuit.Proofs.Opcode.Border
import FieldCircuit.Proofs.Table

/-!
# Point kernels are total

Point operations, tensor sums and convolutions have one or more work items per point of their output.
Every item reads inside of its operands, and the items together store every word of the output.
-/

namespace FieldCircuit

variable {α : Type}

structure Layout.SameExtents (l m : Layout) : Prop where
  columns : l.columns = m.columns
  rows : l.rows = m.rows
  layers : l.layers = m.layers
  elements : l.elements = m.elements

namespace Layout.SameExtents

variable {l m : Layout}

theorem points (h : l.SameExtents m) : l.points = m.points := by
  rw [points_eq_mul, points_eq_mul, h.layers, h.rows, h.columns]

theorem elementAt (h : l.SameExtents m) (p : Point) (e : Nat) : l.elementAt p e = m.elementAt p e := by
  rw [elementAt_eq, elementAt_eq, h.points, at_eq, at_eq, h.rows, h.columns]

end Layout.SameExtents

theorem FieldType.sameExtents {t u : FieldType} (hfield : t.field = u.field)
    (htensor : t.tensor = u.tensor) : t.layout.SameExtents u.layout := by
  simp only [layout, columns, rows, layers, elements, hfield, htensor]
  exact ⟨rfl, rfl, rfl, rfl⟩

/-- The words of a tensor element of a point: one, or a real and an imaginary one. -/
def FieldType.positions (t : FieldType) (visit : Point × Nat) : List Nat :=
  let i := t.layout.elementAt visit.1 visit.2
  if t.element.isComplex then [i, i + t.layout.partStride] else [i]

theorem FieldType.positions_lt (t : FieldType) {p : Point} (hp : t.layout.Contains p) {e : Nat}
    (he : e < t.layout.elements) {i : Nat} (hi : i ∈ t.positions (p, e)) : i < t.words := by
  have hlt := hp.elementAt_lt he
  unfold positions at hi
  cases hc : t.element.isComplex with
  | true =>
      obtain ⟨hwords, hstride⟩ := Layout.words_of_complex (l := t.layout) hc
      simp only [hc, if_true, hstride, List.mem_cons, List.not_mem_nil, or_false] at hi
      rw [FieldType.words, hwords]
      omega
  | false =>
      simp only [hc, Bool.false_eq_true, if_false, List.mem_singleton] at hi
      rw [FieldType.words, Layout.words_of_real (l := t.layout) hc, hi]
      exact hlt

theorem FieldType.exists_position (t : FieldType) {i : Nat} (hi : i < t.words) :
    ∃ p e, t.layout.Contains p ∧ e < t.layout.elements ∧ i ∈ t.positions (p, e) := by
  unfold positions
  cases hc : t.element.isComplex with
  | true =>
      obtain ⟨hwords, hstride⟩ := Layout.words_of_complex (l := t.layout) hc
      rw [FieldType.words, hwords] at hi
      by_cases hreal : i < t.layout.elements * t.layout.points
      · obtain ⟨p, e, hp, he, hpe⟩ := Layout.exists_elementAt hreal
        exact ⟨p, e, hp, he, by simp [hpe]⟩
      · obtain ⟨p, e, hp, he, hpe⟩ := Layout.exists_elementAt (l := t.layout)
          (i := i - t.layout.elements * t.layout.points) (by omega)
        refine ⟨p, e, hp, he, ?_⟩
        simp only [if_true, hstride, List.mem_cons, List.not_mem_nil, or_false]
        omega
  | false =>
      rw [FieldType.words, Layout.words_of_real (l := t.layout) hc] at hi
      obtain ⟨p, e, hp, he, hpe⟩ := Layout.exists_elementAt hi
      exact ⟨p, e, hp, he, by simp [hpe]⟩

namespace Pointwise

variable {t : FieldType} {mode : AddressingMode} {caps : Capabilities} {w : WorkGroup}
  {k : Pointwise}

theorem storesAt_of_real (hop : ∀ op, k.op ≠ .complex op) (ar : Arithmetic α) (a : Array α)
    (b : Option (Array α)) (p : Point) (e : Nat) :
    k.storesAt ar a b (p, e) = k.realStore ar a b p e := by
  unfold storesAt
  cases hk : k.op with
  | complex op => exact absurd hk (hop op)
  | _ => rfl

/-- An operation on complex numbers stores a real and an imaginary part per visit. -/
theorem storesAt_of_complex {op : BinaryOp} (hop : k.op = .complex op) {second : Layout}
    (hb : k.b = some second) (ar : Arithmetic α) (a b : Array α) (p : Point) (e : Nat) :
    k.storesAt ar a (some b) (p, e) = k.complexStores ar op a b second p e := by
  simp [storesAt, hop, hb]

/-- A second operand that is not broadcast is read at the position of the visit. -/
theorem secondIndex_of_some {second : Layout} (hb : k.b = some second) (hbroadcast : k.broadcast = false)
    (p : Point) (e : Nat) : k.secondIndex p e = second.elementAt p e := by
  simp [secondIndex, hb, hbroadcast]

/-- A point kernel is total if every visit succeeds and stores the words of its element. -/
theorem total_of_visits (hw : Addressing.workGroup? t mode caps = .ok w)
    (hmap : k.map = PointMap.of t mode) {first : Nat} {rest : List Nat}
    (h : ∀ (α : Type) (ar : Arithmetic α) (a : Array α) (others : List (Array α)), a.size = first →
      others.map Array.size = rest → ∀ p e, t.layout.Contains p → e < t.layout.elements →
      ∃ stores, k.storesAt ar a others[0]? (p, e) = .ok stores ∧
        stores.map Prod.fst = t.positions (p, e)) :
    (Program.pointwise k).Total w (first :: rest) t.words := by
  intro α ar inputs hsizes
  obtain ⟨a, others, rfl, ha, hothers⟩ := List.map_eq_cons_iff.1 hsizes
  obtain ⟨lists, hlists, hforall⟩ := mapM_exists_ok (f := k.storesAt ar a others[0]?)
    (q := fun visit group => group.map Prod.fst = t.positions visit) (l := k.map.visits w) (by
      rintro ⟨p, e⟩ hvisit
      rw [hmap, PointMap.mem_visits hw] at hvisit
      exact h α ar a others ha hothers p e hvisit.1 hvisit.2)
  refine ⟨lists.flatten, ?_, Fills.of_forall₂ hforall ?_ ?_⟩
  · change stores ar k w (a :: others) = _
    have hfirst : fetch (a :: others).toArray 0 = .ok a := rfl
    rw [stores, hfirst, ok_bind, List.getElem?_cons_succ, hlists]
    rfl
  · rintro ⟨p, e⟩ hvisit i hi
    rw [hmap, PointMap.mem_visits hw] at hvisit
    exact t.positions_lt hvisit.1 hvisit.2 hi
  · intro i hi
    obtain ⟨p, e, hp, he, hmem⟩ := t.exists_position hi
    exact ⟨(p, e), by rw [hmap, PointMap.mem_visits hw]; exact ⟨hp, he⟩, hmem⟩

/-- Operations on numbers are total: operands are read at the element that is stored, or, for a single
number, at its only word. -/
theorem total_real (hw : Addressing.workGroup? t mode caps = .ok w)
    (hmap : k.map = PointMap.of t mode) (hout : k.out = t.layout)
    (hreal : t.element.isComplex = false) (hop : ∀ op, k.op ≠ .complex op)
    (ha : k.a.SameExtents t.layout) (hawords : k.a.element.isComplex = false) {rest : List Nat}
    (hb : ∀ n, rest[0]? = some n → ∀ p e, t.layout.Contains p → e < t.layout.elements →
      k.secondIndex p e < n) :
    (Program.pointwise k).Total w (k.a.words :: rest) t.words := by
  refine total_of_visits hw hmap ?_
  intro α ar a others hasize hothers p e hp he
  have hposition : t.positions (p, e) = [k.out.elementAt p e] := by
    simp [FieldType.positions, hreal, hout]
  have hread : k.a.elementAt p e < a.size := by
    rw [hasize, Layout.words_of_real hawords, ha.elementAt, ha.elements, ha.points]
    exact hp.elementAt_lt he
  rw [storesAt_of_real hop, realStore, fetch_eq_ok hread, ok_bind, hposition]
  cases hsecond : others[0]? with
  | none => exact ⟨_, rfl, rfl⟩
  | some b =>
      have hn : rest[0]? = some b.size := by rw [← hothers, List.getElem?_map, hsecond]; rfl
      simp only
      rw [fetch_eq_ok (hb _ hn p e hp he)]
      exact ⟨_, rfl, rfl⟩

theorem total_complex (hw : Addressing.workGroup? t mode caps = .ok w)
    (hmap : k.map = PointMap.of t mode) (hout : k.out = t.layout)
    (hcomplex : t.element.isComplex = true) {op : BinaryOp} (hop : k.op = .complex op)
    (ha : k.a = t.layout) (hb : k.b = some t.layout) (hbroadcast : k.broadcast = false) :
    (Program.pointwise k).Total w [t.words, t.words] t.words := by
  refine total_of_visits hw hmap ?_
  intro α ar a others hasize hothers p e hp he
  obtain ⟨b, rest, rfl, hbsize, -⟩ := List.map_eq_cons_iff.1 hothers
  obtain ⟨hwords, hstride⟩ := Layout.words_of_complex (l := t.layout) hcomplex
  have hlt := hp.elementAt_lt he
  rw [FieldType.words, hwords] at hasize hbsize
  have hsecond := secondIndex_of_some hb hbroadcast p e
  have hposition : t.positions (p, e) =
      [k.out.elementAt p e, k.out.elementAt p e + k.out.partStride] := by
    simp [FieldType.positions, hcomplex, hout]
  rw [List.getElem?_cons_zero, storesAt_of_complex hop hb, complexStores, ha, hsecond, hstride,
    fetch_eq_ok (by omega : _ < a.size), ok_bind, fetch_eq_ok (by omega : _ < a.size), ok_bind,
    fetch_eq_ok (by omega : _ < b.size), ok_bind, fetch_eq_ok (by omega : _ < b.size), hposition]
  exact ⟨_, rfl, rfl⟩

end Pointwise

/-- A kernel that stores one word per point is total if the word can be computed. -/
theorem fills_points {t : FieldType} {mode : AddressingMode} {caps : Capabilities} {w : WorkGroup}
    (hw : Addressing.workGroup? t mode caps = .ok w) (hreal : t.element.isComplex = false)
    (helements : t.elements = 1) {f : Point → Except Fault (Nat × α)}
    (h : ∀ p, t.layout.Contains p → ∃ s, f p = .ok s ∧ s.1 = t.layout.at p) :
    ∃ stores, ((PointMap.of t mode).points w).mapM f = .ok stores ∧ Fills t.words stores := by
  have hwords : t.words = t.layout.points := by
    have hone : t.layout.elements = 1 := helements
    rw [FieldType.words, Layout.words_of_real hreal, hone, Nat.one_mul]
  obtain ⟨stores, hstores, hforall⟩ := mapM_exists_ok (f := f)
    (q := fun p s => s.1 = t.layout.at p) (l := (PointMap.of t mode).points w)
    fun p hp => h p ((PointMap.mem_points hw).1 hp)
  refine ⟨stores, hstores, ?_, ?_⟩
  · intro s hs
    obtain ⟨p, hp, heq⟩ := forall₂_exists_left hforall hs
    rw [heq, hwords]
    exact ((PointMap.mem_points hw).1 hp).at_lt
  · intro i hi
    rw [hwords] at hi
    have hmem := (PointMap.mem_points hw).2 (Layout.contains_pointAt hi)
    obtain ⟨s, hs, heq⟩ := forall₂_exists_right hforall hmem
    exact ⟨s, hs, by rw [heq, Layout.at_pointAt]⟩

theorem TensorSum.total {t input : FieldType} {mode : AddressingMode} {caps : Capabilities}
    {w : WorkGroup} (hw : Addressing.workGroup? t mode caps = .ok w) {k : TensorSum}
    (hmap : k.map = PointMap.of t mode) (hin : k.input = input.layout) (hout : k.output = t.layout)
    (hfield : t.field = input.field) (helements : t.elements = 1)
    (hreal : t.element.isComplex = false) (hreal' : input.element.isComplex = false) :
    (Program.tensorSum k).Total w [input.words] t.words := by
  intro α ar inputs hsizes
  obtain ⟨a, rest, rfl, ha, -⟩ := List.map_eq_cons_iff.1 hsizes
  obtain ⟨stores, hstores, hfills⟩ := fills_points hw hreal helements
    (f := fun p => do return (k.output.at p, ← k.sumAt ar a p)) (by
      intro p hp
      have hp' : input.layout.Contains p := by
        obtain ⟨hlayer, hrow, hcolumn⟩ := hp
        simp only [FieldType.layout, FieldType.layers, FieldType.rows, FieldType.columns, hfield]
          at hlayer hrow hcolumn
        exact ⟨hlayer, hrow, hcolumn⟩
      have hsum : ∃ x, k.sumAt ar a p = .ok x := by
        refine foldlM_exists_ok (fun acc e he => ?_) _
        have hread : k.input.elementAt p e < a.size := by
          rw [hin] at he ⊢
          rw [ha, FieldType.words, Layout.words_of_real hreal']
          exact hp'.elementAt_lt (List.mem_range.1 he)
        exact ⟨_, by rw [fetch_eq_ok hread]; rfl⟩
      obtain ⟨x, hx⟩ := hsum
      exact ⟨_, by rw [hx]; rfl, by rw [hout]⟩)
  refine ⟨stores, ?_, hfills⟩
  change TensorSum.stores ar k w (a :: rest) = _
  have hfirst : fetch (a :: rest).toArray 0 = .ok a := rfl
  rw [TensorSum.stores, hfirst, ok_bind, hmap]
  exact hstores

/-- Adds the product of a weight and a value to a sum, if there is a value. -/
def Arithmetic.addProduct (ar : Arithmetic α) (sum weight : α) : Option α → α
  | some x => ar.add sum (ar.mul weight x)
  | none => sum

/-- The values around a position of the plane times the weights, added to zero in row-major order of the
weights. Nothing is added where there is no value. -/
def Arithmetic.weightedSum (ar : Arithmetic α) (rows columns : Nat) (weights : Array α)
    (f : Int → Int → Option α) (r c : Int) : α :=
  (List.range rows).foldl (fun sum i => (List.range columns).foldl (fun sum j =>
    ar.addProduct sum (weights.getD (i * columns + j) ar.zero)
      (f (r + (rows / 2 : Nat) - (i : Nat)) (c + (columns / 2 : Nat) - (j : Nat)))) sum) ar.zero

namespace Convolution

variable {k : Convolution} {image kernel : Array α}

theorem tap_eq (center extent i : Nat) : tap center extent i = center + (extent / 2 : Nat) - i := by
  rw [tap, Nat.cast_add]

theorem addTap_eq_ok (hrows : 0 < k.image.rows) (hcolumns : 0 < k.image.columns)
    (hrows' : k.image.rows < signedBound) (hcolumns' : k.image.columns < signedBound)
    (ar : Arithmetic α) (himage : image.size = k.image.rows * k.image.columns)
    (hkernel : kernel.size = k.kernel.rows * k.kernel.columns) (p : Point) (sum : α) {i j : Nat}
    (hi : i < k.kernel.rows) (hj : j < k.kernel.columns) :
    k.addTap ar image kernel p sum (i, j) =
      .ok (ar.addProduct sum (kernel.getD (i * k.kernel.columns + j) ar.zero)
        (k.border.extended k.image.rows k.image.columns image (tap p.row k.kernel.rows i)
          (tap p.column k.kernel.columns j))) := by
  rw [addTap, Border.resolve_eq_place _ _ hrows hrows', ok_bind,
    Border.resolve_eq_place _ _ hcolumns hcolumns', ok_bind, Border.extended]
  cases hr : k.border.place k.image.rows (tap p.row k.kernel.rows i) with
  | none => rfl
  | some r => cases hc : k.border.place k.image.columns (tap p.column k.kernel.columns j) with
    | none => rfl
    | some c =>
        have hweight : i * k.kernel.columns + j < kernel.size := by
          rw [hkernel]
          exact lt_mul_of_digits hi hj
        have hsample : r * k.image.columns + c < image.size := by
          rw [himage]
          exact lt_mul_of_digits (Border.place_lt hrows _ r hr) (Border.place_lt hcolumns _ c hc)
        have hindex : k.image.pointIndex 0 r c = r * k.image.columns + c := by
          rw [Layout.pointIndex, Layout.rowStride, Nat.zero_mul, Nat.zero_add]
        simp only [hindex, fetch_getD hweight ar.zero, fetch_eq_ok hsample, ok_bind,
          Option.bind_some, Array.getElem?_eq_getElem hsample]
        rfl

theorem foldl_taps {β : Type} (f : β → Nat × Nat → β) (b : β) :
    k.taps.foldl f b = (List.range k.kernel.rows).foldl (fun b i =>
      (List.range k.kernel.columns).foldl (fun b j => f b (i, j)) b) b := by
  rw [taps, List.foldl_flatMap]
  simp only [List.foldl_map]

/-- The value at a point is the weighted sum of the extended image. -/
theorem valueAt_eq_ok (hrows : 0 < k.image.rows) (hcolumns : 0 < k.image.columns)
    (hrows' : k.image.rows < signedBound) (hcolumns' : k.image.columns < signedBound)
    (ar : Arithmetic α) (himage : image.size = k.image.rows * k.image.columns)
    (hkernel : kernel.size = k.kernel.rows * k.kernel.columns) (p : Point) :
    k.valueAt ar image kernel p = .ok (ar.weightedSum k.kernel.rows k.kernel.columns kernel
      (k.border.extended k.image.rows k.image.columns image) p.row p.column) := by
  have hfold := (foldlM_eq_ok (f := k.addTap ar image kernel p) (p := fun _ => True)
    (g := fun sum t => ar.addProduct sum (kernel.getD (t.1 * k.kernel.columns + t.2) ar.zero)
      (k.border.extended k.image.rows k.image.columns image (tap p.row k.kernel.rows t.1)
        (tap p.column k.kernel.columns t.2))) (l := k.taps) (b := ar.zero) trivial (by
    rintro sum t ht -
    obtain ⟨i, hi, j, hj, rfl⟩ : ∃ i < k.kernel.rows, ∃ j < k.kernel.columns, (i, j) = t := by
      simpa [taps] using ht
    exact ⟨addTap_eq_ok hrows hcolumns hrows' hcolumns' ar himage hkernel p sum hi hj, trivial⟩)).1
  rw [valueAt, hfold, foldl_taps]
  simp only [tap_eq]
  rfl

theorem total {t image kernel : FieldType} {mode : AddressingMode} {caps : Capabilities}
    {w : WorkGroup} (hw : Addressing.workGroup? t mode caps = .ok w) {k : Convolution}
    (hmap : k.map = PointMap.of t mode) (himage : k.image = image.layout)
    (hkernel : k.kernel = kernel.layout) (hlayers : t.layers = 1)
    (himagewords : image.words = image.rows * image.columns)
    (hkernelwords : kernel.words = kernel.rows * kernel.columns) (helements : t.elements = 1)
    (hreal : t.element.isComplex = false) (hrows : image.rows < signedBound)
    (hcolumns : image.columns < signedBound) :
    (Program.convolution k).Total w [image.words, kernel.words] t.words := by
  intro α ar inputs hsizes
  obtain ⟨a, rest, rfl, ha, hrest⟩ := List.map_eq_cons_iff.1 hsizes
  obtain ⟨b, rest, rfl, hb, -⟩ := List.map_eq_cons_iff.1 hrest
  obtain ⟨stores, hstores, hfills⟩ := fills_points hw hreal helements
    (f := fun p => do
      return (k.map.layout.pointIndex 0 p.row p.column, ← k.valueAt ar a b p)) (by
      intro p hp
      obtain ⟨x, hx⟩ : ∃ x, k.valueAt ar a b p = .ok x := by
        refine ⟨_, valueAt_eq_ok ?_ ?_ ?_ ?_ ar ?_ ?_ p⟩
        · exact himage ▸ image.rows_pos
        · exact himage ▸ image.columns_pos
        · exact himage ▸ hrows
        · exact himage ▸ hcolumns
        · rw [himage]
          exact ha.trans himagewords
        · rw [hkernel]
          exact hb.trans hkernelwords
      have hlayer : p.layer = 0 := by
        have := hp.layer
        simp only [FieldType.layout, hlayers] at this
        omega
      refine ⟨_, by rw [hx]; rfl, ?_⟩
      simp only [hmap, Layout.at, hlayer]
      rfl)
  refine ⟨stores, ?_, hfills⟩
  change Convolution.stores ar k w (a :: b :: rest) = _
  have hfirst : fetch (a :: b :: rest).toArray 0 = .ok a := rfl
  have hsecond : fetch (a :: b :: rest).toArray 1 = .ok b := rfl
  rw [Convolution.stores, hfirst, ok_bind, hsecond, ok_bind]
  rw [hmap] at hstores ⊢
  exact hstores

end Convolution

end FieldCircuit
