import FieldCircuit.Proofs.Field.Layout
import FieldCircuit.Proofs.Kernel.Sound
import FieldCircuit.Proofs.Launch.Coverage
import FieldCircuit.Proofs.Table

/-!
# Fourier passes

What one pass does to the samples of a line, `passSample`, over any arithmetic: every sample is the sum
or the difference of a butterfly, and every sample is written by exactly one butterfly. The
conditions on a pass are collected in `Regular`; passes along the rows and along the columns of a
plane meet them.
-/

namespace FieldCircuit.FourierPass

variable {α : Type} {f : FourierPass}

/-- The samples of the lines fill a plane, and the length is a multiple of the length of the transforms
that the pass puts together. -/
structure Regular (f : FourierPass) : Prop where
  span_pos : 0 < f.span
  lines_pos : 0 < f.lines
  count_pos : 0 < f.n / (2 * f.span)
  length : f.n = f.n / (2 * f.span) * (2 * f.span)
  part_eq : f.part = f.n * f.lines
  inside : ∀ line i, line < f.lines → i < f.n → f.sampleIndex line i < f.part
  apart : ∀ line i line' i', line < f.lines → i < f.n → line' < f.lines → i' < f.n →
    f.sampleIndex line i = f.sampleIndex line' i' → line = line' ∧ i = i'
  covers : ∀ k < f.part, ∃ line i, line < f.lines ∧ i < f.n ∧ f.sampleIndex line i = k

def butterflyOf (f : FourierPass) (i : Nat) : Nat := i / (2 * f.span) * f.span + i % f.span

def isSum (f : FourierPass) (i : Nat) : Bool := i % (2 * f.span) < f.span

theorem target_eq (f : FourierPass) (j : Nat) :
    f.target j = j / f.span * (2 * f.span) + f.offset j := by
  have hdiv := Nat.div_add_mod' j f.span
  rw [target, offset, show j - j % f.span = j / f.span * f.span by omega]
  ring

namespace Regular

theorem half_eq (h : f.Regular) : f.n / 2 = f.n / (2 * f.span) * f.span := by
  have hlen := h.length
  rw [show f.n / (2 * f.span) * (2 * f.span) = f.n / (2 * f.span) * f.span * 2 by ring] at hlen
  omega

theorem half_pos (h : f.Regular) : 0 < f.n / 2 := by
  rw [h.half_eq]
  exact Nat.mul_pos h.count_pos h.span_pos

theorem two_mul_half (h : f.Regular) : f.n = 2 * (f.n / 2) := by
  have hlen := h.length
  rw [h.half_eq]
  rw [show 2 * (f.n / (2 * f.span) * f.span) = f.n / (2 * f.span) * (2 * f.span) by ring]
  exact hlen

theorem offset_lt (h : f.Regular) (j : Nat) : f.offset j < f.span := Nat.mod_lt _ h.span_pos

theorem quotient_lt (h : f.Regular) {j : Nat} (hj : j < f.n / 2) :
    j / f.span < f.n / (2 * f.span) := by
  rw [h.half_eq] at hj
  exact Nat.div_lt_of_lt_mul (by rwa [Nat.mul_comm])

theorem twiddleIndex_lt (h : f.Regular) (j : Nat) : f.twiddleIndex j < f.n / 2 := by
  rw [h.half_eq, twiddleIndex, Nat.mul_comm]
  exact Nat.mul_lt_mul_of_pos_left (h.offset_lt j) h.count_pos

theorem target_lt (h : f.Regular) {j : Nat} (hj : j < f.n / 2) : f.target j + f.span < f.n := by
  have hoffset := h.offset_lt j
  rw [target_eq, Nat.add_assoc, h.length]
  exact lt_mul_of_digits (h.quotient_lt hj) (by omega)

theorem target_butterflyOf (h : f.Regular) {i : Nat} (hi : i < f.n) :
    f.butterflyOf i < f.n / 2 ∧
      i = if f.isSum i then f.target (f.butterflyOf i) else f.target (f.butterflyOf i) + f.span := by
  have hspan := h.span_pos
  have hmod : i % f.span < f.span := Nat.mod_lt _ hspan
  have hdiv := Nat.div_add_mod' i (2 * f.span)
  have hlt : i % (2 * f.span) < 2 * f.span := Nat.mod_lt _ (by omega)
  have hquot : i / (2 * f.span) < f.n / (2 * f.span) :=
    Nat.div_lt_of_lt_mul (by rw [Nat.mul_comm, ← h.length]; exact hi)
  have hmodmod : i % (2 * f.span) % f.span = i % f.span := Nat.mod_mul_left_mod i 2 f.span
  refine ⟨?_, ?_⟩
  · rw [h.half_eq]
    exact lt_mul_of_digits hquot hmod
  · rw [target_eq, offset, butterflyOf, digits_div hmod, digits_mod hmod, isSum]
    by_cases hsum : i % (2 * f.span) < f.span
    · rw [Nat.mod_eq_of_lt hsum] at hmodmod
      simp only [hsum, decide_true, if_true]
      omega
    · have hsub : i % (2 * f.span) % f.span = i % (2 * f.span) - f.span := by
        generalize i % (2 * f.span) = m at *
        rw [Nat.mod_eq_sub_mod (by omega), Nat.mod_eq_of_lt (by omega)]
      simp only [hsum, decide_false, Bool.false_eq_true, if_false]
      omega

theorem butterflyOf_target (h : f.Regular) (j : Nat) :
    f.butterflyOf (f.target j) = j ∧ f.isSum (f.target j) = true := by
  have hspan := h.span_pos
  have hoffset := h.offset_lt j
  have hmod : (j / f.span * (2 * f.span) + f.offset j) % f.span = f.offset j := by
    rw [show j / f.span * (2 * f.span) = j / f.span * 2 * f.span by ring, digits_mod hoffset]
  rw [target_eq]
  refine ⟨?_, ?_⟩
  · rw [butterflyOf, digits_div (by omega), hmod, offset, Nat.div_add_mod']
  · rw [isSum, digits_mod (by omega)]
    simpa using hoffset

theorem butterflyOf_target_add (h : f.Regular) (j : Nat) :
    f.butterflyOf (f.target j + f.span) = j ∧ f.isSum (f.target j + f.span) = false := by
  have hspan := h.span_pos
  have hoffset := h.offset_lt j
  have hmod : (j / f.span * (2 * f.span) + (f.offset j + f.span)) % f.span = f.offset j := by
    rw [show j / f.span * (2 * f.span) + (f.offset j + f.span) =
      (j / f.span * 2 + 1) * f.span + f.offset j by ring, digits_mod hoffset]
  rw [target_eq, Nat.add_assoc]
  refine ⟨?_, ?_⟩
  · rw [butterflyOf, digits_div (by omega), hmod, offset, Nat.div_add_mod']
  · rw [isSum, digits_mod (by omega)]
    simp

end Regular

def sampleAt (f : FourierPass) (zero : α) (a : Array α) (line i : Nat) : α × α :=
  (a.getD (f.sampleIndex line i) zero, a.getD (f.part + f.sampleIndex line i) zero)

theorem sample_eq_ok (h : f.Regular) {a : Array α} (ha : a.size = 2 * f.part) {line i : Nat}
    (hline : line < f.lines) (hi : i < f.n) (zero : α) :
    f.sample a line i = .ok (f.sampleAt zero a line i) := by
  have hin := h.inside line i hline hi
  simp only [sample]
  rw [fetch_getD (by omega) zero, ok_bind, fetch_getD (by omega) zero]
  rfl

def turned (ar : Arithmetic α) (f : FourierPass) (a : Array α) (line j : Nat) : α × α :=
  let x := f.sampleAt ar.zero a line (j + f.n / 2)
  let w := ar.twiddle f.direction f.n (f.twiddleIndex j)
  (ar.sub (ar.mul x.1 w.1) (ar.mul x.2 w.2), ar.add (ar.mul x.1 w.2) (ar.mul x.2 w.1))

def passSample (ar : Arithmetic α) (f : FourierPass) (a : Array α) (line i : Nat) : α × α :=
  let x := f.sampleAt ar.zero a line (f.butterflyOf i)
  let y := turned ar f a line (f.butterflyOf i)
  let s := scale ar f.direction
  if f.isSum i then (ar.mul (ar.add x.1 y.1) s, ar.mul (ar.add x.2 y.2) s)
  else (ar.mul (ar.sub x.1 y.1) s, ar.mul (ar.sub x.2 y.2) s)

def passStores (ar : Arithmetic α) (f : FourierPass) (a : Array α) (line i : Nat) :
    List (Nat × α) :=
  f.sampleStores line i (passSample ar f a line i)

theorem butterfly_eq_ok (h : f.Regular) (ar : Arithmetic α) {a : Array α}
    (ha : a.size = 2 * f.part) {line j : Nat} (hline : line < f.lines) (hj : j < f.n / 2) :
    f.butterfly ar (twiddles ar f.direction f.n) a line j =
      .ok (passStores ar f a line (f.target j) ++ passStores ar f a line (f.target j + f.span)) := by
  have hhalf := h.two_mul_half
  have htable : fetch (twiddles ar f.direction f.n) (f.twiddleIndex j) =
      .ok (ar.twiddle f.direction f.n (f.twiddleIndex j)) := by
    rw [twiddles, toArray_map_range, fetch_table (h.twiddleIndex_lt j)]
  obtain ⟨hsum, hissum⟩ := h.butterflyOf_target j
  obtain ⟨hdiff, hisdiff⟩ := h.butterflyOf_target_add j
  simp only [butterfly]
  rw [sample_eq_ok h ha hline (by omega) ar.zero, ok_bind,
    sample_eq_ok h ha hline (by omega) ar.zero, ok_bind, htable, ok_bind]
  simp only [passStores, passSample, hsum, hissum, hdiff, hisdiff]
  rfl

theorem Regular.padded_eq (h : f.Regular) :
    WorkGroup.padded [f.n / 2, f.lines] = ⟨f.n / 2, f.lines, 1⟩ := by
  have hx : Nat.max (f.n / 2) 1 = f.n / 2 := Nat.max_eq_left h.half_pos
  have hy : Nat.max f.lines 1 = f.lines := Nat.max_eq_left h.lines_pos
  simp [WorkGroup.padded, hx, hy]

/-- The items of a launch that do something: one for every butterfly of every line. -/
theorem Regular.mem_activeItems (h : f.Regular) {caps : Capabilities} {w : WorkGroup}
    (hw : WorkGroup.covering [f.n / 2, f.lines] caps = .ok w) {id : Axes} :
    id ∈ w.activeItems ↔ id.x < f.n / 2 ∧ id.y < f.lines ∧ id.z < 1 := by
  rw [WorkGroup.mem_activeItems hw, h.padded_eq]

def itemStores (ar : Arithmetic α) (f : FourierPass) (a : Array α) (id : Axes) : List (Nat × α) :=
  passStores ar f a id.y (f.target id.x) ++ passStores ar f a id.y (f.target id.x + f.span)

def launchStores (ar : Arithmetic α) (f : FourierPass) (w : WorkGroup) (a : Array α) :
    List (Nat × α) :=
  w.activeItems.flatMap (itemStores ar f a)

theorem mem_butterflies (h : f.Regular) {caps : Capabilities} {w : WorkGroup}
    (hw : WorkGroup.covering [f.n / 2, f.lines] caps = .ok w) (ar : Arithmetic α) (a : Array α)
    {s : Nat × α} :
    s ∈ launchStores ar f w a ↔
      ∃ line i, line < f.lines ∧ i < f.n ∧ s ∈ passStores ar f a line i := by
  rw [launchStores, List.mem_flatMap]
  constructor
  · rintro ⟨id, hid, hs⟩
    rw [h.mem_activeItems hw] at hid
    have hlt := h.target_lt hid.1
    rcases List.mem_append.1 hs with hs | hs
    · exact ⟨id.y, _, hid.2.1, by omega, hs⟩
    · exact ⟨id.y, _, hid.2.1, hlt, hs⟩
  · rintro ⟨line, i, hline, hi, hs⟩
    obtain ⟨hj, htarget⟩ := h.target_butterflyOf hi
    refine ⟨⟨f.butterflyOf i, line, 0⟩, (h.mem_activeItems hw).2 ⟨hj, hline, Nat.one_pos⟩, ?_⟩
    rw [itemStores, List.mem_append]
    split at htarget
    · rw [htarget] at hs
      exact .inl hs
    · rw [htarget] at hs
      exact .inr hs

theorem stores_eq_ok (h : f.Regular) {caps : Capabilities} {w : WorkGroup}
    (hw : WorkGroup.covering [f.n / 2, f.lines] caps = .ok w) (ar : Arithmetic α) {a : Array α}
    (ha : a.size = 2 * f.part) :
    f.stores ar w [a] = .ok (launchStores ar f w a) := by
  have hfirst : fetch [a].toArray 0 = .ok a := rfl
  simp only [stores, hfirst, ok_bind]
  rw [mapM_eq_ok fun id hid => ?_, ok_bind]
  · rfl
  · obtain ⟨hx, hy, -⟩ := (h.mem_activeItems hw).1 hid
    exact butterfly_eq_ok h ar ha hy hx

theorem fills (h : f.Regular) {caps : Capabilities} {w : WorkGroup}
    (hw : WorkGroup.covering [f.n / 2, f.lines] caps = .ok w) (ar : Arithmetic α) (a : Array α) :
    Fills (2 * f.part) (launchStores ar f w a) where
  inside := by
    intro s hs
    obtain ⟨line, i, hline, hi, hs⟩ := (mem_butterflies h hw ar a).1 hs
    have hin := h.inside line i hline hi
    simp only [passStores, sampleStores, List.mem_cons, List.not_mem_nil, or_false] at hs
    rcases hs with rfl | rfl
    · simp only
      omega
    · simp only
      omega
  covers := by
    intro k hk
    have hmem : ∀ line i, line < f.lines → i < f.n → ∀ s ∈ passStores ar f a line i,
        s ∈ launchStores ar f w a := fun line i hline hi s hs =>
      (mem_butterflies h hw ar a).2 ⟨line, i, hline, hi, hs⟩
    by_cases hreal : k < f.part
    · obtain ⟨line, i, hline, hi, hk⟩ := h.covers k hreal
      exact ⟨_, hmem line i hline hi _ List.mem_cons_self, hk⟩
    · obtain ⟨line, i, hline, hi, hk'⟩ := h.covers (k - f.part) (by omega)
      refine ⟨_, hmem line i hline hi _ (List.mem_cons_of_mem _ List.mem_cons_self), ?_⟩
      simp only
      omega

theorem total (h : f.Regular) {caps : Capabilities} {w : WorkGroup}
    (hw : WorkGroup.covering [f.n / 2, f.lines] caps = .ok w) :
    (Program.fourier f).Total w [2 * f.part] (2 * f.part) := by
  intro α ar inputs hsizes
  obtain ⟨a, rest, rfl, ha, hrest⟩ := List.map_eq_cons_iff.1 hsizes
  rw [List.map_eq_nil_iff] at hrest
  subst hrest
  exact ⟨_, stores_eq_ok h hw ar ha, fills h hw ar a⟩

structure Maps (ar : Arithmetic α) (f : FourierPass) (a b : Array α) : Prop where
  size : b.size = 2 * f.part
  sample : ∀ line i, line < f.lines → i < f.n → f.sampleAt ar.zero b line i = passSample ar f a line i

theorem run_eq_ok (h : f.Regular) {caps : Capabilities} {w : WorkGroup}
    (hw : WorkGroup.covering [f.n / 2, f.lines] caps = .ok w) (ar : Arithmetic α)
    {a output : Array α} (ha : a.size = 2 * f.part) (houtput : output.size = 2 * f.part) :
    ∃ b, (Program.fourier f).run ar w [a] output = .ok b ∧ Maps ar f a b := by
  have hfills := fills h hw ar a
  have hstores : (Program.fourier f).stores ar w [a] = .ok (launchStores ar f w a) :=
    stores_eq_ok h hw ar ha
  refine ⟨_, by rw [Program.run, hstores, ok_bind, hfills.storeAll_eq_ok houtput], ?_, ?_⟩
  · rw [size_stored, houtput]
  · intro line i hline hi
    have hin := h.inside line i hline hi
    -- a store at a position of the sample is one of the two stores of the sample
    have hvalue : ∀ s ∈ launchStores ar f w a,
        (s.1 = f.sampleIndex line i → s.2 = (passSample ar f a line i).1) ∧
          (s.1 = f.part + f.sampleIndex line i → s.2 = (passSample ar f a line i).2) := by
      intro s hs
      obtain ⟨line', i', hline', hi', hs⟩ := (mem_butterflies h hw ar a).1 hs
      have hin' := h.inside line' i' hline' hi'
      have hsame := h.apart line' i' line i hline' hi' hline hi
      simp only [passStores, sampleStores, List.mem_cons, List.not_mem_nil, or_false] at hs
      rcases hs with rfl | rfl
      · refine ⟨fun heq => ?_, fun heq => absurd heq (by simp only; omega)⟩
        obtain ⟨rfl, rfl⟩ := hsame heq
        rfl
      · refine ⟨fun heq => absurd heq (by simp only; omega), fun heq => ?_⟩
        obtain ⟨rfl, rfl⟩ := hsame (by simp only at heq; omega)
        rfl
    have hreal := getElem?_stored_of_mem (a := output) (i := f.sampleIndex line i) (by omega)
      (hfills.covers _ (by omega)) fun s hs heq => (hvalue s hs).1 heq
    have himag := getElem?_stored_of_mem (a := output) (i := f.part + f.sampleIndex line i)
      (by omega) (hfills.covers _ (by omega)) fun s hs heq => (hvalue s hs).2 heq
    rw [sampleAt, Array.getD_eq_getD_getElem?, Array.getD_eq_getD_getElem?, hreal, himag]
    rfl

theorem count_two_pow {m s : Nat} (hs : s < m) :
    2 ^ m / (2 * 2 ^ s) = 2 ^ (m - s - 1) ∧ 2 ^ m = 2 ^ (m - s - 1) * (2 * 2 ^ s) := by
  have hprod : 2 ^ m = 2 ^ (m - s - 1) * (2 * 2 ^ s) := by
    rw [← pow_succ', ← pow_add]
    congr 1
    omega
  refine ⟨?_, hprod⟩
  rw [hprod, Nat.mul_div_cancel _ (Nat.mul_pos (by decide) (Nat.two_pow_pos s))]

theorem regular_rows {m s : Nat} (hn : f.n = 2 ^ m) (hspan : f.span = 2 ^ s) (hs : s < m)
    (hlines : 0 < f.lines) (hstride : f.stride = 1) (hlineStride : f.lineStride = f.n)
    (hpart : f.part = f.lines * f.n) : f.Regular where
  span_pos := by rw [hspan]; exact Nat.two_pow_pos s
  lines_pos := hlines
  count_pos := by rw [hn, hspan, (count_two_pow hs).1]; exact Nat.two_pow_pos _
  length := by rw [hn, hspan, (count_two_pow hs).1]; exact (count_two_pow hs).2
  part_eq := by rw [hpart, Nat.mul_comm]
  inside := by
    intro line i hline hi
    rw [sampleIndex, hstride, hlineStride, hpart, Nat.mul_one]
    exact lt_mul_of_digits hline hi
  apart := by
    intro line i line' i' _ hi _ hi' heq
    simp only [sampleIndex, hstride, hlineStride, Nat.mul_one] at heq
    exact ⟨by rw [← digits_div (a := line) hi, heq, digits_div hi'],
      by rw [← digits_mod (a := line) hi, heq, digits_mod hi']⟩
  covers := by
    intro k hk
    rw [hpart] at hk
    have hn0 : 0 < f.n := by rw [hn]; exact Nat.two_pow_pos m
    refine ⟨k / f.n, k % f.n, Nat.div_lt_of_lt_mul (by rwa [Nat.mul_comm]), Nat.mod_lt _ hn0, ?_⟩
    rw [sampleIndex, hstride, hlineStride, Nat.mul_one, Nat.div_add_mod']

theorem regular_columns {m s : Nat} (hn : f.n = 2 ^ m) (hspan : f.span = 2 ^ s) (hs : s < m)
    (hlines : 0 < f.lines) (hstride : f.stride = f.lines) (hlineStride : f.lineStride = 1)
    (hpart : f.part = f.n * f.lines) : f.Regular where
  span_pos := by rw [hspan]; exact Nat.two_pow_pos s
  lines_pos := hlines
  count_pos := by rw [hn, hspan, (count_two_pow hs).1]; exact Nat.two_pow_pos _
  length := by rw [hn, hspan, (count_two_pow hs).1]; exact (count_two_pow hs).2
  part_eq := hpart
  inside := by
    intro line i hline hi
    rw [sampleIndex, hstride, hlineStride, hpart, Nat.mul_one, Nat.add_comm]
    exact lt_mul_of_digits hi hline
  apart := by
    intro line i line' i' hline _ hline' _ heq
    simp only [sampleIndex, hstride, hlineStride, Nat.mul_one] at heq
    rw [Nat.add_comm line, Nat.add_comm line'] at heq
    exact ⟨by rw [← digits_mod (a := i) hline, heq, digits_mod hline'],
      by rw [← digits_div (a := i) hline, heq, digits_div hline']⟩
  covers := by
    intro k hk
    rw [hpart] at hk
    refine ⟨k % f.lines, k / f.lines, Nat.mod_lt _ hlines,
      Nat.div_lt_of_lt_mul (by rwa [Nat.mul_comm]), ?_⟩
    rw [sampleIndex, hstride, hlineStride, Nat.mul_one, Nat.add_comm, Nat.div_add_mod']

theorem spans_two_pow (m : Nat) : spans (2 ^ m) = (List.range m).map (2 ^ ·) := by
  have hcount : (if 2 ^ m ≤ 1 then 0 else Nat.log2 (2 ^ m - 1) + 1) = m := by
    cases m with
    | zero => simp
    | succ m =>
        have hpow : 2 ^ (m + 1) = 2 * 2 ^ m := by rw [pow_succ']
        have hpos := Nat.two_pow_pos m
        have hlog : Nat.log2 (2 ^ (m + 1) - 1) = m := by
          rw [Nat.log2_eq_iff (by omega)]
          omega
        rw [if_neg (by omega), hlog]
  rw [spans, hcount]
  rfl

end FieldCircuit.FourierPass
