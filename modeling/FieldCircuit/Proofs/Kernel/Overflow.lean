import FieldCircuit.Proofs.Failing
import FieldCircuit.Proofs.Kernel.DeviceLimits

/-!
# Sizes that fit

Whatever computes a size checks that it fits a machine size, and apart from that the planning of a
launch fails only for want of local memory. How large a size gets is bounded by the words of the fields
that it is computed from, so that no size overflows while these are small.
-/

namespace FieldCircuit

/-- Sizes below this bound leave room for the sizes that are computed from them. -/
def moderateBound : Nat := Nat.pow 2 56

theorem sizeBound_eq : sizeBound = moderateBound * maxReductionThreads := by decide

theorem moderateBound_lt : moderateBound < signedBound ∧ moderateBound < sizeBound := by decide

theorem signedBound_lt : signedBound < sizeBound := by decide

/-- The fault of a size that does not fit, where sizes are not known to be small. -/
def Overflow (small : Prop) (fault : Fault) : Prop := fault = .sizeOverflow ∧ ¬small

/-- How a request for kernels fails that has nothing wrong with it: the device has less local memory
than an operation needs that makes use of it, or a size does not fit and sizes are not known to be
small. -/
inductive Shortage (caps : Capabilities) (limited small : Prop) : KernelError → Prop
  | memory {operation : String} {required : Nat} (hlimited : limited)
      (h : caps.localMemory < required) :
      Shortage caps limited small (.localMemoryExhausted operation required caps.localMemory)
  | size (h : ¬small) : Shortage caps limited small (.fault .sizeOverflow)

variable {limited small : Prop} {caps : Capabilities}

theorem FailsOnly.shortage {α : Type} {x : Except Fault α} (h : FailsOnly (Overflow small) x) :
    FailsOnly (Shortage caps limited small) (liftM x : Except KernelError α) := by
  refine h.liftFault ?_
  rintro _ ⟨rfl, hsmall⟩
  exact .size hsmall

theorem FailsOnly.exists_ok {α : Type} {x : Except KernelError α}
    (h : FailsOnly (Shortage caps False True) x) : ∃ a, x = .ok a := by
  cases x with
  | ok a => exact ⟨a, rfl⟩
  | error e => cases h e rfl with
    | memory hlimited => exact hlimited.elim
    | size hlarge => exact absurd trivial hlarge

theorem checked_overflow {n : Nat} (h : small → n < sizeBound) :
    FailsOnly (Overflow small) (checked n) := by
  unfold checked
  split
  · exact .ok n
  · rename_i hlarge
    exact .error ⟨rfl, fun hsmall => hlarge (h hsmall)⟩

theorem FailsOnly.bind_checked {α : Type} {n : Nat} {f : Nat → Except KernelError α}
    (h : small → n < moderateBound) (hf : FailsOnly (Shortage caps limited small) (f n)) :
    FailsOnly (Shortage caps limited small) ((liftM (checked n) : Except KernelError Nat) >>= f) := by
  refine (checked_overflow fun hsmall => (h hsmall).trans moderateBound_lt.2).shortage.bind
    fun m hm => ?_
  obtain rfl := (checked_eq_ok_iff.1 (liftFault_eq_ok_iff.1 hm)).2
  exact hf

namespace FieldType

theorem points_mul_elements_le_words (t : FieldType) : t.points * t.elements ≤ t.words := by
  have hparts : 0 < t.layout.parts := by
    rw [Layout.parts]
    cases t.layout.element <;> decide
  calc t.points * t.elements ≤ t.points * t.elements * t.layout.parts :=
        Nat.le_mul_of_pos_right _ hparts
    _ = t.words := by rw [words, Layout.words, Layout.tensorStride, points_eq]; rfl

theorem points_le_words (t : FieldType) : t.points ≤ t.words :=
  Nat.le_trans (Nat.le_mul_of_pos_right _ t.elements_pos) t.points_mul_elements_le_words

theorem elements_le_words (t : FieldType) : t.elements ≤ t.words :=
  Nat.le_trans (Nat.le_mul_of_pos_left _ t.points_pos) t.points_mul_elements_le_words

theorem partStride_le_words (t : FieldType) : t.layout.partStride ≤ t.words := by
  have hle := t.points_mul_elements_le_words
  rw [← t.layout_points] at hle
  unfold Layout.partStride
  split
  · exact hle
  · exact Nat.zero_le _

theorem words?_eq_checked (t : FieldType) : t.words? = checked t.words := by
  have hfault : ∀ {n} {f : Nat → Except Fault Nat}, n ≤ t.words →
      (∀ n, f n = checked t.words) → (checked n >>= f) = checked t.words := by
    intro n f hn hf
    by_cases hlt : n < sizeBound
    · rw [checked_eq_ok_iff.2 ⟨hlt, rfl⟩, ok_bind, hf]
    · rw [checked, checked, if_neg hlt, if_neg fun h => hlt (Nat.lt_of_le_of_lt hn h)]
      rfl
  simp only [words?, layout?, bind_assoc]
  refine hfault t.points_le_words fun _ => hfault t.elements_le_words fun _ =>
    hfault t.partStride_le_words fun _ => rfl

theorem words?_overflow {t : FieldType} (h : small → t.words < signedBound) :
    FailsOnly (Overflow small) t.words? := by
  rw [words?_eq_checked]
  exact checked_overflow fun hs => (h hs).trans signedBound_lt

theorem words_lt_of_words? {t : FieldType} {n : Nat} (h : t.words? = .ok n) :
    t.words < sizeBound := by
  rw [words?_eq_checked] at h
  exact (checked_eq_ok_iff.1 h).1

end FieldType

namespace WorkGroup

theorem covering_overflow {extents : List Nat} (h : small → ∀ e ∈ extents, e ≤ signedBound) :
    FailsOnly (Overflow small) (covering extents caps) := by
  by_cases hsmall : small
  · obtain ⟨w, hw⟩ := covering_exists extents caps (h hsmall)
    exact .of_ok hw
  · simp only [covering]
    split
    · exact .ok _
    · exact .error ⟨rfl, hsmall⟩

theorem ofGrid_overflow {dimensions groups rows threads : Nat} (h : small → groups < moderateBound)
    (hthreads : threads ≤ maxReductionThreads) :
    FailsOnly (Overflow small) (ofGrid dimensions groups rows threads) := by
  refine FailsOnly.bind (checked_overflow fun hsmall => ?_) fun _ _ => .ok _
  rw [sizeBound_eq]
  exact Nat.mul_lt_mul_of_lt_of_le (Nat.max_lt.2 ⟨h hsmall, by decide⟩)
    (Nat.max_le.2 ⟨hthreads, by decide⟩) (by decide)

end WorkGroup

namespace Addressing

theorem launchExtents_le_words {t : FieldType} {mode : AddressingMode} {n : Nat}
    (h : n ∈ launchExtents t mode) : n ≤ t.words := by
  have hplane : t.rows * t.columns ≤ t.points := by
    rw [t.points_eq]
    exact Nat.le_mul_of_pos_left _ t.layers_pos
  have hlayers : t.layers ≤ t.points := by
    rw [t.points_eq]
    exact Nat.le_mul_of_pos_right _ (Nat.mul_pos t.rows_pos t.columns_pos)
  have hbox : ∀ m ∈ [t.columns, t.rows, t.layers], m ≤ t.words := by
    simp only [List.forall_mem_cons, List.not_mem_nil, false_implies, implies_true, and_true]
    have hpoints := t.points_le_words
    exact ⟨((Nat.le_mul_of_pos_left _ t.rows_pos).trans hplane).trans hpoints,
      ((Nat.le_mul_of_pos_right _ t.columns_pos).trans hplane).trans hpoints,
      hlayers.trans hpoints⟩
  have hvolume : t.layers * t.elements ≤ t.words :=
    (Nat.mul_le_mul_right _ hlayers).trans t.points_mul_elements_le_words
  have hfilled : ∀ {l : List Nat}, n ∈ (if l.isEmpty then [1] else l) → n = 1 ∨ n ∈ l := by
    intro l hl
    split at hl
    · exact .inl (List.mem_singleton.1 hl)
    · exact .inr hl
  rcases hfilled h with rfl | h
  · exact t.words_pos
  · split at h
    · split at h
      · rcases List.mem_append.1 h with h | h
        · exact hbox n (List.mem_of_mem_take h)
        · rw [List.mem_singleton.1 h]
          exact t.elements_le_words
      · simp only [List.mem_cons, List.not_mem_nil, or_false] at h hbox
        rcases h with rfl | rfl | rfl
        · exact hbox _ (.inl rfl)
        · exact hbox _ (.inr (.inl rfl))
        · exact hvolume
    · exact hbox n (List.mem_of_mem_take h)

theorem workGroup?_overflow {t : FieldType} {mode : AddressingMode}
    (h : small → t.words < signedBound) :
    FailsOnly (Overflow small) (workGroup? t mode caps) := by
  have hextents : small → ∀ e ∈ launchExtents t mode, e < signedBound := fun hsmall e he =>
    Nat.lt_of_le_of_lt (launchExtents_le_words he) (h hsmall)
  simp only [workGroup?]
  split
  · exact WorkGroup.covering_overflow fun hsmall e he => (hextents hsmall e he).le
  · rename_i hlarge
    refine .error ⟨rfl, fun hsmall => hlarge (List.all_eq_true.2 fun e he => ?_)⟩
    exact decide_eq_true ((hextents hsmall e he).trans signedBound_lt)

theorem isSmall?_overflow {t : FieldType} (h : small → t.words < signedBound) :
    FailsOnly (Overflow small) (isSmall? t) := by
  refine FailsOnly.bind (checked_overflow fun hsmall => ?_) fun _ _ => .ok _
  exact (Nat.lt_of_le_of_lt t.elements_le_words (h hsmall)).trans signedBound_lt

theorem mode?_overflow {cls : OpClass} {inputs : List FieldType} {output : FieldType}
    (hinputs : small → ∀ t ∈ inputs, t.words < signedBound)
    (houtput : small → output.words < signedBound) :
    FailsOnly (Overflow small) (mode? cls inputs output) := by
  refine (isSmall?_overflow houtput).bind fun isSmall _ => ?_
  cases cls with
  | elementWise => exact .ok _
  | perPoint =>
      simp only
      split
      · refine FailsOnly.bind (.allM fun t ht => ?_) fun _ _ => .ok _
        exact isSmall?_overflow fun hsmall => hinputs hsmall t ht
      · exact .ok _

/-- A launch is selected whenever the inputs cover the output and their sizes fit. -/
theorem select_shortage {cls : OpClass} {inputs : List FieldType} {output : FieldType}
    (hcovers : ∀ t ∈ inputs, covers t output = true)
    (hinputs : small → ∀ t ∈ inputs, t.words < signedBound)
    (houtput : small → output.words < signedBound) :
    FailsOnly (Shortage caps limited small) (select cls inputs output caps) := by
  unfold select
  split
  · rename_i input hfind
    have huncovered := List.find?_some hfind
    rw [hcovers input (List.mem_of_find?_eq_some hfind)] at huncovered
    cases huncovered
  · exact (mode?_overflow hinputs houtput).shortage.bind fun _ _ =>
      (workGroup?_overflow houtput).shortage.bind fun _ _ => .ok _

end Addressing

theorem ceilDiv_le (a : Nat) {b : Nat} (hb : 0 < b) : ceilDiv a b ≤ a := by
  have hdiv := Nat.div_add_mod a b
  unfold ceilDiv
  split
  · exact Nat.div_le_self a b
  · have hle : a / b ≤ b * (a / b) := Nat.le_mul_of_pos_left _ hb
    omega

namespace Synthesis.Reduction

theorem threadsFor_bounds {items threads : Nat} (h : threadsFor items caps = .ok threads) :
    0 < threads ∧ threads ≤ maxReductionThreads := by
  obtain ⟨rfl, -⟩ := threadsFor_eq_ok h
  obtain ⟨levels, hpower⟩ := threadCount_eq items caps
  obtain ⟨k, hk, hlimit⟩ := threadLimit_eq caps
  refine ⟨hpower ▸ Nat.two_pow_pos levels, (Nat.min_le_right _ _).trans ?_⟩
  rw [hlimit]
  exact Nat.pow_le_pow_right (by decide) hk

theorem threadsFor_shortage {items : Nat} (hlimited : limited)
    (h : small → items < moderateBound) :
    FailsOnly (Shortage caps limited small) (threadsFor items caps) := by
  unfold threadsFor
  split
  · rename_i hlarge
    exact .error (.size fun hsmall => ((h hsmall).trans moderateBound_lt.1).not_gt hlarge)
  · simp only
    split
    · exact .ok _
    · rename_i hmemory
      exact .error (.memory hlimited (Nat.lt_of_not_le hmemory))

end Synthesis.Reduction

namespace TilePlan

/-- The local memory of a plan with at most 256 threads is bounded by the filter alone. -/
theorem localBytes_withThreads_le (rows columns size : Nat) (caps : Capabilities) {k : Nat}
    (hk : k ≤ 8) :
    (withThreads rows columns size caps (2 ^ k)).localBytes ≤ 136 * (size * size) + 5128 := by
  have htile : ∀ k ≤ 8, 2 ^ k / columnsFor (2 ^ k) ≤ 16 ∧ columnsFor (2 ^ k) ≤ 16 := by decide
  obtain ⟨htileRows, htileColumns⟩ := htile k hk
  have hthreads : 2 ^ k ≤ 256 := Nat.pow_le_pow_right (by decide) hk
  have hhalo : (withThreads rows columns size caps (2 ^ k)).haloWords ≤ (16 + size) * (16 + size) :=
    Nat.mul_le_mul (Nat.add_le_add htileRows (Nat.mul_div_le size 2))
      (Nat.add_le_add htileColumns (Nat.mul_div_le size 2))
  have hsquare : (16 + size) * (16 + size) = size * size + 32 * size + 256 := by ring
  have hsize : size ≤ size * size := Nat.le_mul_self size
  simp only [localBytes, localWords, treeWords, outputs, wordBytes]
  simp only [withThreads] at hhalo ⊢
  omega

theorem tiles_withThreads_le {rows columns size : Nat} (caps : Capabilities) (hrows : 0 < rows)
    (hcolumns : 0 < columns) (hodd : size % 2 = 1) (k : Nat) :
    (withThreads rows columns size caps (2 ^ k)).tiles ≤ rows * columns := by
  have hregular := regular_withThreads caps k hrows hcolumns hodd
  exact Nat.mul_le_mul (ceilDiv_le rows hregular.tileRows_pos)
    (ceilDiv_le columns hregular.tileColumns_pos)

/-- A plan has no more workgroups than the device allows, and no more than the image has points. -/
theorem groups_withThreads_le {rows columns size : Nat} (caps : Capabilities) (hrows : 0 < rows)
    (hcolumns : 0 < columns) (hodd : size % 2 = 1) (k : Nat) :
    (withThreads rows columns size caps (2 ^ k)).groups ≤ groupLimit caps ∧
      (withThreads rows columns size caps (2 ^ k)).groups ≤ rows * columns := by
  have htiles := tiles_withThreads_le caps hrows hcolumns hodd k
  exact ⟨Nat.max_le.2 ⟨Nat.min_le_right _ _, groupLimit_pos caps⟩,
    Nat.max_le.2 ⟨(Nat.min_le_left _ _).trans htiles, Nat.mul_pos hrows hcolumns⟩⟩

/-- The sizes of a plan with at most 256 threads fit if those of the image and of the filter are
small. -/
theorem fits_withThreads {rows columns size : Nat} (hrows : 0 < rows) (hcolumns : 0 < columns)
    (hodd : size % 2 = 1) (hplane : rows * columns < moderateBound)
    (hgroups : groupLimit caps < moderateBound) (hsize : size * size < moderateBound) {k : Nat}
    (hk : k ≤ 8) : (withThreads rows columns size caps (2 ^ k)).fits caps = true := by
  have htiles := tiles_withThreads_le caps hrows hcolumns hodd k
  have hbytes := localBytes_withThreads_le rows columns size caps hk
  have hroom : 136 * moderateBound + 5128 ≤ sizeBound := by decide
  simp only [fits, Bool.and_eq_true, decide_eq_true_eq]
  omega

theorem searchFrom_shortage {rows columns size : Nat} (hlimited : limited) (fuel : Nat) {k : Nat}
    (hfuel : k < fuel)
    (hfits : small → ∀ i ≤ k, (withThreads rows columns size caps (2 ^ i)).fits caps = true) :
    FailsOnly (Shortage caps limited small) (searchFrom rows columns size caps fuel (2 ^ k)) := by
  induction fuel generalizing k with
  | zero => exact absurd hfuel (Nat.not_lt_zero k)
  | succ fuel ih =>
      rw [searchFrom]
      split
      · rename_i hlarge
        refine .error (.size fun hsmall => ?_)
        rw [hfits hsmall k (Nat.le_refl k)] at hlarge
        cases hlarge
      · split
        · exact .ok _
        · rename_i hmemory
          split
          · exact .error (.memory hlimited (Nat.lt_of_not_le hmemory))
          · rename_i hmin
            -- at least sixteen threads are left, so the power does not run out
            cases k with
            | zero => exact absurd (by decide) hmin
            | succ k =>
                rw [pow_succ, Nat.mul_div_cancel _ Nat.two_pos]
                exact ih (Nat.lt_of_succ_lt_succ hfuel) fun hsmall i hi =>
                  hfits hsmall i (Nat.le_succ_of_le hi)

theorem search_threads_le {rows columns size : Nat} {p : TilePlan}
    (h : search rows columns size caps = .ok p) : p.threads ≤ maxReductionThreads := by
  obtain ⟨k, hk, hlimit⟩ := threadLimit_eq caps
  rw [search, hlimit] at h
  obtain ⟨i, rfl, -, -, -, hle⟩ := searchFrom_eq_ok _ h
  exact Nat.pow_le_pow_right (i := i) (j := 8) (by decide) (hle.trans hk)

/-- There is a plan unless the local memory is short. -/
theorem search_shortage {rows columns size : Nat} (hlimited : limited) (hrows : 0 < rows)
    (hcolumns : 0 < columns) (hodd : size % 2 = 1)
    (h : small → rows * columns < moderateBound ∧ groupLimit caps < moderateBound ∧
      size * size < moderateBound) :
    FailsOnly (Shortage caps limited small) (search rows columns size caps) := by
  obtain ⟨k, hk, hlimit⟩ := threadLimit_eq caps
  simp only [search, hlimit, Nat.log2_two_pow]
  refine searchFrom_shortage hlimited _ (Nat.lt_succ_self k) fun hsmall i hi => ?_
  obtain ⟨hplane, hgroups, hsize⟩ := h hsmall
  exact fits_withThreads hrows hcolumns hodd hplane hgroups hsize (hi.trans hk)

end TilePlan

end FieldCircuit
