import FieldCircuit.Proofs.FilterAdjoint
import FieldCircuit.Proofs.SizeRounding
import Mathlib.Order.Lattice.Nat

/-!
# The search for a tile plan

The search for a plan starts from the greatest power of two of threads that the device allows and
halves it, down to sixteen threads or, on a device that allows fewer, not at all. It finds the
greatest of these thread counts for which local memory has room, and fails exactly if there is none.

The lower bound of sixteen threads is looked at only where a count is halved. A device that allows
fewer threads is therefore given a plan with as many as it allows, and one that allows a single
thread a plan whose trees have no root, so that its workgroups leave zeros.
-/

namespace FieldCircuit

theorem isGreatest_threadLimit (caps : Capabilities) :
    IsGreatest {t | (∃ k, t = 2 ^ k) ∧ t ≤ max (min caps.maxWorkgroup maxReductionThreads) 1}
      (threadLimit caps) :=
  isGreatest_floorPowerOfTwo _

/-- A power of two of threads is allowed by a device that allows as many threads. -/
theorem two_pow_le_threadLimit_iff {caps : Capabilities} {k : Nat} (hk : 0 < k)
    (hmax : 2 ^ k ≤ maxReductionThreads) :
    2 ^ k ≤ threadLimit caps ↔ 2 ^ k ≤ caps.maxWorkgroup := by
  have hone : 1 < 2 ^ k := Nat.one_lt_two_pow (by omega)
  have hgreatest := isGreatest_threadLimit caps
  constructor
  · intro h
    have := hgreatest.1.2
    omega
  · intro h
    exact hgreatest.2 ⟨⟨k, rfl⟩, by omega⟩

namespace TilePlan

variable {rows columns size : Nat} {caps : Capabilities} {p : TilePlan}

def candidates (caps : Capabilities) : Set Nat :=
  {t | (∃ k, t = 2 ^ k) ∧ min minTileThreads (threadLimit caps) ≤ t ∧ t ≤ threadLimit caps}

def feasible (rows columns size : Nat) (caps : Capabilities) : Set Nat :=
  {t ∈ candidates caps | (withThreads rows columns size caps t).localBytes ≤ caps.localMemory}

theorem mem_candidates_iff {k i : Nat} (hk : threadLimit caps = 2 ^ k) :
    2 ^ i ∈ candidates caps ↔ min 4 k ≤ i ∧ i ≤ k := by
  have hmin : min minTileThreads (2 ^ k) = 2 ^ min 4 k := min_two_pow 4 k
  have hpow : ∀ {m n : Nat}, 2 ^ m ≤ 2 ^ n ↔ m ≤ n := Nat.pow_le_pow_iff_right (by decide)
  constructor
  · rintro ⟨-, hmin', hle⟩
    rw [hk] at hmin' hle
    rw [hmin, hpow] at hmin'
    exact ⟨hmin', hpow.1 hle⟩
  · rintro ⟨hmin', hle⟩
    refine ⟨⟨i, rfl⟩, ?_, ?_⟩
    · rw [hk, hmin]
      exact hpow.2 hmin'
    · rw [hk]
      exact hpow.2 hle

/-- The search goes down to the first thread count for which local memory has room, provided that
the halving does not end before. -/
theorem searchFrom_eq_ok_of_room {fuel k i : Nat} (hfuel : k < fuel) (hle : i ≤ k)
    (hmin : min 4 k ≤ i)
    (hfits : ∀ j, i ≤ j → j ≤ k → (withThreads rows columns size caps (2 ^ j)).fits caps = true)
    (hroom : (withThreads rows columns size caps (2 ^ i)).localBytes ≤ caps.localMemory)
    (hfull : ∀ j, i < j → j ≤ k →
      caps.localMemory < (withThreads rows columns size caps (2 ^ j)).localBytes) :
    searchFrom rows columns size caps fuel (2 ^ k) =
      .ok (withThreads rows columns size caps (2 ^ i)) := by
  induction fuel generalizing k with
  | zero => omega
  | succ fuel ih =>
      simp only [searchFrom, hfits k hle (Nat.le_refl k), Bool.not_true, Bool.false_eq_true,
        if_false]
      rcases Nat.eq_or_lt_of_le hle with rfl | hlt
      · rw [if_pos hroom]
      · have hlarge : ¬ 2 ^ (k - 1) < minTileThreads :=
          Nat.not_lt.2 (Nat.pow_le_pow_right (i := 4) Nat.two_pos (by omega))
        rw [if_neg (Nat.not_le.2 (hfull k hlt (Nat.le_refl k))), half_two_pow (by omega),
          if_neg hlarge]
        exact ih (by omega) (by omega) (by omega) (fun j hij hjk => hfits j hij (by omega))
          (fun j hij hjk => hfull j hij (by omega))

/-- The search fails with the bytes of the last thread count if local memory has room for none. -/
theorem searchFrom_eq_exhausted {fuel k : Nat} (hfuel : k < fuel)
    (hfits : ∀ j, min 4 k ≤ j → j ≤ k →
      (withThreads rows columns size caps (2 ^ j)).fits caps = true)
    (hfull : ∀ j, min 4 k ≤ j → j ≤ k →
      caps.localMemory < (withThreads rows columns size caps (2 ^ j)).localBytes) :
    searchFrom rows columns size caps fuel (2 ^ k) =
      .error (.localMemoryExhausted "filter adjoint"
        (withThreads rows columns size caps (2 ^ min 4 k)).localBytes caps.localMemory) := by
  induction fuel generalizing k with
  | zero => omega
  | succ fuel ih =>
      have hk : min 4 k ≤ k := Nat.min_le_right 4 k
      simp only [searchFrom, hfits k hk (Nat.le_refl k), Bool.not_true, Bool.false_eq_true,
        if_false]
      rw [if_neg (Nat.not_le.2 (hfull k hk (Nat.le_refl k)))]
      by_cases hsmall : k ≤ 4
      · have hlast : 2 ^ k / 2 < minTileThreads :=
          Nat.div_lt_of_lt_mul (Nat.pow_lt_pow_right (a := 2) (n := 5) (by decide) (by omega))
        rw [if_pos hlast, Nat.min_eq_right hsmall]
      · have hlarge : ¬ 2 ^ (k - 1) < minTileThreads :=
          Nat.not_lt.2 (Nat.pow_le_pow_right (i := 4) Nat.two_pos (by omega))
        have hmin : min 4 (k - 1) = min 4 k := by omega
        rw [half_two_pow (by omega), if_neg hlarge, ih (by omega), hmin]
        · exact fun j hij hjk => hfits j (by omega) (by omega)
        · exact fun j hij hjk => hfull j (by omega) (by omega)

theorem search_eq_ok_of_isGreatest {t : Nat} (ht : IsGreatest (feasible rows columns size caps) t)
    (hfits : ∀ u ∈ candidates caps, t ≤ u →
      (withThreads rows columns size caps u).fits caps = true) :
    search rows columns size caps = .ok (withThreads rows columns size caps t) := by
  obtain ⟨k, -, hk⟩ := threadLimit_eq caps
  obtain ⟨⟨⟨⟨i, rfl⟩, hcandidate⟩, hroom⟩, hgreatest⟩ := ht
  obtain ⟨hmin, hle⟩ := (mem_candidates_iff hk).1 ⟨⟨i, rfl⟩, hcandidate⟩
  rw [search, hk, Nat.log2_two_pow]
  refine searchFrom_eq_ok_of_room (Nat.lt_succ_self k) hle hmin ?_ hroom ?_
  · intro j hij hjk
    exact hfits _ ((mem_candidates_iff hk).2 ⟨by omega, hjk⟩) (Nat.pow_le_pow_right (by decide) hij)
  · intro j hij hjk
    by_contra hbytes
    have hle := hgreatest ⟨(mem_candidates_iff hk).2 ⟨by omega, hjk⟩, Nat.not_lt.1 hbytes⟩
    exact absurd ((Nat.pow_le_pow_iff_right (by decide)).1 hle) (Nat.not_le.2 hij)

theorem search_eq_exhausted (hnone : feasible rows columns size caps = ∅)
    (hfits : ∀ u ∈ candidates caps, (withThreads rows columns size caps u).fits caps = true) :
    search rows columns size caps = .error (.localMemoryExhausted "filter adjoint"
      (withThreads rows columns size caps (min minTileThreads (threadLimit caps))).localBytes
      caps.localMemory) := by
  obtain ⟨k, -, hk⟩ := threadLimit_eq caps
  have hmin : min minTileThreads (2 ^ k) = 2 ^ min 4 k := min_two_pow 4 k
  rw [search, hk, Nat.log2_two_pow, hmin]
  refine searchFrom_eq_exhausted (Nat.lt_succ_self k) ?_ ?_
  · exact fun j hij hjk => hfits _ ((mem_candidates_iff hk).2 ⟨hij, hjk⟩)
  · intro j hij hjk
    by_contra hbytes
    have hmem : 2 ^ j ∈ feasible rows columns size caps :=
      ⟨(mem_candidates_iff hk).2 ⟨hij, hjk⟩, Nat.not_lt.1 hbytes⟩
    rw [hnone] at hmem
    exact hmem

/-- Thread counts are bounded, so that there is a greatest feasible one unless there is none. -/
theorem exists_isGreatest_feasible (h : (feasible rows columns size caps).Nonempty) :
    ∃ t, IsGreatest (feasible rows columns size caps) t := by
  have hbounded : BddAbove (feasible rows columns size caps) :=
    ⟨threadLimit caps, fun t ht => ht.1.2.2⟩
  exact ⟨_, Nat.sSup_mem h hbounded, fun t ht => le_csSup hbounded ht⟩

/-- Every point of the image lies in exactly one tile. -/
theorem Regular.existsUnique_tile (h : p.Regular) {r c : Nat} (hr : r < p.rows)
    (hc : c < p.columns) :
    ∃! t, t < p.tiles ∧
      Correlation.tileRow p t ≤ r ∧ r < Correlation.tileRow p t + p.tileRows ∧
      Correlation.tileColumn p t ≤ c ∧ c < Correlation.tileColumn p t + p.tileColumns := by
  have hdown : r / p.tileRows < p.tilesDown :=
    Nat.div_lt_of_lt_mul (Nat.mul_comm p.tilesDown _ ▸ Nat.lt_of_lt_of_le hr h.rows_le)
  have hacross : c / p.tileColumns < p.tilesAcross :=
    Nat.div_lt_of_lt_mul (Nat.mul_comm p.tilesAcross _ ▸ Nat.lt_of_lt_of_le hc h.columns_le)
  have hinside : ∀ {n : Nat} (m : Nat), 0 < n → m / n * n ≤ m ∧ m < m / n * n + n := fun m hn =>
    ⟨Nat.div_mul_le_self _ _, Nat.lt_div_mul_add hn⟩
  simp only [Correlation.tileRow, Correlation.tileColumn]
  refine ⟨r / p.tileRows * p.tilesAcross + c / p.tileColumns,
    ⟨lt_mul_of_digits hdown hacross, ?_⟩, ?_⟩
  · rw [digits_div hacross, digits_mod hacross]
    obtain ⟨hrow, hrow'⟩ := hinside r h.tileRows_pos
    obtain ⟨hcolumn, hcolumn'⟩ := hinside c h.tileColumns_pos
    exact ⟨hrow, hrow', hcolumn, hcolumn'⟩
  · rintro t ⟨-, hrow, hrow', hcolumn, hcolumn'⟩
    have hdiv : r / p.tileRows = t / p.tilesAcross :=
      Nat.div_eq_of_lt_le hrow (by rwa [Nat.succ_mul])
    have hmod : c / p.tileColumns = t % p.tilesAcross :=
      Nat.div_eq_of_lt_le hcolumn (by rwa [Nat.succ_mul])
    rw [hdiv, hmod, Nat.div_add_mod']

/-- A plan has at least one workgroup, and no more than it has tiles or the device has use for. -/
theorem groups_withThreads {t : Nat} (h : 0 < (withThreads rows columns size caps t).tiles) :
    let p := withThreads rows columns size caps t
    1 ≤ p.groups ∧ p.groups ≤ p.tiles ∧ p.groups ≤ groupLimit caps := by
  have hlimit := groupLimit_pos caps
  have hone : Nat.max (Nat.min (withThreads rows columns size caps t).tiles (groupLimit caps)) 1 =
      Nat.min (withThreads rows columns size caps t).tiles (groupLimit caps) :=
    Nat.max_eq_left (Nat.lt_min.2 ⟨h, hlimit⟩)
  refine ⟨Nat.le_max_right _ _, ?_, ?_⟩
  · exact hone.trans_le (Nat.min_le_left _ _)
  · exact hone.trans_le (Nat.min_le_right _ _)

/-- The search is optimal and complete. Where no size that it computes leaves the machine sizes,
which are those of the thread counts down to the greatest feasible one, it returns the plan with the
greatest power of two of threads, from the greatest that the device allows down to sixteen, for
which local memory has room, and it fails exactly if there is none. The tiles of the plan have one
point per thread, they cover the image, every point once, with as few rows and columns of tiles as
possible, and there is a workgroup, but not more than tiles or four per compute unit. -/
theorem search_greatest_feasible (hrows : 0 < rows) (hcolumns : 0 < columns)
    (hodd : size % 2 = 1)
    (hsizes : ∀ t ∈ candidates caps, (∀ u ∈ feasible rows columns size caps, u ≤ t) →
      (withThreads rows columns size caps t).fits caps = true) :
    IsGreatest {t | (∃ k, t = 2 ^ k) ∧ t ≤ max (min caps.maxWorkgroup 256) 1}
        (threadLimit caps) ∧
      ((∃ p, search rows columns size caps = .ok p) ↔
        (feasible rows columns size caps).Nonempty) ∧
      ((∃ required, search rows columns size caps =
          .error (.localMemoryExhausted "filter adjoint" required caps.localMemory)) ↔
        feasible rows columns size caps = ∅) ∧
      ∀ p, search rows columns size caps = .ok p →
        p = withThreads rows columns size caps p.threads ∧
        IsGreatest (feasible rows columns size caps) p.threads ∧
        p.tileRows * p.tileColumns = p.threads ∧
        IsLeast {n | rows ≤ n * p.tileRows} p.tilesDown ∧
        IsLeast {n | columns ≤ n * p.tileColumns} p.tilesAcross ∧
        (∀ r < rows, ∀ c < columns, ∃! t, t < p.tiles ∧
          Correlation.tileRow p t ≤ r ∧ r < Correlation.tileRow p t + p.tileRows ∧
          Correlation.tileColumn p t ≤ c ∧ c < Correlation.tileColumn p t + p.tileColumns) ∧
        1 ≤ p.groups ∧ p.groups ≤ p.tiles ∧ p.groups ≤ 4 * max 1 caps.computeUnits := by
  have hfound : ∀ {t}, IsGreatest (feasible rows columns size caps) t →
      search rows columns size caps = .ok (withThreads rows columns size caps t) := fun ht =>
    search_eq_ok_of_isGreatest ht fun u hu htu =>
      hsizes u hu fun v hv => (ht.2 hv).trans htu
  have hexhausted : feasible rows columns size caps = ∅ →
      ∃ required, search rows columns size caps =
        .error (.localMemoryExhausted "filter adjoint" required caps.localMemory) := fun hnone =>
    ⟨_, search_eq_exhausted hnone fun u hu => hsizes u hu fun v hv => by
      rw [hnone] at hv
      exact hv.elim⟩
  have hempty : ¬ (feasible rows columns size caps).Nonempty ↔
      feasible rows columns size caps = ∅ := Set.not_nonempty_iff_eq_empty
  refine ⟨isGreatest_threadLimit caps, ⟨?_, ?_⟩, ⟨?_, hexhausted⟩, ?_⟩
  · rintro ⟨p, hp⟩
    by_contra hnone
    obtain ⟨required, herror⟩ := hexhausted (hempty.1 hnone)
    cases hp.symm.trans herror
  · intro hsome
    obtain ⟨t, ht⟩ := exists_isGreatest_feasible hsome
    exact ⟨_, hfound ht⟩
  · rintro ⟨required, herror⟩
    refine hempty.1 fun hsome => ?_
    obtain ⟨t, ht⟩ := exists_isGreatest_feasible hsome
    cases herror.symm.trans (hfound ht)
  · intro p hp
    have hsome : (feasible rows columns size caps).Nonempty := by
      by_contra hnone
      obtain ⟨required, herror⟩ := hexhausted (hempty.1 hnone)
      cases hp.symm.trans herror
    obtain ⟨t, ht⟩ := exists_isGreatest_feasible hsome
    obtain rfl : p = withThreads rows columns size caps t :=
      Except.ok.inj (hp.symm.trans (hfound ht))
    obtain ⟨k, rfl⟩ := ht.1.1.1
    have hregular := regular_withThreads caps k hrows hcolumns hodd
    obtain ⟨tile, htile, -⟩ := hregular.existsUnique_tile hrows hcolumns
    obtain ⟨hone, htiles, hlimit⟩ := groups_withThreads (Nat.zero_lt_of_lt htile.1)
    refine ⟨rfl, ht, hregular.tile, isLeast_ceilDiv rows hregular.tileRows_pos,
      isLeast_ceilDiv columns hregular.tileColumns_pos,
      fun r hr c hc => hregular.existsUnique_tile hr hc, hone, htiles, ?_⟩
    calc (withThreads rows columns size caps (2 ^ k)).groups ≤ groupLimit caps := hlimit
      _ = max caps.computeUnits 1 * 4 := rfl
      _ = 4 * max 1 caps.computeUnits := by rw [max_comm, Nat.mul_comm]

/-- A filter of fifteen by fifteen points finds no room in eight kilobytes for the 256 threads that
the device allows, but for half as many. -/
theorem search_greatest_feasible_fifteen :
    search 64 64 15 ⟨8192, 256, 16, 1073741824⟩ =
        .ok (withThreads 64 64 15 ⟨8192, 256, 16, 1073741824⟩ 128) ∧
      IsGreatest (feasible 64 64 15 ⟨8192, 256, 16, 1073741824⟩) 128 ∧
      IsLeast {n | 64 ≤ n * 8} 8 := by
  have hfits : ∀ k, 4 ≤ k ∧ k ≤ 8 → (withThreads 64 64 15 ⟨8192, 256, 16, 1073741824⟩
      (2 ^ k)).fits ⟨8192, 256, 16, 1073741824⟩ = true := by
    rintro k ⟨hmin, hle⟩
    obtain rfl | rfl | rfl | rfl | rfl : k = 4 ∨ k = 5 ∨ k = 6 ∨ k = 7 ∨ k = 8 := by omega
    all_goals rfl
  have hsearch : search 64 64 15 ⟨8192, 256, 16, 1073741824⟩ =
      .ok (withThreads 64 64 15 ⟨8192, 256, 16, 1073741824⟩ 128) := rfl
  have hsizes : ∀ t ∈ candidates ⟨8192, 256, 16, 1073741824⟩,
      (∀ u ∈ feasible 64 64 15 ⟨8192, 256, 16, 1073741824⟩, u ≤ t) →
        (withThreads 64 64 15 ⟨8192, 256, 16, 1073741824⟩ t).fits
          ⟨8192, 256, 16, 1073741824⟩ = true := by
    rintro t ht -
    obtain ⟨k, rfl⟩ := ht.1
    exact hfits k ((mem_candidates_iff (k := 8) rfl).1 ht)
  obtain ⟨-, -, -, hplan⟩ :=
    search_greatest_feasible (by decide) (by decide) (by decide) hsizes
  obtain ⟨-, hgreatest, -, hdown, -⟩ := hplan _ hsearch
  exact ⟨hsearch, hgreatest, hdown⟩

/-- What the search returns has a feasible thread count. -/
theorem search_eq_ok_mem (h : search rows columns size caps = .ok p) :
    p = withThreads rows columns size caps p.threads ∧ p.Tiled ∧
      p.threads ∈ feasible rows columns size caps := by
  obtain ⟨k, -, hk⟩ := threadLimit_eq caps
  rw [search, hk] at h
  obtain ⟨i, rfl, -, hroom, hmin, hle⟩ := searchFrom_eq_ok _ h
  exact ⟨rfl, tiled_withThreads rows columns size caps i,
    (mem_candidates_iff hk).2 ⟨hmin, hle⟩, hroom⟩

/-- A candidate has a certain power of two of threads, up to sixteen, if the device allows as many.
-/
theorem two_pow_le_of_mem_candidates {t k : Nat} (ht : t ∈ candidates caps) (hk : 0 < k)
    (hmin : 2 ^ k ≤ minTileThreads) : 2 ^ k ≤ t ↔ 2 ^ k ≤ caps.maxWorkgroup := by
  have hmax : 2 ^ k ≤ maxReductionThreads := hmin.trans (by decide)
  rw [← two_pow_le_threadLimit_iff hk hmax]
  exact ⟨fun h => h.trans ht.2.2, fun h => (Nat.le_min.2 ⟨hmin, h⟩).trans ht.2.1⟩

end TilePlan

namespace Correlation

variable {p : TilePlan}

theorem one_mem_nodeThreads_iff : 1 ∈ nodeThreads p ↔ 2 ≤ p.threads := by
  simp only [nodeThreads, List.mem_map, List.mem_range, Nat.add_eq_right, exists_eq_right]
  omega

/-- A tree over a single thread has no root, so that its workgroup leaves the zeros that it starts
from. -/
theorem group_eq_zeros {α : Type} (ar : Arithmetic α) (hp : p.Tiled) (hone : p.threads < 2)
    {image gradient : Array α} (himage : image.size = p.rows * p.columns)
    (hgradient : gradient.size = p.rows * p.columns) {m : LocalMemory α} (hm : m.Sized p)
    (g : Nat) :
    ∃ m', group ar p image gradient m g = .ok m' ∧
      m'.staging = Array.replicate p.outputs ar.zero := by
  have hlevels : p.levels = 0 := by
    by_contra hlevels
    have hthreads : 2 ^ 1 ≤ 2 ^ p.levels := Nat.pow_le_pow_right (by decide) (by omega)
    rw [← hp.threads] at hthreads
    omega
  obtain ⟨m', hgroup, -, hstaging⟩ := group_eq_ok ar hp himage hgradient hm g
  refine ⟨m', hgroup, ?_⟩
  rw [hstaging, replicate_eq_table]
  refine table_congr fun i _ => ?_
  simp only [groupWord, hlevels, if_true, List.foldl_fixed]

end Correlation

namespace TilePlan

variable {rows columns size : Nat} {caps : Capabilities} {p : TilePlan}

/-- How few threads a plan may have: no fewer than sixteen or, on a device that allows fewer, than
the device allows. So there are sixteen exactly if the device allows sixteen, and a thread for the
root of the trees exactly if it allows two. If it does not, every workgroup leaves zeros, whatever
the image and the gradient are. -/
theorem search_threads (h : search rows columns size caps = .ok p) :
    min minTileThreads (threadLimit caps) ≤ p.threads ∧
      (minTileThreads ≤ p.threads ↔ minTileThreads ≤ caps.maxWorkgroup) ∧
      (1 ∈ Correlation.nodeThreads p ↔ 2 ≤ caps.maxWorkgroup) ∧
      (caps.maxWorkgroup < 2 → ∀ {α : Type} (ar : Arithmetic α) {image gradient : Array α}
        (m : Correlation.LocalMemory α) (g : Nat), image.size = p.rows * p.columns →
        gradient.size = p.rows * p.columns → m.Sized p →
        ∃ m', Correlation.group ar p image gradient m g = .ok m' ∧
          m'.staging = Array.replicate p.outputs ar.zero) := by
  obtain ⟨-, hp, hcandidate, -⟩ := search_eq_ok_mem h
  have hroot : 2 ≤ p.threads ↔ 2 ≤ caps.maxWorkgroup :=
    two_pow_le_of_mem_candidates (k := 1) hcandidate (by decide) (by decide)
  refine ⟨hcandidate.2.1, two_pow_le_of_mem_candidates (k := 4) hcandidate (by decide) (by decide),
    Correlation.one_mem_nodeThreads_iff.trans hroot, ?_⟩
  intro hone α ar image gradient m g himage hgradient hm
  have hthreads : p.threads < 2 := by omega
  exact Correlation.group_eq_zeros ar hp hthreads himage hgradient hm g

/-- On a device that allows a single thread, a workgroup leaves zeros although every product is one.
-/
theorem search_threads_single : ∃ p, search 2 2 3 ⟨49152, 1, 16, 1073741824⟩ = .ok p ∧
    min minTileThreads (threadLimit ⟨49152, 1, 16, 1073741824⟩) ≤ p.threads ∧
      ∃ m', Correlation.group .integers p #[1, 1, 1, 1] #[1, 1, 1, 1] (.initial .integers p) 0 =
          .ok m' ∧ m'.staging = Array.replicate 9 0 := by
  obtain ⟨p, hp, hrows, hcolumns, hsize⟩ : ∃ p, search 2 2 3 ⟨49152, 1, 16, 1073741824⟩ = .ok p ∧
      p.rows = 2 ∧ p.columns = 2 ∧ p.size = 3 := ⟨_, rfl, rfl, rfl, rfl⟩
  obtain ⟨hmin, -, -, hzeros⟩ := search_threads hp
  have hm : (Correlation.LocalMemory.initial .integers p).Sized p := by
    constructor <;> simp [Correlation.LocalMemory.initial]
  have hwords : (#[1, 1, 1, 1] : Array ℤ).size = p.rows * p.columns := by rw [hrows, hcolumns]; rfl
  obtain ⟨m', hgroup, hstaging⟩ := hzeros (by decide) .integers _ 0 hwords hwords hm
  refine ⟨p, hp, hmin, m', hgroup, ?_⟩
  rw [hstaging, outputs, hsize]
  rfl

/-- A device that allows a single thread is given a plan, although sixteen are the fewest that are
accepted, and its trees have no root. -/
theorem search_below_minimum : ∃ p, search 4 4 3 ⟨49152, 1, 16, 1073741824⟩ = .ok p ∧
    p.threads < minTileThreads ∧ 1 ∉ Correlation.nodeThreads p :=
  ⟨_, rfl, by decide, by decide⟩

end TilePlan

end FieldCircuit
