import FieldCircuit.Proofs.Memory.Accounting

/-!
# Reuse of freed blocks

Somebody who allocates, overwrites and gives back blocks of an accelerator cannot tell whether the
allocator keeps freed blocks for reuse. With and without a cache the same requests succeed, those that
fit beside the live blocks, and they yield the same zeroed blocks: kept blocks do count against the
capacity, but they are given up before a request is refused on their account. A request that fits but asks
for more than a block can have is a fault in both, after which there is nothing to go on with.
-/

namespace FieldCircuit

/-- An allocator, and the blocks that it has handed out and not got back. -/
structure Tenancy where
  allocator : Allocator
  live : List Contents

namespace Tenancy

/-- What the holder of the blocks does. Live blocks are known by their positions. -/
inductive Request
  | alloc (size : Nat)
  /-- Replaces the first words of a block, as many as there are values and room. -/
  | overwrite (block : Nat) (values : Array Float32)
  | free (block : Nat)

/-- Serves a request. One that is refused, or that is about a block that is not there, leaves the blocks
as they are. -/
def serve (s : Tenancy) : Request → Tenancy
  | .alloc size =>
    match s.allocator.alloc size with
    | (.ok block, allocator) => ⟨allocator, s.live ++ [block]⟩
    | (.error _, allocator) => ⟨allocator, s.live⟩
  | .overwrite i values => { s with live := s.live.modify i (·.overwritten .single values) }
  | .free i =>
    match s.live[i]? with
    | some block => ⟨s.allocator.free block, s.live.eraseIdx i⟩
    | none => s

def after (s : Tenancy) (requests : List Request) : Tenancy := requests.foldl serve s

/-- A request for some bytes keeps the count of the pool below the bound of the machine sizes. -/
def Counts (s : Tenancy) (size : Nat) : Prop :=
  ∀ n ∈ s.allocator.pool.allocated?, n + Pool.roundedBytes size < sizeBound

/-- Requests that are served one after the other. Those for blocks keep the count there, and none of them
has left the range that the library computes in: there is nothing to go on with after a fault. -/
def Course : Tenancy → List Request → Prop
  | _, [] => True
  | s, .alloc size :: later => s.Counts size ∧
      (∀ e, (s.allocator.alloc size).1 = .error e → e.isFault = false) ∧
      Course (s.serve (.alloc size)) later
  | s, r :: later => Course (s.serve r) later

def new (id capacity : Nat) (limit : Option Nat) : Tenancy :=
  ⟨⟨.accelerator id capacity 0, limit.map Cache.empty⟩, []⟩

end Tenancy

namespace Pool

variable {capacity live size available : Nat} {block : Contents}

/-- What becomes of a request for some bytes, if a pool has that much left. -/
def granted (capacity live available size : Nat) : Except DeviceError Contents :=
  if capacity < live + roundedBytes size then
    .error (.outOfMemory (roundedBytes size) available)
  else if signedBound ≤ roundedBytes size then .error (.fault .sizeOverflow)
  else .ok (.zeros size .accelerator)

theorem granted_of_lt (h : capacity < live + roundedBytes size) :
    granted capacity live available size = .error (.outOfMemory (roundedBytes size) available) :=
  if_pos h

theorem granted_of_large (hfits : live + roundedBytes size ≤ capacity)
    (h : signedBound ≤ roundedBytes size) :
    granted capacity live available size = .error (.fault .sizeOverflow) := by
  rw [granted, if_neg (Nat.not_lt.2 hfits), if_pos h]

theorem granted_eq_ok_iff : granted capacity live available size = .ok block ↔
    live + roundedBytes size ≤ capacity ∧ roundedBytes size < signedBound ∧
      block = .zeros size .accelerator := by
  unfold granted
  split_ifs with hcapacity hbound
  · exact ⟨fun hok => by (cases hok), fun hok => absurd hok.1 (Nat.not_le.2 hcapacity)⟩
  · exact ⟨fun hok => by (cases hok), fun hok => absurd hok.2.1 (Nat.not_lt.2 hbound)⟩
  · refine ⟨fun hok => ?_, fun hok => congrArg _ hok.2.2.symm⟩
    exact ⟨Nat.le_of_not_lt hcapacity, Nat.lt_of_not_le hbound, (Except.ok.inj hok).symm⟩

theorem granted_eq_fault_iff {cause : Fault} :
    granted capacity live available size = .error (.fault cause) ↔
      cause = .sizeOverflow ∧ live + roundedBytes size ≤ capacity ∧ signedBound ≤ roundedBytes size := by
  unfold granted
  split_ifs with hcapacity hbound
  · exact ⟨fun h => by (cases h), fun h => absurd h.2.1 (Nat.not_le.2 hcapacity)⟩
  · refine ⟨?_, fun h => by rw [h.1]⟩
    rintro ⟨⟩
    exact ⟨rfl, Nat.le_of_not_lt hcapacity, hbound⟩
  · exact ⟨fun h => by (cases h), fun h => absurd h.2.2 hbound⟩

theorem alloc_fst (id capacity : Nat) {n : Nat} (h : n + roundedBytes size < sizeBound) :
    ((accelerator id capacity n).alloc size).1 = granted capacity n (capacity - n) size := by
  rw [alloc_accelerator id capacity h, granted]
  split_ifs <;> rfl

end Pool

namespace Allocator

variable {a : Allocator} {id capacity live size : Nat} {block : Contents}

def Bounded (a : Allocator) : Prop :=
  ∀ c ∈ a.cache, ∀ size, c.stack size ≠ [] → size < signedBound

/-- A block is kept only if it is beside the live ones, so one that is reused fits as well. -/
theorem Accounts.size_le (h : a.Accounts id capacity live) {c : Cache} (hc : a.cache = some c)
    {size : Nat} (hblock : block ∈ c.stack size) : live + block.size ≤ capacity := by
  have hstack : block.size ≤ Contents.total (c.stack size) :=
    List.le_sum_of_mem (List.mem_map_of_mem hblock)
  have htotal := (h.cache c hc).total_withStack size []
  have hle := h.le
  rw [kept, hc, Option.elim_some] at hle
  rw [Contents.total_nil] at htotal
  omega

/-- A request that finds no kept block is granted if it fits beside the live blocks. -/
theorem Accounts.allocFresh_fst (h : a.Accounts id capacity live) {c : Cache} (hc : a.cache = some c)
    (hcount : live + a.kept + Pool.roundedBytes size < sizeBound) :
    (a.allocFresh c size).1 = Pool.granted capacity live (capacity - (live + a.kept)) size := by
  have hkept : a.kept = c.total := by rw [kept, hc, Option.elim_some]
  have hdrained := Pool.foldl_free id capacity live c.blocks
  have hlive : live + Pool.roundedBytes size < sizeBound := by omega
  unfold Allocator.allocFresh
  rw [h.pool, Pool.alloc_accelerator id capacity hcount]
  split_ifs with hcapacity hbound
  · dsimp only
    rw [hkept, Cache.total, hdrained, Pool.alloc_accelerator id capacity hlive, Pool.granted]
    split_ifs <;> rfl
  · rw [Pool.granted, if_neg (by omega), if_pos hbound]
  · rw [Pool.granted, if_neg (by omega), if_neg hbound]

/-- Whether a request is granted depends on the live blocks only, and not on the ones that are kept. -/
theorem Accounts.alloc_fst (h : a.Accounts id capacity live) (hshelved : a.Shelved)
    (hbounded : a.Bounded) (hcount : live + a.kept + Pool.roundedBytes size < sizeBound) :
    (a.alloc size).1 = Pool.granted capacity live (capacity - (live + a.kept)) size := by
  have hkey : a.key size = Pool.roundedBytes size := by rw [key, h.side]
  fun_cases Allocator.alloc a size with
  | case1 hcache result pool heq =>
      have hkept : a.kept = 0 := by rw [kept, hcache, Option.elim_none]
      rw [h.pool, hkept] at heq
      rw [hkept] at hcount ⊢
      have hfst := Pool.alloc_fst id capacity hcount
      rw [heq] at hfst
      exact hfst
  | case2 cache hcache key hbound =>
      rw [show key = _ from hkey] at hbound
      omega
  | case3 cache hcache key hbound kept rest hstack =>
      have hmem : kept ∈ cache.stack key := hstack ▸ List.mem_cons_self ..
      obtain ⟨hsize, hside⟩ := hshelved cache hcache key kept hmem
      have hfits := h.size_le hcache hmem
      have hlt := hbounded cache hcache key (by rw [hstack]; exact List.cons_ne_nil _ _)
      have hzeros := cleared_eq_zeros hsize hside
      rw [show key = _ from hkey] at hsize hlt
      rw [hsize] at hfits
      rw [h.side] at hzeros
      exact (Pool.granted_eq_ok_iff.2 ⟨hfits, hlt, hzeros⟩).symm
  | case4 cache hcache key hbound hstack => exact h.allocFresh_fst hcache hcount

theorem bounded_withStack (h : a.Bounded) {c : Cache} (hc : a.cache = some c) {blocks : List Contents}
    (hsize : blocks ≠ [] → size < signedBound) :
    Bounded { a with cache := some (c.withStack size blocks) } := by
  rintro _ ⟨⟩ other hother
  by_cases heq : other = size
  · subst heq
    rw [Cache.stack_withStack_self] at hother
    exact hsize hother
  · rw [Cache.stack_withStack_of_ne c heq] at hother
    exact h c hc other hother

theorem Bounded.alloc (h : a.Bounded) (size : Nat) : (a.alloc size).2.Bounded := by
  fun_cases Allocator.alloc a size with
  | case1 hcache result pool heq => exact h
  | case2 cache hcache key hkey => exact h
  | case3 cache hcache key hkey block rest hstack =>
      exact bounded_withStack h hcache fun _ =>
        h cache hcache key (by rw [hstack]; exact List.cons_ne_nil _ _)
  | case4 cache hcache key hkey hstack =>
      have hempty : ∀ pool : Pool, Bounded ⟨pool, some (.empty cache.limit)⟩ := by
        rintro pool _ ⟨⟩ size hsize
        exact absurd rfl hsize
      fun_cases Allocator.allocFresh a cache size with
      | case1 | case2 => exact h
      | case3 | case4 | case5 => exact hempty _

theorem Bounded.free (h : a.Bounded) (hblock : block.size < signedBound) : (a.free block).Bounded := by
  fun_cases Allocator.free a block with
  | case1 hcache => exact h
  | case2 c hcache stack hroom => exact bounded_withStack h hcache fun _ => hblock
  | case3 c hcache stack hfull => exact h

theorem limit_alloc (a : Allocator) (size : Nat) :
    (a.alloc size).2.cache.map Cache.limit = a.cache.map Cache.limit := by
  fun_cases Allocator.alloc a size with
  | case1 hcache result pool heq => rfl
  | case2 cache hcache key hkey => rfl
  | case3 cache hcache key hkey block rest hstack =>
      rw [hcache]
      rfl
  | case4 cache hcache key hkey hstack =>
      fun_cases Allocator.allocFresh a cache size with
      | case1 | case2 => rfl
      | case3 | case4 | case5 =>
          rw [hcache]
          rfl

theorem limit_free (a : Allocator) (block : Contents) :
    (a.free block).cache.map Cache.limit = a.cache.map Cache.limit := by
  fun_cases Allocator.free a block with
  | case1 hcache => rfl
  | case2 c hcache stack hroom =>
      rw [hcache]
      rfl
  | case3 c hcache stack hfull => rfl

end Allocator

theorem Contents.size_overwritten (e : Encoding) (values : Array Float32) (block : Contents) :
    (block.overwritten e values).size = block.size := by
  cases block with
  | bytes data =>
      have hwidth : (data.size / e.width) * e.width ≤ data.size := Nat.div_mul_le_self ..
      have hlength : (e.encodeAll (values.toList.take (data.size / e.width))).length ≤ data.size := by
        rw [Encoding.length_encodeAll, List.length_take]
        exact Nat.le_trans (Nat.mul_le_mul_right _ (Nat.min_le_left ..)) hwidth
      simp only [overwritten, size, List.size_toArray, List.length_append, List.length_drop,
        Array.length_toList]
      omega
  | words data =>
      simp only [overwritten, size, Array.size_append, Array.size_extract]
      omega

theorem Contents.side_overwritten (e : Encoding) (values : Array Float32) (block : Contents) :
    (block.overwritten e values).side = block.side := by
  cases block <;> rfl

namespace Tenancy

variable {id capacity limit : Nat} {s t : Tenancy}

/-- Two tenancies of accelerators with the same live blocks, of which the first keeps freed blocks. -/
structure Lockstep (id capacity limit : Nat) (s t : Tenancy) : Prop where
  live : t.live = s.live
  cached : s.allocator.Accounts id capacity (Contents.total s.live)
  bare : t.allocator.Accounts id capacity (Contents.total s.live)
  shelved : s.allocator.Shelved
  bounded : s.allocator.Bounded
  limit : s.allocator.cache.map Cache.limit = some limit
  uncached : t.allocator.cache = none
  blocks : ∀ b ∈ s.live, b.side = .accelerator ∧ b.size < signedBound

theorem lockstep_new (id capacity limit : Nat) :
    Lockstep id capacity limit (new id capacity (some limit)) (new id capacity none) := by
  refine ⟨rfl, Allocator.accounts_new id capacity (some limit),
    Allocator.accounts_new id capacity none, Allocator.shelved_empty _ _, ?_, rfl, rfl, ?_⟩
  · rintro _ ⟨⟩ size hsize
    exact absurd rfl hsize
  · exact fun b hb => by cases hb

theorem counts_iff {live size : Nat} (h : s.allocator.Accounts id capacity live) :
    s.Counts size ↔ live + s.allocator.kept + Pool.roundedBytes size < sizeBound := by
  rw [Counts, h.pool]
  refine ⟨fun hcount => hcount _ rfl, ?_⟩
  rintro hcount _ ⟨⟩
  exact hcount

/-- A request that keeps the count of the pool behind the cache in range keeps that of the other one
there. -/
theorem Lockstep.counts (h : Lockstep id capacity limit s t) {size : Nat} (hcount : s.Counts size) :
    t.Counts size := by
  have hcounted := (counts_iff h.cached).1 hcount
  have hbare : t.allocator.kept = 0 := by rw [Allocator.kept, h.uncached, Option.elim_none]
  refine (counts_iff h.bare).2 ?_
  omega

theorem Lockstep.alloc_fst (h : Lockstep id capacity limit s t) {size : Nat} (hcount : s.Counts size) :
    ∃ available available', (s.allocator.alloc size).1 =
        Pool.granted capacity (Contents.total s.live) available size ∧
      (t.allocator.alloc size).1 =
        Pool.granted capacity (Contents.total s.live) available' size := by
  have hshelved : t.allocator.Shelved := fun c hc => by rw [h.uncached] at hc; cases hc
  have hbounded : t.allocator.Bounded := fun c hc => by rw [h.uncached] at hc; cases hc
  exact ⟨_, _, h.cached.alloc_fst h.shelved h.bounded ((counts_iff h.cached).1 hcount),
    h.bare.alloc_fst hshelved hbounded ((counts_iff h.bare).1 (h.counts hcount))⟩

theorem serve_alloc_ok {size : Nat} {block : Contents} (h : (s.allocator.alloc size).1 = .ok block) :
    s.serve (.alloc size) = ⟨(s.allocator.alloc size).2, s.live ++ [block]⟩ := by
  rcases hrun : s.allocator.alloc size with ⟨result, a⟩
  rw [hrun] at h
  obtain rfl : result = .ok block := h
  simp only [serve, hrun]

theorem serve_alloc_error {size : Nat} {e : DeviceError} (h : (s.allocator.alloc size).1 = .error e) :
    s.serve (.alloc size) = ⟨(s.allocator.alloc size).2, s.live⟩ := by
  rcases hrun : s.allocator.alloc size with ⟨result, a⟩
  rw [hrun] at h
  obtain rfl : result = .error e := h
  simp only [serve, hrun]

theorem Lockstep.serve_alloc (h : Lockstep id capacity limit s t) {size : Nat}
    (hcount : s.Counts size) (hfine : ∀ e, (s.allocator.alloc size).1 = .error e → e.isFault = false) :
    Lockstep id capacity limit (s.serve (.alloc size)) (t.serve (.alloc size)) := by
  obtain ⟨available, available', hs, ht⟩ := h.alloc_fst hcount
  have hnone : (t.allocator.alloc size).2.cache = none := by
    have hlimit := Allocator.limit_alloc t.allocator size
    rw [h.uncached] at hlimit
    exact Option.map_eq_none_iff.1 hlimit
  have hlimit := (Allocator.limit_alloc s.allocator size).trans h.limit
  have hshelved := (Allocator.alloc_spec h.shelved size).1
  rcases Nat.lt_or_ge capacity (Contents.total s.live + Pool.roundedBytes size) with hlarge | hfits
  · rw [Pool.granted_of_lt hlarge] at hs ht
    rw [serve_alloc_error hs, serve_alloc_error ht]
    exact ⟨h.live, (h.cached.alloc size).2 _ hs rfl, (h.bare.alloc size).2 _ ht rfl, hshelved,
      h.bounded.alloc size, hlimit, hnone, h.blocks⟩
  rcases Nat.lt_or_ge (Pool.roundedBytes size) signedBound with hbound | hbound
  · have hgranted : ∀ available, Pool.granted capacity (Contents.total s.live) available size =
        .ok (.zeros size .accelerator) :=
      fun _ => Pool.granted_eq_ok_iff.2 ⟨hfits, hbound, rfl⟩
    rw [hgranted] at hs ht
    have htotal : ∀ block, Contents.total (s.live ++ [block]) =
        Contents.total s.live + block.size := fun block => by simp
    rw [serve_alloc_ok hs, serve_alloc_ok ht]
    refine ⟨congrArg (· ++ _) h.live, ?_, ?_, hshelved, h.bounded.alloc size, hlimit, hnone, ?_⟩
    · rw [htotal]
      exact (h.cached.alloc size).1 _ hs
    · rw [htotal]
      exact (h.bare.alloc size).1 _ ht
    · intro b hb
      rcases List.mem_append.1 hb with hb | hb
      · exact h.blocks b hb
      · rw [List.mem_singleton.1 hb, Contents.size_zeros]
        exact ⟨rfl, hbound⟩
  · rw [Pool.granted_of_large hfits hbound] at hs
    exact absurd (hfine _ hs) Bool.noConfusion

theorem total_modify {f : Contents → Contents} (hf : ∀ b, (f b).size = b.size) (i : Nat)
    (blocks : List Contents) : Contents.total (blocks.modify i f) = Contents.total blocks := by
  induction blocks generalizing i with
  | nil => cases i <;> rfl
  | cons b blocks ih => cases i with
    | zero => simp [hf]
    | succ i => simp [ih]

theorem total_eraseIdx {blocks : List Contents} {i : Nat} {block : Contents}
    (h : blocks[i]? = some block) :
    Contents.total (blocks.eraseIdx i) + block.size = Contents.total blocks := by
  obtain ⟨hi, rfl⟩ := List.getElem?_eq_some_iff.1 h
  have hperm := (List.getElem_cons_eraseIdx_perm hi).map Contents.size
  rw [Contents.total, Contents.total, ← hperm.sum_eq, List.map_cons, List.sum_cons, Nat.add_comm]

theorem Lockstep.serve_overwrite (h : Lockstep id capacity limit s t) (i : Nat)
    (values : Array Float32) :
    Lockstep id capacity limit (s.serve (.overwrite i values)) (t.serve (.overwrite i values)) := by
  have htotal : Contents.total (s.serve (.overwrite i values)).live = Contents.total s.live :=
    total_modify (Contents.size_overwritten .single values) i s.live
  refine ⟨congrArg (List.modify · i _) h.live, ?_, ?_, h.shelved, h.bounded, h.limit, h.uncached, ?_⟩
  · rw [htotal]
    exact h.cached
  · rw [htotal]
    exact h.bare
  · intro b hb
    obtain ⟨j, hj⟩ := List.mem_iff_getElem?.1 hb
    obtain ⟨b', hb', rfl⟩ := Option.map_eq_some_iff.1 ((List.getElem?_modify ..).symm.trans hj)
    obtain ⟨hside, hsize⟩ := h.blocks b' (List.mem_of_getElem? hb')
    by_cases hij : i = j
    · simp only [hij, if_true]
      rw [Contents.side_overwritten, Contents.size_overwritten]
      exact ⟨hside, hsize⟩
    · simp only [hij, if_false]
      exact ⟨hside, hsize⟩

theorem Lockstep.serve_free (h : Lockstep id capacity limit s t) (i : Nat) :
    Lockstep id capacity limit (s.serve (.free i)) (t.serve (.free i)) := by
  cases hi : s.live[i]? with
  | none =>
      have hs : s.serve (.free i) = s := by rw [serve, hi]
      have ht : t.serve (.free i) = t := by rw [serve, h.live, hi]
      rw [hs, ht]
      exact h
  | some block =>
      have hs : s.serve (.free i) = ⟨s.allocator.free block, s.live.eraseIdx i⟩ := by rw [serve, hi]
      have ht : t.serve (.free i) = ⟨t.allocator.free block, t.live.eraseIdx i⟩ := by
        rw [serve, h.live, hi]
      obtain ⟨hside, hsize⟩ := h.blocks block (List.mem_of_getElem? hi)
      have hcached := h.cached
      have hbare := h.bare
      rw [← total_eraseIdx hi] at hcached hbare
      have hnone := Allocator.limit_free t.allocator block
      rw [h.uncached] at hnone
      rw [hs, ht]
      refine ⟨congrArg (List.eraseIdx · i) h.live, hcached.free, hbare.free, ?_, h.bounded.free hsize,
        (Allocator.limit_free ..).trans h.limit, Option.map_eq_none_iff.1 hnone, ?_⟩
      · exact (Allocator.free_spec h.shelved (hside.trans hcached.side.symm)).1
      · exact fun b hb => h.blocks b (List.mem_of_mem_eraseIdx hb)

theorem Lockstep.alloc_fault_iff (h : Lockstep id capacity limit s t) {size : Nat}
    (hcount : s.Counts size) (cause : Fault) :
    ((s.allocator.alloc size).1 = .error (.fault cause) ↔
      (t.allocator.alloc size).1 = .error (.fault cause)) ∧
    ((s.allocator.alloc size).1 = .error (.fault cause) ↔ cause = .sizeOverflow ∧
      Contents.total s.live + Pool.roundedBytes size ≤ capacity ∧
      signedBound ≤ Pool.roundedBytes size) := by
  obtain ⟨available, available', hs, ht⟩ := h.alloc_fst hcount
  rw [hs, ht, Pool.granted_eq_fault_iff, Pool.granted_eq_fault_iff]
  exact ⟨Iff.rfl, Iff.rfl⟩

/-- Both follow a course together. -/
theorem Lockstep.after (h : Lockstep id capacity limit s t) {requests : List Request}
    (hcourse : s.Course requests) :
    t.Course requests ∧ Lockstep id capacity limit (s.after requests) (t.after requests) := by
  induction requests generalizing s t with
  | nil => exact ⟨trivial, h⟩
  | cons r later ih => cases r with
    | alloc size =>
        obtain ⟨hcount, hfine, hlater⟩ := hcourse
        obtain ⟨ht, hafter⟩ := ih (h.serve_alloc hcount hfine) hlater
        refine ⟨⟨h.counts hcount, fun e he => ?_, ht⟩, hafter⟩
        cases e with
        | fault cause => exact hfine _ ((h.alloc_fault_iff hcount cause).1.2 he)
        | _ => rfl
    | overwrite i values => exact ih (h.serve_overwrite i values) hcourse
    | free i => exact ih (h.serve_free i) hcourse

/-- Keeping freed blocks cannot be told apart from giving them back. An accelerator with a cache and one
without follow the same course of requests whose byte counts stay below the bound of the machine sizes, up
to the same fault. Until then they have the same live blocks, and both grant a further request exactly if
its bytes, rounded up to words, fit beside the live ones in the capacity and are no more than a block can
have; what they then hand out is zeroed and has the rounded size. A request that fits and asks for more is
a fault of both. All kept blocks stand on the shelf of their size, and no shelf has more than its limit. -/
theorem reuse_transparent (id capacity limit : Nat) {requests : List Request}
    (hcourse : (new id capacity (some limit)).Course requests) :
    let cached := (new id capacity (some limit)).after requests
    let bare := (new id capacity none).after requests
    (new id capacity none).Course requests ∧ bare.live = cached.live ∧
      (∀ size, cached.Counts size →
        (∀ block,
          ((cached.allocator.alloc size).1 = .ok block ↔ (bare.allocator.alloc size).1 = .ok block) ∧
          ((cached.allocator.alloc size).1 = .ok block ↔
            Contents.total cached.live + Pool.roundedBytes size ≤ capacity ∧
              Pool.roundedBytes size < signedBound ∧
              block = .words (Array.replicate (ceilDiv size 4) 0.0))) ∧
        ∀ cause,
          ((cached.allocator.alloc size).1 = .error (.fault cause) ↔
            (bare.allocator.alloc size).1 = .error (.fault cause)) ∧
          ((cached.allocator.alloc size).1 = .error (.fault cause) ↔ cause = .sizeOverflow ∧
            Contents.total cached.live + Pool.roundedBytes size ≤ capacity ∧
            signedBound ≤ Pool.roundedBytes size)) ∧
      ∃ c, cached.allocator.cache = some c ∧ (c.shelves.map Prod.fst).Nodup ∧
        ∀ shelf ∈ c.shelves, (∀ block ∈ shelf.2, block.size = shelf.1) ∧ shelf.2.length ≤ limit := by
  intro cached bare
  obtain ⟨htogether, h⟩ := (lockstep_new id capacity limit).after hcourse
  have h : Lockstep id capacity limit cached bare := h
  refine ⟨htogether, h.live, fun size hcount => ⟨fun block => ?_, h.alloc_fault_iff hcount⟩, ?_⟩
  · obtain ⟨available, available', hcached, hbare⟩ := h.alloc_fst hcount
    rw [hcached, hbare, Pool.granted_eq_ok_iff, Pool.granted_eq_ok_iff]
    exact ⟨Iff.rfl, Iff.rfl⟩
  · obtain ⟨c, hc, hlimit⟩ := Option.map_eq_some_iff.1 h.limit
    have horderly := h.cached.cache c hc
    refine ⟨c, hc, horderly.distinct, fun shelf hshelf => ⟨fun block hblock => ?_, ?_⟩⟩
    · rw [← horderly.stack_of_mem hshelf] at hblock
      exact (h.shelved c hc shelf.1 block hblock).1
    · rw [← hlimit, ← horderly.stack_of_mem hshelf]
      exact horderly.filled shelf.1

/-- Thirty bytes of sixty-four are overwritten and given back, and all sixty-four are granted then. -/
theorem reuse_transparent_sixty_four :
    (new 0 64 (some 1)).Course [.alloc 30, .overwrite 0 #[1.0, 2.0], .free 0] ∧
      (((new 0 64 (some 1)).after [.alloc 30, .overwrite 0 #[1.0, 2.0], .free 0]).allocator.alloc
        64).1 = .ok (.words (Array.replicate 16 0.0)) := by
  have hcourse : (new 0 64 (some 1)).Course [.alloc 30, .overwrite 0 #[1.0, 2.0], .free 0] := by
    refine ⟨?_, fun e he => by (cases he), trivial⟩
    rintro _ ⟨⟩
    decide
  refine ⟨hcourse, ?_⟩
  refine (((reuse_transparent 0 64 1 hcourse).2.2.1 64 ?_).1 _).2.2 ⟨?_, ?_, rfl⟩
  · rintro _ ⟨⟩
    decide
  · decide
  · decide

/-- Blocks end below the signed bound: a request for as many bytes is not granted, with or without a cache,
although it fits the capacity and the count of the largest accelerator. -/
theorem signedBound_not_granted :
    let cached := new 0 (sizeBound - 1) (some 32)
    let bare := new 0 (sizeBound - 1) none
    cached.Counts signedBound ∧
      Contents.total cached.live + Pool.roundedBytes signedBound ≤ sizeBound - 1 ∧
      (∀ block, (cached.allocator.alloc signedBound).1 ≠ .ok block) ∧
      ∀ block, (bare.allocator.alloc signedBound).1 ≠ .ok block := by
  intro cached bare
  have hcount : cached.Counts signedBound := by
    rintro n ⟨⟩
    decide
  have hbound : ¬ Pool.roundedBytes signedBound < signedBound := by decide
  obtain ⟨_, _, hcached, hbare⟩ := (lockstep_new 0 (sizeBound - 1) 32).alloc_fst hcount
  refine ⟨hcount, by decide, fun block hblock => ?_, fun block hblock => ?_⟩
  · rw [hcached, Pool.granted_eq_ok_iff] at hblock
    exact hbound hblock.2.1
  · rw [hbare, Pool.granted_eq_ok_iff] at hblock
    exact hbound hblock.2.1

end Tenancy

end FieldCircuit
