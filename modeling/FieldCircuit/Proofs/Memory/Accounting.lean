import FieldCircuit.Proofs.Memory.Allocation

/-!
# Accounts of allocators

An accelerator pool counts the bytes that it has handed out. An allocator accounts for some live bytes if
its pool counts these and the bytes of the blocks that the cache keeps, and nothing else. Allocating adds
the size of the new block to the live bytes, giving a block back takes its size off them, and a request
that is refused changes nothing, even if the cache has been emptied for it. Only a fault can leave the pool
with a count of bytes that nobody has.
-/

namespace FieldCircuit

def Contents.total (blocks : List Contents) : Nat := (blocks.map Contents.size).sum

@[simp] theorem Contents.total_nil : Contents.total [] = 0 := rfl

@[simp] theorem Contents.total_cons (block : Contents) (blocks : List Contents) :
    Contents.total (block :: blocks) = block.size + Contents.total blocks :=
  List.sum_cons

@[simp] theorem Contents.total_append (blocks others : List Contents) :
    Contents.total (blocks ++ others) = Contents.total blocks + Contents.total others := by
  simp [Contents.total]

theorem Contents.size_zeros (size : Nat) :
    (Contents.zeros size .accelerator).size = Pool.roundedBytes size := by
  simp [Contents.zeros, Contents.size, Pool.roundedBytes]

namespace Pool

/-- What a request to an accelerator pool does, as long as its count fits a machine size. -/
theorem alloc_accelerator (id capacity : Nat) {n size : Nat} (h : n + roundedBytes size < sizeBound) :
    (accelerator id capacity n).alloc size =
      if capacity < n + roundedBytes size then
        (.error (.outOfMemory (roundedBytes size) (capacity - n)), accelerator id capacity n)
      else if signedBound ≤ roundedBytes size then
        (.error (.fault .sizeOverflow), accelerator id capacity (n + roundedBytes size))
      else (.ok (.zeros size .accelerator), accelerator id capacity (n + roundedBytes size)) := by
  rw [alloc, if_neg (by omega), if_neg (Nat.not_le.2 h)]
  rfl

/-- A pool is as before if it refuses a request, unless that is a fault. -/
theorem alloc_refused {size : Nat} {p p' : Pool} {e : DeviceError}
    (h : p.alloc size = (.error e, p')) (he : e.isFault = false) : p' = p := by
  have hrefused : (p.alloc size).1 = .error e → (p.alloc size).2 = p := by
    fun_cases Pool.alloc size p with
    | case1 | case7 => exact fun h => by cases h
    | case5 => exact fun _ => rfl
    | case2 | case3 | case4 | case6 =>
        rintro ⟨⟩
        cases he
  rw [h] at hrefused
  exact hrefused rfl

/-- A pool adds the size of the block that it hands out to its count, and stays within its capacity. -/
theorem alloc_granted {id capacity n size : Nat} {block : Contents} {p : Pool}
    (h : (accelerator id capacity n).alloc size = (.ok block, p)) :
    p = accelerator id capacity (n + block.size) ∧ n + block.size ≤ capacity := by
  have hblock := (alloc_spec size (accelerator id capacity n)).2 block (by rw [h])
  have hsize : block.size = roundedBytes size := by
    rw [hblock]
    exact Contents.size_zeros size
  unfold alloc at h
  dsimp only at h
  split at h
  · cases h
  split at h
  · cases h
  split at h
  · cases h
  split at h
  · cases h
  rename_i hcapacity _
  rw [hsize, ← (Prod.mk.inj h).2]
  exact ⟨rfl, Nat.le_of_not_lt hcapacity⟩

theorem foldl_free (id capacity n : Nat) (blocks : List Contents) :
    blocks.foldl (fun pool block => pool.free block) (accelerator id capacity (n + Contents.total blocks)) =
      accelerator id capacity n := by
  induction blocks with
  | nil => rfl
  | cons block blocks ih =>
      have hfree : (accelerator id capacity (n + Contents.total (block :: blocks))).free block =
          accelerator id capacity (n + Contents.total blocks) := by
        rw [Contents.total_cons, free, if_pos (by omega)]
        congr 1
        omega
      rw [List.foldl_cons, hfree, ih]

theorem free_accelerator (id capacity n : Nat) (block : Contents) :
    (accelerator id capacity (n + block.size)).free block = accelerator id capacity n := by
  simpa using foldl_free id capacity n [block]

end Pool

namespace Cache

def total (c : Cache) : Nat := Contents.total c.blocks

/-- Every size has one stack, which is no higher than the limit. -/
structure Orderly (c : Cache) : Prop where
  distinct : (c.shelves.map Prod.fst).Nodup
  filled : ∀ size, (c.stack size).length ≤ c.limit

variable {c : Cache}

theorem orderly_empty (limit : Nat) : (empty limit).Orderly :=
  ⟨List.nodup_nil, fun _ => Nat.zero_le _⟩

theorem total_eq_sum (c : Cache) : c.total = (c.shelves.map fun e => Contents.total e.2).sum := by
  rw [total, blocks]
  induction c.shelves with
  | nil => rfl
  | cons e shelves ih => rw [List.flatMap_cons, Contents.total_append, ih, List.map_cons, List.sum_cons]

theorem Orderly.stack_of_mem (h : c.Orderly) {shelf : Nat × List Contents} (hshelf : shelf ∈ c.shelves) :
    c.stack shelf.1 = shelf.2 := by
  rw [stack, lookup_of_mem h.distinct hshelf, Option.getD_some]

theorem Orderly.total_withStack (h : c.Orderly) (size : Nat) (blocks : List Contents) :
    (c.withStack size blocks).total + Contents.total (c.stack size) =
      c.total + Contents.total blocks := by
  have hold : c.total = Contents.total (c.stack size) +
      ((without size c.shelves).map fun e => Contents.total e.2).sum := by
    rw [total_eq_sum, sum_without _ h.distinct size, stack]
    cases c.shelves.lookup size <;> rfl
  have hwith : (c.withStack size blocks).total = Contents.total blocks +
      ((without size c.shelves).map fun e => Contents.total e.2).sum := by
    rw [total_eq_sum, withStack]
    cases blocks with
    | nil => simp
    | cons block rest => exact sum_entered _ size _
  omega

theorem Orderly.withStack (h : c.Orderly) {size : Nat} {blocks : List Contents}
    (hblocks : blocks.length ≤ c.limit) : (c.withStack size blocks).Orderly := by
  refine ⟨?_, fun other => ?_⟩
  · rw [Cache.withStack]
    dsimp only
    split
    · exact nodup_without h.distinct size
    · exact nodup_entered h.distinct size blocks
  · by_cases hother : other = size
    · subst hother
      rw [stack_withStack_self]
      exact hblocks
    · rw [stack_withStack_of_ne c hother]
      exact h.filled other

end Cache

namespace Allocator

def kept (a : Allocator) : Nat := a.cache.elim 0 Cache.total

/-- An allocator of an accelerator accounts for some live bytes: its pool counts these and the kept ones,
within its capacity. -/
structure Accounts (a : Allocator) (id capacity live : Nat) : Prop where
  pool : a.pool = .accelerator id capacity (live + a.kept)
  le : live + a.kept ≤ capacity
  cache : ∀ c ∈ a.cache, c.Orderly

variable {a : Allocator} {id capacity live : Nat}

theorem Accounts.side (h : a.Accounts id capacity live) : a.side = .accelerator := by
  rw [Allocator.side, h.pool]
  rfl

theorem accounts_new (id capacity : Nat) (limit : Option Nat) :
    Accounts ⟨.accelerator id capacity 0, limit.map .empty⟩ id capacity 0 := by
  cases limit with
  | none => exact ⟨rfl, Nat.zero_le _, fun c hc => by cases hc⟩
  | some limit =>
      refine ⟨rfl, Nat.zero_le _, ?_⟩
      rintro _ ⟨⟩
      exact Cache.orderly_empty limit

theorem Accounts.allocFresh (h : a.Accounts id capacity live) {c : Cache} (hc : a.cache = some c)
    (size : Nat) :
    (∀ block, (a.allocFresh c size).1 = .ok block →
      (a.allocFresh c size).2.Accounts id capacity (live + block.size)) ∧
    ∀ e, (a.allocFresh c size).1 = .error e → e.isFault = false →
      (a.allocFresh c size).2.Accounts id capacity live := by
  have hkept : a.kept = c.total := by rw [kept, hc, Option.elim_some]
  have hempty : ∀ {n : Nat}, n ≤ capacity →
      Accounts ⟨.accelerator id capacity n, some (.empty c.limit)⟩ id capacity n := by
    intro n hn
    refine ⟨rfl, hn, ?_⟩
    rintro _ ⟨⟩
    exact Cache.orderly_empty c.limit
  -- the pool has everything but the live bytes back when the request is repeated
  have hdrained : ∀ {e : DeviceError} {pool : Pool}, a.pool.alloc size = (.error e, pool) →
      (∀ cause, e ≠ .fault cause) →
      c.blocks.foldl (fun pool block => pool.free block) pool = .accelerator id capacity live := by
    intro e pool heq he
    rw [Pool.alloc_refused heq (DeviceError.isFault_eq_false he), h.pool, hkept]
    exact Pool.foldl_free id capacity live c.blocks
  have hlive : live ≤ capacity := Nat.le_trans (Nat.le_add_right ..) h.le
  fun_cases Allocator.allocFresh a c size with
  | case1 block pool heq =>
      refine ⟨?_, fun e he => by cases he⟩
      rintro _ ⟨⟩
      rw [h.pool] at heq
      obtain ⟨hpool, hle⟩ := Pool.alloc_granted heq
      have hswap : live + block.size + a.kept = live + a.kept + block.size := by omega
      refine ⟨?_, ?_, h.cache⟩
      · exact hpool.trans (congrArg _ hswap.symm)
      · exact hswap.trans_le hle
  | case2 cause pool heq =>
      refine ⟨fun block hblock => by (cases hblock), ?_⟩
      rintro _ ⟨⟩ hfault
      cases hfault
  | case3 e pool he heq freed emptied block pool' heq' =>
      refine ⟨?_, fun e he => by cases he⟩
      rintro _ ⟨⟩
      rw [show freed = .accelerator id capacity live from hdrained heq he] at heq'
      obtain ⟨rfl, hle⟩ := Pool.alloc_granted heq'
      exact hempty hle
  | case4 e pool he heq freed emptied cause pool' heq' =>
      refine ⟨fun block hblock => by (cases hblock), ?_⟩
      rintro _ ⟨⟩ hfault
      cases hfault
  | case5 e pool he heq freed emptied e' pool' he' heq' =>
      refine ⟨fun block hblock => by (cases hblock), fun _ _ _ => ?_⟩
      rw [show freed = .accelerator id capacity live from hdrained heq he] at heq'
      rw [Pool.alloc_refused heq' (DeviceError.isFault_eq_false he')]
      exact hempty hlive

/-- A new block adds its size to the live bytes, and a request that is refused without a fault adds
nothing. -/
theorem Accounts.alloc (h : a.Accounts id capacity live) (size : Nat) :
    (∀ block, (a.alloc size).1 = .ok block →
      (a.alloc size).2.Accounts id capacity (live + block.size)) ∧
    ∀ e, (a.alloc size).1 = .error e → e.isFault = false →
      (a.alloc size).2.Accounts id capacity live := by
  fun_cases Allocator.alloc a size with
  | case1 hcache result pool heq =>
      have hkept : a.kept = 0 := by rw [kept, hcache, Option.elim_none]
      have hwith : ∀ {n : Nat}, n ≤ capacity →
          Accounts { a with pool := .accelerator id capacity n } id capacity n := by
        intro n hn
        have hnone : kept { a with pool := .accelerator id capacity n } = 0 := hkept
        exact ⟨by rw [hnone]; rfl, by rw [hnone]; exact hn, h.cache⟩
      rw [h.pool, hkept] at heq
      refine ⟨?_, ?_⟩
      · rintro block rfl
        obtain ⟨rfl, hle⟩ := Pool.alloc_granted heq
        exact hwith hle
      · rintro e rfl he
        rw [Pool.alloc_refused heq he]
        exact hwith (Nat.le_trans (Nat.le_add_right ..) h.le)
  | case2 cache hcache key hkey => exact ⟨fun block hblock => by (cases hblock), fun _ _ _ => h⟩
  | case3 cache hcache key hkey block rest hstack =>
      refine ⟨?_, fun e he => by cases he⟩
      rintro _ ⟨⟩
      have horderly := h.cache cache hcache
      have htotal := horderly.total_withStack key rest
      rw [hstack, Contents.total_cons] at htotal
      have hkept : a.kept = block.size + (cache.withStack key rest).total := by
        rw [kept, hcache, Option.elim_some]
        omega
      have hmoved : live + block.cleared.size + (cache.withStack key rest).total = live + a.kept := by
        rw [Contents.size_cleared, hkept, Nat.add_assoc]
      refine ⟨?_, ?_, ?_⟩
      · exact h.pool.trans (congrArg _ hmoved.symm)
      · exact hmoved.trans_le h.le
      · rintro _ ⟨⟩
        have hfilled := horderly.filled key
        rw [hstack, List.length_cons] at hfilled
        exact horderly.withStack (by omega)
  | case4 cache hcache key hkey hstack => exact h.allocFresh hcache size

theorem Accounts.free {block : Contents} (h : a.Accounts id capacity (live + block.size)) :
    (a.free block).Accounts id capacity live := by
  have hpool : a.pool.free block = .accelerator id capacity (live + a.kept) := by
    have hswap : live + block.size + a.kept = live + a.kept + block.size := by omega
    rw [h.pool, hswap, Pool.free_accelerator]
  have hle : live + a.kept ≤ capacity :=
    Nat.le_trans (Nat.add_le_add_right (Nat.le_add_right ..) _) h.le
  fun_cases Allocator.free a block with
  | case1 hcache => exact ⟨hpool, hle, h.cache⟩
  | case2 c hcache stack hroom =>
      have horderly := h.cache c hcache
      have htotal : _ + Contents.total stack = _ :=
        horderly.total_withStack block.size (block :: stack)
      rw [Contents.total_cons] at htotal
      have hmoved : live + (c.withStack block.size (block :: stack)).total =
          live + block.size + a.kept := by
        rw [kept, hcache, Option.elim_some]
        omega
      refine ⟨?_, ?_, ?_⟩
      · exact h.pool.trans (congrArg _ hmoved.symm)
      · exact hmoved.trans_le h.le
      · rintro _ ⟨⟩
        exact horderly.withStack hroom
  | case3 c hcache stack hfull => exact ⟨hpool, hle, h.cache⟩

end Allocator

end FieldCircuit
