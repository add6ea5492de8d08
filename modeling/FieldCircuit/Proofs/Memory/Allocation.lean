import FieldCircuit.Circuit.Environment
import FieldCircuit.Proofs.Entries
import FieldCircuit.Proofs.Field.Layout
import FieldCircuit.Proofs.Keeping
import FieldCircuit.Proofs.Memory.Pair

/-!
# Allocation

The blocks that an allocator keeps stand on the shelf of their size and come from its side. Then every
block that it hands out, fresh or used before, is zeroed and has the size that was asked for. The bank
of a device has such allocators for both sides, so that a new pair is zero on both of them.
-/

namespace FieldCircuit

def Contents.zeros (size : Nat) : Side → Contents
  | .host => .bytes (Array.replicate size 0)
  | .accelerator => .words (Array.replicate (ceilDiv size 4) 0.0)

theorem Pool.alloc_spec (size : Nat) (p : Pool) : (p.alloc size).2.side = p.side ∧
    ∀ block, (p.alloc size).1 = .ok block → block = Contents.zeros size p.side := by
  fun_cases Pool.alloc size p with
  | case1 | case7 => exact ⟨rfl, fun block h => (Except.ok.inj h).symm⟩
  | case2 | case3 | case4 | case5 | case6 => exact ⟨rfl, fun block h => by cases h⟩

theorem Pool.side_free (block : Contents) (p : Pool) : (p.free block).side = p.side := by
  cases p <;> rfl

theorem Cache.stack_withStack_self (c : Cache) (size : Nat) (blocks : List Contents) :
    (c.withStack size blocks).stack size = blocks := by
  unfold withStack stack
  split
  · rename_i hempty
    rw [List.isEmpty_iff.1 hempty]
    simp [lookup_without_self]
  · simp

theorem Cache.stack_withStack_of_ne (c : Cache) {size other : Nat} (h : other ≠ size)
    (blocks : List Contents) : (c.withStack size blocks).stack other = c.stack other := by
  unfold withStack stack
  split
  · simp only [lookup_without_of_ne h]
  · simp only [lookup_entered_of_ne h]

namespace Allocator

/-- Kept blocks stand on the shelf of their size and come from the side of the allocator. -/
def Shelved (a : Allocator) : Prop :=
  ∀ c ∈ a.cache, ∀ size, ∀ block ∈ c.stack size, block.size = size ∧ block.side = a.side

variable {a : Allocator}

theorem Shelved.withStack {c : Cache} (h : a.Shelved) (hc : a.cache = some c) {size : Nat}
    {blocks : List Contents} (hblocks : ∀ block ∈ blocks, block.size = size ∧ block.side = a.side) :
    Shelved { a with cache := some (c.withStack size blocks) } := by
  rintro _ ⟨⟩ other block hblock
  by_cases hother : other = size
  · subst hother
    rw [Cache.stack_withStack_self] at hblock
    exact hblocks block hblock
  · rw [Cache.stack_withStack_of_ne c hother] at hblock
    exact h c hc other block hblock

theorem Shelved.withPool (h : a.Shelved) {pool : Pool} (hside : pool.side = a.pool.side) :
    Shelved { a with pool } := by
  intro c hc size block hblock
  obtain ⟨hsize, hblock⟩ := h c hc size block hblock
  exact ⟨hsize, hblock.trans hside.symm⟩

theorem shelved_empty (pool : Pool) (limit : Nat) : Shelved ⟨pool, some (.empty limit)⟩ := by
  rintro _ ⟨⟩ size block hblock
  cases hblock

/-- A kept block of the right size, cleared, is as good as a new one. -/
theorem cleared_eq_zeros {block : Contents} {size : Nat} (hsize : block.size = a.key size)
    (hside : block.side = a.side) : block.cleared = Contents.zeros size a.side := by
  unfold key at hsize
  rw [← hside] at hsize ⊢
  cases block with
  | bytes data =>
      have hdata : data.size = size := hsize
      simp [Contents.cleared, Contents.zeros, Contents.side, hdata]
  | words data =>
      have hdata : data.size * 4 = ceilDiv size 4 * 4 := hsize
      have heq : data.size = ceilDiv size 4 := by omega
      simp [Contents.cleared, Contents.zeros, Contents.side, heq]

theorem side_foldl_free (blocks : List Contents) (pool : Pool) :
    (blocks.foldl (fun pool block => pool.free block) pool).side = pool.side := by
  induction blocks generalizing pool with
  | nil => rfl
  | cons block blocks ih => rw [List.foldl_cons, ih, Pool.side_free]

theorem allocFresh_spec (h : a.Shelved) (c : Cache) (size : Nat) :
    (a.allocFresh c size).2.Shelved ∧ (a.allocFresh c size).2.side = a.side ∧
      ∀ block, (a.allocFresh c size).1 = .ok block → block = Contents.zeros size a.side := by
  have hfirst := Pool.alloc_spec size a.pool
  have hagain : ∀ {e : DeviceError} {pool : Pool}, a.pool.alloc size = (.error e, pool) →
      ∀ {result : Except DeviceError Contents} {pool' : Pool},
        (c.blocks.foldl (fun pool block => pool.free block) pool).alloc size = (result, pool') →
        pool'.side = a.side ∧ ∀ block, result = .ok block → block = Contents.zeros size a.side := by
    intro e pool heq result pool' heq'
    have hsecond := Pool.alloc_spec size (c.blocks.foldl (fun pool block => pool.free block) pool)
    rw [heq', side_foldl_free] at hsecond
    rw [heq] at hfirst
    have hside : pool.side = a.side := hfirst.1
    rwa [hside] at hsecond
  fun_cases Allocator.allocFresh a c size with
  | case1 block pool heq =>
      rw [heq] at hfirst
      exact ⟨h.withPool hfirst.1, hfirst.1, hfirst.2⟩
  | case2 cause pool heq =>
      rw [heq] at hfirst
      exact ⟨h.withPool hfirst.1, hfirst.1, fun block hblock => by cases hblock⟩
  | case3 e pool _ heq freed emptied block pool' heq' =>
      exact ⟨shelved_empty pool' c.limit, hagain heq heq'⟩
  | case4 e pool _ heq freed emptied cause pool' heq' =>
      exact ⟨shelved_empty pool' c.limit, (hagain heq heq').1, fun block hblock => by cases hblock⟩
  | case5 e pool _ heq freed emptied e' pool' _ heq' =>
      exact ⟨shelved_empty pool' c.limit, (hagain heq heq').1, fun block hblock => by cases hblock⟩

theorem alloc_spec (h : a.Shelved) (size : Nat) :
    (a.alloc size).2.Shelved ∧ (a.alloc size).2.side = a.side ∧
      ∀ block, (a.alloc size).1 = .ok block → block = Contents.zeros size a.side := by
  have hpool := Pool.alloc_spec size a.pool
  fun_cases Allocator.alloc a size with
  | case1 hcache result pool heq =>
      rw [heq] at hpool
      exact ⟨h.withPool hpool.1, hpool.1, hpool.2⟩
  | case2 cache hcache key hkey => exact ⟨h, rfl, fun block hblock => by cases hblock⟩
  | case3 cache hcache key hkey block rest hstack =>
      have hkept := h cache hcache key
      rw [hstack] at hkept
      refine ⟨h.withStack hcache fun b hb => hkept b (List.mem_cons_of_mem _ hb), rfl, ?_⟩
      rintro _ ⟨⟩
      obtain ⟨hsize, hside⟩ := hkept block (List.mem_cons_self ..)
      exact cleared_eq_zeros hsize hside
  | case4 cache hcache key hkey hstack => exact allocFresh_spec h cache size

theorem free_spec (h : a.Shelved) {block : Contents} (hblock : block.side = a.side) :
    (a.free block).Shelved ∧ (a.free block).side = a.side := by
  fun_cases Allocator.free a block with
  | case1 hcache =>
      exact ⟨h.withPool (Pool.side_free block a.pool), Pool.side_free block a.pool⟩
  | case2 c hcache stack hroom =>
      refine ⟨h.withStack hcache ?_, rfl⟩
      intro b hb
      rcases List.mem_cons.1 hb with rfl | hb
      · exact ⟨rfl, hblock⟩
      · exact h c hcache _ b hb
  | case3 c hcache stack hfull =>
      exact ⟨h.withPool (Pool.side_free block a.pool), Pool.side_free block a.pool⟩

end Allocator

def Side.home : Side → Nat
  | .host => hostHome
  | .accelerator => acceleratorHome

def Bank.Sound (bank : Bank) : Prop :=
  ∀ side : Side, ∃ a, bank[side.home]? = some a ∧ a.side = side ∧ a.Shelved

theorem Side.home_injective : Function.Injective Side.home := by
  intro a b h
  cases a <;> cases b <;> first | rfl | cases h

theorem Bank.Sound.set {bank : Bank} (h : bank.Sound) {side : Side} {a : Allocator}
    (ha : a.Shelved) (hside : a.side = side) : Bank.Sound (bank.setIfInBounds side.home a) := by
  intro other
  obtain ⟨b, hb, hbside, hbshelved⟩ := h other
  by_cases heq : other = side
  · subst heq
    refine ⟨a, ?_, hside, ha⟩
    rw [Array.getElem?_setIfInBounds_self_of_lt (Array.getElem?_eq_some_iff.1 hb).1]
  · refine ⟨b, ?_, hbside, hbshelved⟩
    rw [Array.getElem?_setIfInBounds_ne fun hhome => heq (Side.home_injective hhome).symm, hb]

theorem DeviceSpec.sound_bank (spec : DeviceSpec) (caps : Capabilities) : (spec.bank caps).Sound := by
  intro side
  cases side with
  | host => exact ⟨_, rfl, rfl, Allocator.shelved_empty _ _⟩
  | accelerator => exact ⟨_, rfl, rfl, Allocator.shelved_empty _ _⟩

namespace Bank

theorem keeps_alloc (side : Side) (size : Nat) :
    Keeps Bank.Sound (Bank.alloc side.home size) fun block => block = Contents.zeros size side := by
  intro bank hbank
  obtain ⟨a, ha, hside, hshelved⟩ := hbank side
  obtain ⟨hshelved', hside', hblock⟩ := Allocator.alloc_spec hshelved size
  have hrun : (Bank.alloc side.home size).run.run bank =
      ((a.alloc size).1, bank.setIfInBounds side.home (a.alloc size).2) := by
    simp only [Bank.alloc, ExceptT.run_mk, StateT.run, ha]
  rw [hrun]
  exact ⟨hbank.set hshelved' (hside'.trans hside), fun block h => hside ▸ hblock block h⟩

theorem keeps_free (side : Side) {block : Contents} (hblock : block.side = side) :
    Keeps Bank.Sound (Bank.free side.home block) fun _ => True := by
  intro bank hbank
  obtain ⟨a, ha, hside, hshelved⟩ := hbank side
  obtain ⟨hshelved', hside'⟩ := Allocator.free_spec hshelved (hblock.trans hside.symm)
  have hrun : (Bank.free side.home block).run.run bank =
      (.ok (), bank.setIfInBounds side.home (a.free block)) := by
    change (_, bank.modify side.home _) = _
    rw [modify_eq_setIfInBounds ha]
  rw [hrun]
  exact ⟨hbank.set hshelved' (hside'.trans hside), fun _ _ => trivial⟩

theorem keeps_side (side : Side) : Keeps Bank.Sound (Bank.side side.home) fun s => s = side := by
  intro bank hbank
  obtain ⟨a, ha, hside, -⟩ := hbank side
  have hrun : (Bank.side side.home).run.run bank = (.ok a.side, bank) := by
    simp only [Bank.side, ExceptT.run_mk, StateT.run, ha]
  rw [hrun]
  refine ⟨hbank, ?_⟩
  rintro _ ⟨⟩
  exact hside

/-- Making something of each element keeps the bank in order if making and releasing one does. -/
theorem keeps_all {α β : Type} {make : α → BankM β} {release : β → BankM Unit} {p : α → β → Prop}
    {l : List α} (hmake : ∀ a ∈ l, Keeps Bank.Sound (make a) (p a))
    (hrelease : ∀ a b, p a b → Keeps Bank.Sound (release b) fun _ => True) :
    Keeps Bank.Sound (Bank.all make release l) fun r => List.Forall₂ p l r := by
  induction l with
  | nil => exact Keeps.pure .nil
  | cons a l ih =>
      rw [Bank.all]
      refine (hmake a (List.mem_cons_self ..)).bind fun b hb => ?_
      refine Keeps.bind (Keeps.tryCatch (ih fun c hc => hmake c (List.mem_cons_of_mem _ hc)) ?_)
        fun others hothers => Keeps.pure (.cons hb hothers)
      intro e
      exact (hrelease a b hb).bind fun _ _ => Keeps.throw e

end Bank

namespace Buffer

structure LiesOn (b : Buffer) (side : Side) : Prop where
  home : b.format.home = side.home
  side : b.contents.side = side

theorem LiesOn.keeps_release {b : Buffer} {side : Side} (h : b.LiesOn side) :
    Keeps Bank.Sound b.release fun _ => True := by
  unfold release
  rw [h.home]
  exact Bank.keeps_free side h.side

/-- A new buffer of a device has its format, a size in bytes that fits a machine size, and zeros. -/
structure New (side : Side) (length : Nat) (encoding : Encoding) (b : Buffer) : Prop where
  format : b.format = .on side side.home length encoding
  bytes : b.format.bytes < sizeBound
  contents : b.contents = Contents.zeros b.format.bytes side

theorem keeps_allocate (side : Side) (length : Nat) (encoding : Encoding) :
    Keeps Bank.Sound (Buffer.allocate side.home length encoding) (New side length encoding) := by
  refine (Bank.keeps_side side).bind fun s hs => ?_
  obtain rfl : side = s := hs.symm
  refine Keeps.bind (p := fun c => (BufferFormat.on side side.home length encoding).bytes < sizeBound ∧
    c = Contents.zeros (BufferFormat.on side side.home length encoding).bytes side) ?_ ?_
  · unfold BufferFormat.block
    refine (Keeps.lift fun n hn => checked_eq_ok_iff.1 (mapError_eq_ok_iff.1 hn)).bind ?_
    rintro _ ⟨hlt, rfl⟩
    exact (Bank.keeps_alloc side _).mono fun c hc => ⟨hlt, hc⟩
  · rintro _ ⟨hlt, rfl⟩
    exact Keeps.pure ⟨rfl, hlt, rfl⟩

namespace New

variable {side : Side} {n : Nat} {e : Encoding} {b : Buffer}

theorem liesOn (h : New side n e b) : b.LiesOn side := by
  refine ⟨by rw [h.format]; rfl, ?_⟩
  rw [h.contents]
  cases side <;> rfl

theorem length_eq (h : New side n e b) : b.length = n := by
  rw [Buffer.length, h.format]
  rfl

theorem carries (h : New .accelerator n e b) : b.Carries (Array.replicate n 0.0) := by
  have hbytes : ceilDiv b.format.bytes 4 = n := by
    rw [h.format]
    change ceilDiv (n * 4) 4 = n
    simp [ceilDiv]
  refine ⟨Array.replicate n 0.0, ?_, ?_, ?_⟩
  · rw [h.contents, Contents.zeros, hbytes]
  · rw [h.length_eq, Array.size_replicate]
  · rw [h.length_eq]
    simp

theorem stores (h : New .host n e b) : b.Stores (Array.replicate n 0.0) := by
  have hencoding : b.format.encoding = e := by rw [h.format]; rfl
  have hbytes : b.format.bytes = n * e.width := by rw [h.format]; rfl
  refine ⟨Array.replicate (n * e.width) 0, ?_, ?_, ?_⟩
  · rw [h.contents, Contents.zeros, hbytes]
  · rw [Array.size_replicate, h.length_eq, hencoding]
  · rw [hencoding, Array.toList_replicate, Encoding.decodeAll_zeros, List.toArray_replicate]

end New

end Buffer

namespace Pair

structure LiesOn (p : Pair) : Prop where
  master : p.master.LiesOn .accelerator
  slave : p.slave.LiesOn .host

theorem LiesOn.keeps_release {p : Pair} (h : p.LiesOn) :
    Keeps Bank.Sound p.release fun _ => True :=
  h.master.keeps_release.bind fun _ _ => h.slave.keeps_release

structure New (t : FieldType) (p : Pair) : Prop where
  words : t.words? = .ok t.words
  holds : p.Holds t (Array.replicate t.words 0.0)
  liesOn : p.LiesOn
  bytes : t.words * 4 < sizeBound

theorem keeps_newPair (t : FieldType) : Keeps Bank.Sound (Environment.newPair t) (New t) := by
  unfold Environment.newPair Pair.allocate
  refine Keeps.bind (p := fun n => t.words? = .ok t.words ∧ n = t.words) (Keeps.lift ?_) ?_
  · intro n hn
    obtain rfl := FieldType.words?_eq_ok (mapError_eq_ok_iff.1 hn)
    exact ⟨mapError_eq_ok_iff.1 hn, rfl⟩
  rintro _ ⟨hwords, rfl⟩
  refine (Buffer.keeps_allocate .accelerator t.words .single).bind fun master hmaster => ?_
  refine Keeps.bind (Keeps.tryCatch
    (Buffer.keeps_allocate .host t.words (hostEncoding t.element)) fun e => ?_) ?_
  · exact hmaster.liesOn.keeps_release.bind fun _ _ => Keeps.throw e
  · intro slave hslave
    have hzeros : t.stored (Array.replicate t.words 0.0) = Array.replicate t.words 0.0 :=
      Encoding.quantized_zeros _ _
    have hencoding : slave.format.encoding = hostEncoding t.element := by rw [hslave.format]; rfl
    have hbytes : master.format.bytes = t.words * 4 := by rw [hmaster.format]; rfl
    refine Keeps.pure ⟨hwords, ⟨⟨⟨_, hmaster.carries⟩, ⟨_, hslave.stores⟩, hmaster.length_eq,
      hslave.length_eq, hencoding⟩, fun _ => hmaster.carries, fun _ => hslave.stores,
      Array.size_replicate .., hzeros⟩, ⟨hmaster.liesOn, hslave.liesOn⟩, ?_⟩
    rw [← hbytes]
    exact hmaster.bytes

end Pair

end FieldCircuit
