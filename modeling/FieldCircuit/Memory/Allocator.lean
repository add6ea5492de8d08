import FieldCircuit.Entries
import FieldCircuit.Memory.Contents

/-!
# Allocators

A pool hands out zeroed blocks. The host pool is unlimited; an accelerator pool has a capacity and
counts what it has handed out, in whole words. It counts a request before it looks whether it fits, so
that a request that faults stays counted. An allocator is a pool with, perhaps, a cache in
front of it: freed blocks are kept by size and handed out again, cleared. When the pool is exhausted
the cache is given back to it and the request is tried once more.

A bank is the collection of allocators that a program uses, each known by its position.
-/

namespace FieldCircuit

inductive Pool
  | host
  | accelerator (id capacity allocated : Nat)
  deriving DecidableEq, Repr

namespace Pool

def side : Pool → Side
  | host => .host
  | accelerator .. => .accelerator

def name : Pool → String
  | host => "HOST"
  | accelerator id _ _ => s!"ACCEL:{id}"

def allocated? : Pool → Option Nat
  | host => none
  | accelerator _ _ allocated => some allocated

/-- A request rounded up to whole words. -/
def roundedBytes (size : Nat) : Nat := ceilDiv size 4 * 4

/-- A zeroed block of at least `size` bytes. Blocks end below the signed bound. A request that does not
fit is taken off the count again; after a fault the count is left as it is then, which may have gone
around the end of the machine sizes. -/
def alloc (size : Nat) : Pool → Except DeviceError Contents × Pool
  | host =>
    if size < signedBound then (.ok (.bytes (Array.replicate size 0)), host)
    else (.error (.fault .sizeOverflow), host)
  | accelerator id capacity allocated =>
    let bytes := roundedBytes size
    let counted := allocated + bytes
    if sizeBound ≤ bytes then
      (.error (.fault .sizeOverflow), accelerator id capacity allocated)
    else if sizeBound ≤ counted then
      (.error (.fault .sizeOverflow), accelerator id capacity (counted % sizeBound))
    else if capacity < counted then
      (.error (.outOfMemory bytes (capacity - allocated)), accelerator id capacity allocated)
    else if signedBound ≤ bytes then
      (.error (.fault .sizeOverflow), accelerator id capacity counted)
    else
      (.ok (.words (Array.replicate (ceilDiv size 4) 0.0)), accelerator id capacity counted)

/-- Takes a block back. The count of a pool that takes back more than it has handed out goes around
the end of the machine sizes. -/
def free (block : Contents) : Pool → Pool
  | host => host
  | accelerator id capacity allocated =>
    accelerator id capacity
      (if block.size ≤ allocated then allocated - block.size
        else allocated + sizeBound - block.size)

end Pool

/-- Freed blocks kept for reuse: for each size a stack of at most `limit` blocks. -/
structure Cache where
  limit : Nat
  shelves : List (Nat × List Contents)

namespace Cache

def empty (limit : Nat) : Cache := ⟨limit, []⟩

/-- The blocks kept for a size, the last one freed first. -/
def stack (c : Cache) (size : Nat) : List Contents := (c.shelves.lookup size).getD []

def withStack (c : Cache) (size : Nat) (blocks : List Contents) : Cache :=
  { c with shelves :=
      if blocks.isEmpty then without size c.shelves else entered size blocks c.shelves }

def blocks (c : Cache) : List Contents := c.shelves.flatMap (·.2)

def count (c : Cache) : Nat := c.blocks.length

end Cache

/-- A pool with or without a cache. -/
structure Allocator where
  pool : Pool
  cache : Option Cache

namespace Allocator

/-- The number of blocks of one size that a cache keeps unless told otherwise. -/
def defaultLimit : Nat := 32

def side (a : Allocator) : Side := a.pool.side

/-- The name of an allocator is that of its pool. -/
def name (a : Allocator) : String := a.pool.name

def cached? (a : Allocator) : Option Nat := a.cache.map Cache.count

/-- The size under which a request looks for a freed block. -/
def key (a : Allocator) (size : Nat) : Nat :=
  match a.side with
  | .host => size
  | .accelerator => Pool.roundedBytes size

/-- A request that found no freed block: asks the pool, and again after the cache has been given back
to it. The error is that of the first attempt. -/
def allocFresh (a : Allocator) (cache : Cache) (size : Nat) :
    Except DeviceError Contents × Allocator :=
  match a.pool.alloc size with
  | (.ok block, pool) => (.ok block, { a with pool })
  | (.error (.fault cause), pool) => (.error (.fault cause), { a with pool })
  | (.error e, pool) =>
    let pool := cache.blocks.foldl (fun pool block => pool.free block) pool
    let emptied := some (Cache.empty cache.limit)
    match pool.alloc size with
    | (.ok block, pool) => (.ok block, ⟨pool, emptied⟩)
    | (.error (.fault cause), pool) => (.error (.fault cause), ⟨pool, emptied⟩)
    | (.error _, pool) => (.error e, ⟨pool, emptied⟩)

def alloc (a : Allocator) (size : Nat) : Except DeviceError Contents × Allocator :=
  match a.cache with
  | none =>
    let (result, pool) := a.pool.alloc size
    (result, { a with pool })
  | some cache =>
    let key := a.key size
    if sizeBound ≤ key then (.error (.fault .sizeOverflow), a)
    else match cache.stack key with
      | block :: rest => (.ok block.cleared, { a with cache := some (cache.withStack key rest) })
      | [] => a.allocFresh cache size

def free (a : Allocator) (block : Contents) : Allocator :=
  match a.cache with
  | none => { a with pool := a.pool.free block }
  | some cache =>
    let stack := cache.stack block.size
    if stack.length < cache.limit then
      { a with cache := some (cache.withStack block.size (block :: stack)) }
    else { a with pool := a.pool.free block }

end Allocator

abbrev Bank := Array Allocator

/-- Computations that draw on a bank. A failed computation leaves its mark on the bank. -/
abbrev BankM := ExceptT DeviceError (StateM Bank)

namespace Bank

def alloc (home size : Nat) : BankM Contents := ExceptT.mk fun bank =>
  match bank[home]? with
  | none => (.error (.fault .outOfRange), bank)
  | some a =>
    let (result, a) := a.alloc size
    (result, bank.setIfInBounds home a)

def free (home : Nat) (block : Contents) : BankM Unit := ExceptT.mk fun bank =>
  (.ok (), bank.modify home (·.free block))

/-- Makes something out of each element, all or none: if one cannot be made, those that were made
before it are given back. -/
def all {α β : Type} (make : α → BankM β) (release : β → BankM Unit) : List α → BankM (List β)
  | [] => pure []
  | a :: rest => do
    let b ← make a
    let others ← tryCatch (all make release rest) fun e => do
      release b
      throw e
    return b :: others

def side (home : Nat) : BankM Side := ExceptT.mk fun bank =>
  match bank[home]? with
  | none => (.error (.fault .outOfRange), bank)
  | some a => (.ok a.side, bank)

end Bank

end FieldCircuit
