import FieldCircuit.Entries
import FieldCircuit.Memory.Pair

/-!
# Inventories of memory

An inventory keeps named blocks, named handles on shared buffers and named buffer pairs over a bank of
allocators. A buffer may be created without memory, which it then gets at its first use; handles on
one buffer share its memory, and the memory goes back to its allocator with the last handle. The
operations on an inventory are `Command`s, and `perform` carries one out.
-/

namespace FieldCircuit

/-- A shared buffer, which may not have been given memory yet. -/
structure Cell where
  format : BufferFormat
  contents : Option Contents

structure BufferInfo where
  format : BufferFormat
  allocated : Bool
  /-- The name of the allocator. -/
  allocator : String

structure Inventory where
  bank : Bank
  blocks : List (String × Contents)
  /-- Names of buffers with positions in `cells`. -/
  handles : List (String × Nat)
  cells : Array Cell
  pairs : List (String × Pair)

/-- Operations on an inventory. Allocators are given by their positions in the bank. -/
inductive Command
  | allocBlock (name : String) (home size : Nat)
  | freeBlock (name : String) (home : Nat)
  | fillBlock (name : String) (byte : UInt8) (word : Float32)
  | showBlock (name : String)
  | newBuffer (name : String) (home length : Nat) (encoding : Encoding) (lazy : Bool)
  | cloneBuffer (name buffer : String)
  | dropBuffer (name : String)
  | info (buffer : String)
  | ensure (buffer : String)
  /-- Waits for the allocator of a buffer, whose work is always done. -/
  | synchronize (buffer : String)
  | write (buffer : String) (values : Array Float32)
  | read (buffer : String)
  | words (buffer : String)
  | setWords (buffer : String) (values : Array Float32)
  | copy (target source : String)
  | same (a b : String)
  /-- Takes an access to a buffer while another one is held. -/
  | overlap (buffer : String) (held wanted : Access)
  | newPair (name : String) (host accelerator : Nat) (fieldType : FieldType)
  | dropPair (name : String)
  | showPair (name : String)
  | writeHost (pair : String) (values : Array Float32)
  | readPair (pair : String) (side : Side)
  | writePair (pair : String) (side : Side) (values : Array Float32)
  | rawPair (pair : String) (side : Side)
  | syncPair (pair : String) (side : Side)
  | latchPair (target source : String)

inductive Reply
  | done
  | flag (value : Bool)
  | words (values : Array Float32)
  | block (contents : Contents)
  | info (value : BufferInfo)
  | pair (value : Pair)

abbrev InventoryM := ExceptT DeviceError (StateM Inventory)

namespace Inventory

def empty (bank : Bank) : Inventory := ⟨bank, [], [], #[], []⟩

def onBank {β : Type} (x : BankM β) : InventoryM β := ExceptT.mk fun inv =>
  let (result, bank) := x.run inv.bank
  (result, { inv with bank })

def find {β : Type} (entries : List (String × β)) (name : String) : InventoryM β :=
  match entries.lookup name with
  | some value => pure value
  | none => throw (.fault .outOfRange)

def cell (buffer : String) : InventoryM (Nat × Cell) := do
  let inv ← get
  let position ← find inv.handles buffer
  match inv.cells[position]? with
  | some c => return (position, c)
  | none => throw (.fault .outOfRange)

/-- The buffer behind a handle, given memory if it has none yet. -/
def touch (buffer : String) : InventoryM (Nat × Buffer) := do
  let (position, c) ← cell buffer
  match c.contents with
  | some contents => return (position, ⟨c.format, contents⟩)
  | none =>
    let contents ← onBank c.format.block
    modify fun inv =>
      { inv with cells := inv.cells.setIfInBounds position { c with contents := some contents } }
    return (position, ⟨c.format, contents⟩)

def put (position : Nat) (b : Buffer) : InventoryM Unit :=
  modify fun inv =>
    { inv with cells := inv.cells.setIfInBounds position ⟨b.format, some b.contents⟩ }

/-- Removes a handle; the memory goes back with the last one. Answers whether there was one. -/
def dropHandle (name : String) : InventoryM Bool := do
  let inv ← get
  match inv.handles.lookup name with
  | none => return false
  | some position =>
    let handles := without name inv.handles
    set { inv with handles }
    if handles.any (·.2 == position) then return true
    match inv.cells[position]? with
    | some ⟨format, some contents⟩ =>
      onBank (Bank.free format.home contents)
      modify fun inv => { inv with cells := inv.cells.setIfInBounds position ⟨format, none⟩ }
      return true
    | _ => return true

/-- Gives a name to a cell; the handle that had the name is dropped. -/
def bindHandle (name : String) (position : Nat) : InventoryM Unit := do
  let inv ← get
  match inv.handles.lookup name with
  | none => pure ()
  | some old => if old ≠ position then let _ ← dropHandle name
  modify fun inv => { inv with handles := entered name position inv.handles }

def describe (buffer : String) : InventoryM Reply := do
  let (_, c) ← cell buffer
  let inv ← get
  let allocator := (inv.bank[c.format.home]?.map Allocator.name).getD ""
  let _ ← (checked c.format.bytes : Except DeviceError Nat)
  return .info ⟨c.format, c.contents.isSome, allocator⟩

/-- The access `wanted` while `held` is held on the same memory. -/
def overlapped (held wanted : Access) : Except DeviceError Unit :=
  match held, wanted with
  | .read, .read => .ok ()
  | _, wanted => .error (.borrowed wanted)

def putPair (name : String) (p : Pair) : InventoryM Unit :=
  modify fun inv => { inv with pairs := entered name p inv.pairs }

/-- Removes a pair and gives its memory back. Answers whether there was one. -/
def dropPair (name : String) : InventoryM Bool := do
  let inv ← get
  match inv.pairs.lookup name with
  | none => return false
  | some p =>
    set { inv with pairs := without name inv.pairs }
    onBank p.release
    return true

def perform : Command → InventoryM Reply
  | .allocBlock name home size => do
    let block ← onBank (Bank.alloc home size)
    modify fun inv => { inv with blocks := entered name block inv.blocks }
    return .block block
  | .freeBlock name home => do
    let block ← find (← get).blocks name
    modify fun inv => { inv with blocks := without name inv.blocks }
    onBank (Bank.free home block)
    return .done
  | .fillBlock name byte word => do
    let block ← find (← get).blocks name
    let filled := match block with
      | .bytes data => Contents.bytes (Array.replicate data.size byte)
      | .words data => Contents.words (Array.replicate data.size word)
    modify fun inv => { inv with blocks := entered name filled inv.blocks }
    return .done
  | .showBlock name => return .block (← find (← get).blocks name)
  | .newBuffer name home length encoding lazy => do
    let side ← onBank (Bank.side home)
    let format := BufferFormat.on side home length encoding
    let contents ← if lazy then pure none else some <$> onBank format.block
    let position := (← get).cells.size
    modify fun inv => { inv with cells := inv.cells.push ⟨format, contents⟩ }
    bindHandle name position
    describe name
  | .cloneBuffer name buffer => do
    let (position, _) ← cell buffer
    bindHandle name position
    return .done
  | .dropBuffer name => return .flag (← dropHandle name)
  | .info buffer => describe buffer
  | .ensure buffer => do
    let _ ← touch buffer
    return .done
  | .synchronize buffer => do
    let _ ← cell buffer
    return .done
  | .write buffer values => do
    let (_, c) ← cell buffer
    if values.size ≠ c.format.length then throw (.sizeMismatch c.format.length values.size)
    let (position, b) ← touch buffer
    put position (← b.write values)
    return .done
  | .read buffer => do
    let (_, b) ← touch buffer
    return .words (← b.read)
  | .words buffer => do
    let (_, b) ← touch buffer
    return .words (← b.view .read)
  | .setWords buffer values => do
    let (position, b) ← touch buffer
    let _ ← b.view .write
    if values.size ≠ b.length then throw (.fault .outOfRange)
    put position (← b.write values)
    return .done
  | .copy target source => do
    let (p, c) ← cell target
    let (q, d) ← cell source
    if c.format.length ≠ d.format.length then
      throw (.sizeMismatch c.format.length d.format.length)
    if p = q then return .done
    let (_, b) ← touch target
    let (_, s) ← touch source
    put p (← b.copyFrom s)
    return .done
  | .same a b => do
    let (p, _) ← cell a
    let (q, _) ← cell b
    return .flag (p == q)
  | .overlap buffer held wanted => do
    let (_, b) ← touch buffer
    let _ ← b.view held
    let values ← b.view wanted
    overlapped held wanted
    return .words values
  | .newPair name host accelerator fieldType => do
    let p ← onBank (Pair.allocate fieldType host accelerator)
    let _ ← dropPair name
    putPair name p
    return .pair p
  | .dropPair name => return .flag (← dropPair name)
  | .showPair name => return .pair (← find (← get).pairs name)
  | .writeHost name values => do
    let p ← find (← get).pairs name
    putPair name (← p.writeHost values)
    return .done
  | .readPair name side => do
    let p ← find (← get).pairs name
    let (values, p) ← p.read side
    putPair name p
    return .words values
  | .writePair name side values => do
    let p ← find (← get).pairs name
    let (result, p) := p.write side values
    putPair name p
    result
    return .done
  | .rawPair name side => do
    let p ← find (← get).pairs name
    return .words (← p.raw side)
  | .syncPair name side => do
    let p ← find (← get).pairs name
    putPair name (← p.sync side)
    return .done
  | .latchPair target source => do
    let p ← find (← get).pairs target
    let s ← find (← get).pairs source
    let (result, p, s) := p.latchFrom s
    putPair source s
    putPair target p
    result
    return .done

end Inventory

end FieldCircuit
