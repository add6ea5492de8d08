import FieldCircuit.Memory.Inventory
import FieldCircuit.Proofs.Memory.Reuse

/-!
# Balanced inventories

The books on one accelerator allocator of a bank say what the blocks, the shared buffers and the pairs
of an inventory cost it. An inventory is balanced if the allocator accounts for just these costs, and
for the blocks that an operation has in hand. Each update of an inventory changes the costs by those of
the entry that goes and of the one that comes.
-/

namespace FieldCircuit

/-- The allocator that is kept books on: its position in the bank, its pool, and for the name of a block
the position of the allocator that the block came from. -/
structure Books where
  home : Nat
  id : Nat
  capacity : Nat
  origins : String → Nat

/-- What a block from the allocator at `origin` costs the one at `home`. -/
def Contents.cost (home origin : Nat) (block : Contents) : Nat :=
  if origin = home then block.size else 0

theorem Contents.cost_self (home : Nat) (block : Contents) : block.cost home home = block.size :=
  if_pos rfl

theorem Contents.cost_of_ne {home origin : Nat} (h : origin ≠ home) (block : Contents) :
    block.cost home origin = 0 :=
  if_neg h

theorem Contents.cost_congr {home origin : Nat} {block block' : Contents}
    (h : block'.size = block.size) : block'.cost home origin = block.cost home origin := by
  rw [cost, cost, h]

def Buffer.cost (home : Nat) (b : Buffer) : Nat := b.contents.cost home b.format.home

/-- Memory that a buffer has not been given yet costs nothing. -/
def Cell.cost (home : Nat) (c : Cell) : Nat := c.contents.elim 0 (Contents.cost home c.format.home)

def Pair.cost (home : Nat) (p : Pair) : Nat := p.master.cost home + p.slave.cost home

def Inventory.cost (b : Books) (inv : Inventory) : Nat :=
  (inv.blocks.map fun e => e.2.cost b.home (b.origins e.1)).sum +
    (inv.cells.toList.map (Cell.cost b.home)).sum + (inv.pairs.map fun e => e.2.cost b.home).sum

/-- The allocator that books are kept on accounts for some live bytes. -/
def Bank.Owes (b : Books) (bank : Bank) (live : Nat) : Prop :=
  ∃ a, bank[b.home]? = some a ∧ a.Accounts b.id b.capacity live

theorem Bank.Owes.of_eq {b : Books} {bank : Bank} {live live' : Nat} (h : bank.Owes b live)
    (heq : live = live') : bank.Owes b live' :=
  heq ▸ h

/-- The allocator accounts for what the inventory costs and for `loose` bytes more. Every buffer that has
memory has a handle, but for those at the positions `spare`. -/
structure Inventory.Balanced (b : Books) (loose : Nat) (spare : List Nat) (inv : Inventory) :
    Prop where
  owes : inv.bank.Owes b (inv.cost b + loose)
  blocks : (inv.blocks.map Prod.fst).Nodup
  handles : (inv.handles.map Prod.fst).Nodup
  pairs : (inv.pairs.map Prod.fst).Nodup
  held : ∀ i c, inv.cells[i]? = some c → c.contents.isSome →
    i ∈ spare ∨ ∃ e ∈ inv.handles, e.2 = i

theorem sum_set {α : Type} (f : α → Nat) {l : List α} {i : Nat} {x : α} (h : l[i]? = some x) (y : α) :
    ((l.set i y).map f).sum + f x = (l.map f).sum + f y := by
  induction l generalizing i with
  | nil => cases h
  | cons z l ih =>
      cases i with
      | zero =>
          obtain rfl : z = x := Option.some.inj h
          simp only [List.set_cons_zero, List.map_cons, List.sum_cons]
          omega
      | succ i =>
          have hrest := ih h
          simp only [List.set_cons_succ, List.map_cons, List.sum_cons]
          omega

namespace Inventory

variable {b : Books} {loose : Nat} {spare : List Nat} {inv : Inventory}

theorem cost_enterBlock (b : Books) (hblocks : (inv.blocks.map Prod.fst).Nodup) (name : String)
    (block : Contents) :
    cost b { inv with blocks := entered name block inv.blocks } +
        (inv.blocks.lookup name).elim 0 (Contents.cost b.home (b.origins name)) =
      inv.cost b + block.cost b.home (b.origins name) := by
  have hsum : _ + (inv.blocks.lookup name).elim 0 (Contents.cost b.home (b.origins name)) =
      _ + block.cost b.home (b.origins name) :=
    sum_replaced (fun e => e.2.cost b.home (b.origins e.1)) hblocks name block
  simp only [cost]
  omega

theorem cost_removeBlock (b : Books) (hblocks : (inv.blocks.map Prod.fst).Nodup) {name : String}
    {block : Contents} (hblock : inv.blocks.lookup name = some block) :
    inv.cost b = block.cost b.home (b.origins name) +
      cost b { inv with blocks := without name inv.blocks } := by
  simp only [cost]
  rw [sum_without _ hblocks name, hblock, Option.elim_some]
  dsimp only
  omega

theorem cost_enterPair (b : Books) (hpairs : (inv.pairs.map Prod.fst).Nodup) (name : String)
    (p : Pair) : cost b { inv with pairs := entered name p inv.pairs } +
        (inv.pairs.lookup name).elim 0 (Pair.cost b.home) =
      inv.cost b + p.cost b.home := by
  have hsum : _ + (inv.pairs.lookup name).elim 0 (Pair.cost b.home) = _ + p.cost b.home :=
    sum_replaced (fun e => e.2.cost b.home) hpairs name p
  simp only [cost]
  omega

theorem cost_removePair (b : Books) (hpairs : (inv.pairs.map Prod.fst).Nodup) {name : String} {p : Pair}
    (hp : inv.pairs.lookup name = some p) :
    inv.cost b = p.cost b.home + cost b { inv with pairs := without name inv.pairs } := by
  simp only [cost]
  rw [sum_without _ hpairs name, hp, Option.elim_some]
  dsimp only
  omega

theorem cost_setCell (b : Books) {i : Nat} {c : Cell} (hc : inv.cells[i]? = some c) (c' : Cell) :
    cost b { inv with cells := inv.cells.setIfInBounds i c' } + c.cost b.home =
      inv.cost b + c'.cost b.home := by
  have hsum := sum_set (Cell.cost b.home) (Array.getElem?_toList.trans hc) c'
  simp only [cost, Array.toList_setIfInBounds]
  omega

theorem cost_pushCell (inv : Inventory) (b : Books) (c : Cell) :
    cost b { inv with cells := inv.cells.push c } = inv.cost b + c.cost b.home := by
  simp only [cost, Array.toList_push, List.map_append, List.sum_append, List.map_cons, List.map_nil,
    List.sum_cons, List.sum_nil]
  omega

namespace Balanced

theorem mono {wider : List Nat} (h : inv.Balanced b loose spare) (hspare : spare ⊆ wider) :
    inv.Balanced b loose wider :=
  { h with held := fun i c hc hsome => (h.held i c hc hsome).imp_left fun hi => hspare hi }

theorem of_eq {loose' : Nat} (h : inv.Balanced b loose spare) (heq : loose = loose') :
    inv.Balanced b loose' spare :=
  heq ▸ h

theorem withBank (h : inv.Balanced b loose spare) {bank : Bank} {loose' : Nat}
    (howes : bank.Owes b (inv.cost b + loose')) :
    Balanced b loose' spare { inv with bank } :=
  { h with owes := howes }

theorem withOrigin (h : inv.Balanced b loose spare) {name : String}
    (hname : inv.blocks.lookup name = none) (origin : Nat) :
    inv.Balanced { b with origins := Function.update b.origins name origin } loose spare := by
  have hblocks : inv.blocks.map (fun e => e.2.cost b.home (Function.update b.origins name origin e.1)) =
      inv.blocks.map fun e => e.2.cost b.home (b.origins e.1) := by
    refine List.map_congr_left fun e he => ?_
    have hne : e.1 ≠ name := by
      rintro rfl
      rw [lookup_of_mem h.blocks he] at hname
      cases hname
    rw [Function.update_of_ne hne]
  have hcost : inv.cost { b with origins := Function.update b.origins name origin } = inv.cost b := by
    rw [cost, cost, hblocks]
  exact ⟨h.owes.of_eq (by rw [hcost]), h.blocks, h.handles, h.pairs, h.held⟩

/-- A block that was in hand gets a name, and one that had the name is in hand then. -/
theorem enterBlock (h : inv.Balanced b loose spare) {name : String} {block : Contents} {loose' : Nat}
    (hloose : loose' + block.cost b.home (b.origins name) =
      loose + (inv.blocks.lookup name).elim 0 (Contents.cost b.home (b.origins name))) :
    Balanced b loose' spare { inv with blocks := entered name block inv.blocks } := by
  have hcost := cost_enterBlock b h.blocks name block
  exact { h with owes := h.owes.of_eq (by omega), blocks := nodup_entered h.blocks name block }

theorem removeBlock (h : inv.Balanced b loose spare) {name : String} {block : Contents}
    (hblock : inv.blocks.lookup name = some block) :
    Balanced b (loose + block.cost b.home (b.origins name)) spare
      { inv with blocks := without name inv.blocks } := by
  have hcost := cost_removeBlock b h.blocks hblock
  exact { h with owes := h.owes.of_eq (by omega), blocks := nodup_without h.blocks name }

/-- A pair that was in hand gets a name, and one that had the name is in hand then. -/
theorem enterPair (h : inv.Balanced b loose spare) {name : String} {p : Pair} {loose' : Nat}
    (hloose : loose' + p.cost b.home = loose + (inv.pairs.lookup name).elim 0 (Pair.cost b.home)) :
    Balanced b loose' spare { inv with pairs := entered name p inv.pairs } := by
  have hcost := cost_enterPair b h.pairs name p
  exact { h with owes := h.owes.of_eq (by omega), pairs := nodup_entered h.pairs name p }

theorem removePair (h : inv.Balanced b loose spare) {name : String} {p : Pair}
    (hp : inv.pairs.lookup name = some p) :
    Balanced b (loose + p.cost b.home) spare { inv with pairs := without name inv.pairs } := by
  have hcost := cost_removePair b h.pairs hp
  exact { h with owes := h.owes.of_eq (by omega), pairs := nodup_without h.pairs name }

theorem setCell (h : inv.Balanced b loose spare) {i : Nat} {c c' : Cell} (hc : inv.cells[i]? = some c)
    {loose' : Nat} (hloose : loose' + c'.cost b.home = loose + c.cost b.home)
    (hheld : c'.contents.isSome → i ∈ spare ∨ ∃ e ∈ inv.handles, e.2 = i) :
    Balanced b loose' spare { inv with cells := inv.cells.setIfInBounds i c' } := by
  have hcost := cost_setCell b hc c'
  refine { h with owes := h.owes.of_eq (by omega), held := fun j d hd hsome => ?_ }
  rw [Array.getElem?_setIfInBounds] at hd
  by_cases hj : i = j
  · subst hj
    rw [if_pos rfl] at hd
    split at hd
    · obtain rfl : c' = d := Option.some.inj hd
      exact hheld hsome
    · cases hd
  · rw [if_neg hj] at hd
    exact h.held j d hd hsome

theorem pushCell {c : Cell} (h : inv.Balanced b (loose + c.cost b.home) []) :
    Balanced b loose [inv.cells.size] { inv with cells := inv.cells.push c } := by
  have hcost := cost_pushCell inv b c
  refine { h with owes := h.owes.of_eq (by omega), held := fun j d hd hsome => ?_ }
  rw [Array.getElem?_push] at hd
  split at hd
  · rename_i hj
    exact .inl (List.mem_singleton.2 hj)
  · exact .inr ((h.held j d hd hsome).resolve_left List.not_mem_nil)

theorem removeHandle (h : inv.Balanced b loose spare) {name : String} {i : Nat}
    (hi : inv.handles.lookup name = some i) :
    Balanced b loose (i :: spare) { inv with handles := without name inv.handles } := by
  refine { h with handles := nodup_without h.handles name, held := fun j c hc hsome => ?_ }
  rcases h.held j c hc hsome with hj | ⟨e, he, rfl⟩
  · exact .inl (List.mem_cons_of_mem _ hj)
  · by_cases hname : e.1 = name
    · have hlookup := lookup_of_mem h.handles he
      rw [hname, hi] at hlookup
      exact .inl (List.mem_cons.2 (.inl (Option.some.inj hlookup).symm))
    · exact .inr ⟨e, List.mem_filter.2 ⟨he, bne_iff_ne.2 hname⟩, rfl⟩

theorem settle {i : Nat} (h : inv.Balanced b loose (i :: spare))
    (hi : (∃ e ∈ inv.handles, e.2 = i) ∨ ∀ c, inv.cells[i]? = some c → c.contents = none) :
    inv.Balanced b loose spare := by
  refine { h with held := fun j c hc hsome => ?_ }
  rcases h.held j c hc hsome with hj | hj
  · rcases List.mem_cons.1 hj with rfl | hj
    · rcases hi with hhandle | hnone
      · exact .inr hhandle
      · rw [hnone c hc] at hsome
        cases hsome
    · exact .inl hj
  · exact .inr hj

theorem enterHandle {i : Nat} (h : inv.Balanced b loose (i :: spare)) {name : String}
    (hname : ∀ j, inv.handles.lookup name = some j → j = i) :
    Balanced b loose spare { inv with handles := entered name i inv.handles } := by
  have hhandle : ∃ e ∈ entered name i inv.handles, e.2 = i := ⟨(name, i), List.mem_cons_self .., rfl⟩
  refine { h with handles := nodup_entered h.handles name i, held := fun j c hc hsome => ?_ }
  rcases h.held j c hc hsome with hj | ⟨e, he, rfl⟩
  · rcases List.mem_cons.1 hj with rfl | hj
    · exact .inr hhandle
    · exact .inl hj
  · by_cases hkey : e.1 = name
    · have hlookup := lookup_of_mem h.handles he
      rw [hkey] at hlookup
      rw [hname e.2 hlookup]
      exact .inr hhandle
    · exact .inr ⟨e, List.mem_cons_of_mem _ (List.mem_filter.2 ⟨he, bne_iff_ne.2 hkey⟩), rfl⟩

end Balanced

end Inventory

end FieldCircuit
