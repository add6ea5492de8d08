import FieldCircuit.Proofs.Leading
import FieldCircuit.Proofs.Memory.Balance

/-!
# Where operations on memory lead

Each operation on a bank or an inventory has one lemma that says how the bytes move that an
accelerator allocator accounts for: from the bank into the hands of the operation, from there to a name,
and back. It says so for an operation that succeeds and for one that fails, but not after a fault.
-/

namespace FieldCircuit

theorem DeviceError.isFault_of_lift {α : Type} {x : Except Fault α} {e : DeviceError}
    (h : (liftM x : Except DeviceError α) = .error e) : e.isFault := by
  cases x with
  | error cause =>
      rw [← Except.error.inj h]
      rfl
  | ok a => cases h

variable {b : Books} {live loose : Nat}

namespace Bank

variable {bank : Bank} {fail : DeviceError → Bank → Prop}

theorem Owes.set_self (h : bank.Owes b live) {a : Allocator} {live' : Nat}
    (ha : a.Accounts b.id b.capacity live') : Owes b (bank.setIfInBounds b.home a) live' := by
  obtain ⟨old, hold, -⟩ := h
  obtain ⟨hlt, -⟩ := Array.getElem?_eq_some_iff.1 hold
  exact ⟨a, Array.getElem?_setIfInBounds_self_of_lt hlt, ha⟩

theorem Owes.set_of_ne (h : bank.Owes b live) {origin : Nat} (hne : origin ≠ b.home) (a : Allocator) :
    Owes b (bank.setIfInBounds origin a) live := by
  obtain ⟨old, hold, haccounts⟩ := h
  exact ⟨old, (Array.getElem?_setIfInBounds_ne hne).trans hold, haccounts⟩

theorem alloc_run (bank : Bank) (origin size : Nat) :
    (alloc origin size).run.run bank = match bank[origin]? with
      | none => (.error (.fault .outOfRange), bank)
      | some a => ((a.alloc size).1, bank.setIfInBounds origin (a.alloc size).2) :=
  rfl

theorem leads_alloc (h : bank.Owes b live) (origin size : Nat) :
    Leads (alloc origin size) bank
      (fun block bank' => Owes b bank' (live + block.cost b.home origin))
      fun e bank' => e.isFault = false → Owes b bank' live := by
  unfold Leads
  rw [alloc_run]
  cases horigin : bank[origin]? with
  | none =>
      refine ⟨fun block bank' hr => (by cases hr), fun e bank' hr _ => ?_⟩
      rw [← (Prod.mk.inj hr).2]
      exact h
  | some a =>
      by_cases hhome : origin = b.home
      · subst hhome
        obtain ⟨a', ha', haccounts⟩ := id h
        obtain rfl : a = a' := Option.some.inj (horigin.symm.trans ha')
        refine ⟨fun block bank' hr => ?_, fun e bank' hr he => ?_⟩
        · rw [← (Prod.mk.inj hr).2]
          exact (h.set_self ((haccounts.alloc size).1 block (Prod.mk.inj hr).1)).of_eq
            (by rw [block.cost_self])
        · rw [← (Prod.mk.inj hr).2]
          exact h.set_self ((haccounts.alloc size).2 e (Prod.mk.inj hr).1 he)
      · refine ⟨fun block bank' hr => ?_, fun e bank' hr _ => ?_⟩
        · rw [← (Prod.mk.inj hr).2]
          exact (h.set_of_ne hhome _).of_eq (by rw [block.cost_of_ne hhome, Nat.add_zero])
        · rw [← (Prod.mk.inj hr).2]
          exact h.set_of_ne hhome _

theorem leads_free {origin : Nat} {block : Contents}
    (h : bank.Owes b (live + block.cost b.home origin)) :
    Leads (free origin block) bank (fun _ bank' => Owes b bank' live) fail := by
  refine ⟨?_, fun e bank' hr => by cases hr⟩
  rintro _ _ ⟨⟩
  by_cases hhome : origin = b.home
  · subst hhome
    rw [block.cost_self] at h
    obtain ⟨a, ha, haccounts⟩ := id h
    rw [modify_eq_setIfInBounds ha]
    exact h.set_self haccounts.free
  · rw [block.cost_of_ne hhome] at h
    obtain ⟨a, ha, haccounts⟩ := h
    refine ⟨a, ?_, haccounts⟩
    rw [Array.getElem?_modify, if_neg hhome, ha]

theorem side_run (bank : Bank) (home : Nat) : (side home).run.run bank = match bank[home]? with
    | none => (.error (.fault .outOfRange), bank)
    | some a => (.ok a.side, bank) :=
  rfl

theorem leads_side (home : Nat) : Leads (side home) bank (fun _ bank' => bank' = bank)
    fun _ bank' => bank' = bank := by
  unfold Leads
  rw [side_run]
  cases bank[home]? <;>
    exact ⟨fun _ _ hr => (Prod.mk.inj hr).2.symm, fun _ _ hr => (Prod.mk.inj hr).2.symm⟩

theorem leads_block (h : bank.Owes b live) (f : BufferFormat) :
    Leads f.block bank (fun block bank' => Owes b bank' (live + block.cost b.home f.home))
      fun e bank' => e.isFault = false → Owes b bank' live := by
  exact .bind_lift (fun size _ => leads_alloc h f.home size) fun _ _ _ => h

theorem leads_allocate (h : bank.Owes b live) (home length : Nat) (e : Encoding) :
    Leads (Buffer.allocate home length e) bank
      (fun buffer bank' => Owes b bank' (live + buffer.cost b.home))
      fun e bank' => e.isFault = false → Owes b bank' live := by
  refine .bind ((leads_side home).mono (fun _ _ h => h) ?_) ?_
  · rintro _ _ rfl _
    exact h
  · rintro side _ rfl
    exact .bind (leads_block h _) fun block bank' h' => .pure h'

theorem leads_release {buffer : Buffer} (h : bank.Owes b (live + buffer.cost b.home)) :
    Leads buffer.release bank (fun _ bank' => Owes b bank' live) fail :=
  leads_free h

/-- What has been had is given back after an error, which is passed on. -/
theorem leads_giveUp {β : Type} {buffer : Buffer} {e : DeviceError} {post : β → Bank → Prop}
    {p : DeviceError → Prop} (he : p e)
    (h : e.isFault = false → bank.Owes b (live + buffer.cost b.home)) :
    Leads (do buffer.release; throw e) bank post
      fun e bank' => p e ∧ (e.isFault = false → Owes b bank' live) := by
  cases hfault : e.isFault with
  | true => exact .of_error rfl ⟨he, fun hfine => by rw [hfault] at hfine; cases hfine⟩
  | false => exact .bind (leads_release (h hfault)) fun _ _ h' => .throw ⟨he, fun _ => h'⟩

/-- If the second buffer of a pair cannot be had, the first one is given back. -/
theorem leads_newPair (h : bank.Owes b live) (t : FieldType) (host accelerator : Nat) :
    Leads (Pair.allocate t host accelerator) bank
      (fun p bank' => Owes b bank' (live + p.cost b.home))
      fun e bank' => e.isFault = false → Owes b bank' live := by
  refine .bind_lift (fun words _ => ?_) fun _ _ _ => h
  refine .bind (leads_allocate h ..) fun master bank' h' => ?_
  refine .bind (.tryCatch (leads_allocate h' ..) fun e bank' h' => ?_) fun slave bank' h' => ?_
  · exact (leads_giveUp (p := fun _ => True) trivial h').mono (fun _ _ h => h) fun _ _ h => h.2
  · exact .pure (h'.of_eq (Nat.add_assoc ..))

theorem leads_releasePair {p : Pair} (h : bank.Owes b (live + p.cost b.home)) :
    Leads p.release bank (fun _ bank' => Owes b bank' live) fail := by
  have hboth : bank.Owes b (live + p.slave.cost b.home + p.master.cost b.home) :=
    h.of_eq (by rw [Pair.cost]; omega)
  exact .bind (leads_release hboth) fun _ bank' h' => leads_release h'

end Bank

namespace Buffer

/-- The same kind of buffer with as much memory from the same allocator. -/
structure Alike (b b' : Buffer) : Prop where
  format : b'.format = b.format
  size : b'.contents.size = b.contents.size

variable {b b' : Buffer}

theorem Alike.cost (h : b.Alike b') (home : Nat) : b'.cost home = b.cost home := by
  rw [Buffer.cost, Buffer.cost, h.format, Contents.cost_congr h.size]

theorem alike_overwritten (b : Buffer) (e : Encoding) (values : Array Float32) :
    b.Alike { b with contents := b.contents.overwritten e values } :=
  ⟨rfl, Contents.size_overwritten ..⟩

theorem alike_write {values : Array Float32} (h : b.write values = .ok b') : b.Alike b' := by
  unfold write at h
  split at h
  · cases h
  · split at h
    · split at h
      · rw [← Except.ok.inj h]
        exact alike_overwritten ..
      · cases h
    · rw [← Except.ok.inj h]
      exact alike_overwritten ..

theorem alike_copyFrom {source : Buffer} (h : b.copyFrom source = .ok b') : b.Alike b' := by
  unfold copyFrom at h
  split at h
  · cases h
  · obtain ⟨values, -, h⟩ := bind_eq_ok_iff.1 h
    split at h
    · split at h
      · rw [← Except.ok.inj h]
        exact alike_overwritten ..
      · cases h
    · rw [← Except.ok.inj h]
      exact alike_overwritten ..

end Buffer

namespace Pair

variable {p p' source source' : Pair} {side : Side}

structure Alike (p p' : Pair) : Prop where
  master : p.master.Alike p'.master
  slave : p.slave.Alike p'.slave

theorem Alike.refl (p : Pair) : p.Alike p := ⟨⟨rfl, rfl⟩, ⟨rfl, rfl⟩⟩

theorem Alike.cost (h : p.Alike p') (home : Nat) : p'.cost home = p.cost home := by
  rw [Pair.cost, Pair.cost, h.master.cost, h.slave.cost]

theorem alike_sync (h : p.sync side = .ok p') : p.Alike p' := by
  unfold sync at h
  split at h
  · rw [← Except.ok.inj h]
    exact .refl p
  · cases side with
    | accelerator =>
        obtain ⟨master, hmaster, hp'⟩ := bind_eq_ok_iff.1 h
        rw [← Except.ok.inj hp']
        exact ⟨Buffer.alike_copyFrom hmaster, ⟨rfl, rfl⟩⟩
    | host =>
        obtain ⟨slave, hslave, hp'⟩ := bind_eq_ok_iff.1 h
        rw [← Except.ok.inj hp']
        exact ⟨⟨rfl, rfl⟩, Buffer.alike_copyFrom hslave⟩

theorem alike_read {values : Array Float32} (h : p.read side = .ok (values, p')) : p.Alike p' := by
  obtain ⟨q, hq, h⟩ := bind_eq_ok_iff.1 h
  obtain ⟨words, -, h⟩ := bind_eq_ok_iff.1 h
  rw [← (Prod.mk.inj (Except.ok.inj h)).2]
  exact alike_sync hq

theorem alike_writeHost {values : Array Float32} (h : p.writeHost values = .ok p') : p.Alike p' := by
  obtain ⟨slave, hslave, h⟩ := bind_eq_ok_iff.1 h
  rw [← Except.ok.inj h]
  exact ⟨⟨rfl, rfl⟩, Buffer.alike_write hslave⟩

theorem alike_write (p : Pair) (side : Side) (values : Array Float32) :
    p.Alike (p.write side values).2 := by
  fun_cases Pair.write p side values with
  | case1 b hb =>
      cases side with
      | host => exact ⟨⟨rfl, rfl⟩, Buffer.alike_write hb⟩
      | accelerator => exact ⟨Buffer.alike_write hb, ⟨rfl, rfl⟩⟩
  | case2 e he => exact ⟨⟨rfl, rfl⟩, ⟨rfl, rfl⟩⟩

theorem alike_latchFrom (p source : Pair) :
    p.Alike (p.latchFrom source).2.1 ∧ source.Alike (p.latchFrom source).2.2 := by
  fun_cases Pair.latchFrom p source with
  | case1 e he => exact ⟨.refl p, .refl source⟩
  | case2 source' hsource e he => exact ⟨.refl p, alike_sync hsource⟩
  | case3 source' hsource master hmaster =>
      exact ⟨⟨Buffer.alike_copyFrom hmaster, ⟨rfl, rfl⟩⟩, alike_sync hsource⟩

end Pair

namespace Inventory

variable {spare : List Nat} {inv : Inventory} {fail : DeviceError → Inventory → Prop}

theorem leads_onBank {β : Type} {x : BankM β} {post : β → Bank → Prop}
    {fail : DeviceError → Bank → Prop} (h : Leads x inv.bank post fail) :
    Leads (onBank x) inv (fun r inv' => ∃ bank, inv' = { inv with bank } ∧ post r bank)
      fun e inv' => ∃ bank, inv' = { inv with bank } ∧ fail e bank := by
  have hrun : (onBank x).run.run inv =
      ((x.run.run inv.bank).1, { inv with bank := (x.run.run inv.bank).2 }) := rfl
  unfold Leads
  rw [hrun]
  generalize hx : x.run.run inv.bank = r
  refine ⟨?_, ?_⟩
  · rintro a _ hr
    obtain ⟨hresult, rfl⟩ := Prod.mk.inj hr
    exact ⟨r.2, rfl, h.1 a r.2 (hx.trans (Prod.ext hresult rfl))⟩
  · rintro e _ hr
    obtain ⟨hresult, rfl⟩ := Prod.mk.inj hr
    exact ⟨r.2, rfl, h.2 e r.2 (hx.trans (Prod.ext hresult rfl))⟩

theorem Balanced.leads_take {β : Type} {x : BankM β} {given : β → Nat} (h : inv.Balanced b loose spare)
    (hx : ∀ live, inv.bank.Owes b live →
      Leads x inv.bank (fun r bank => bank.Owes b (live + given r))
        fun e bank => e.isFault = false → bank.Owes b live) :
    Leads (onBank x) inv
      (fun r inv' => ∃ bank, inv' = { inv with bank } ∧ inv'.Balanced b (loose + given r) spare)
      fun e inv' => ∃ bank, inv' = { inv with bank } ∧
        (e.isFault = false → inv'.Balanced b loose spare) := by
  refine (leads_onBank (hx _ h.owes)).mono ?_ ?_
  · rintro r _ ⟨bank, rfl, howes⟩
    exact ⟨bank, rfl, h.withBank (howes.of_eq (Nat.add_assoc ..))⟩
  · rintro e _ ⟨bank, rfl, howes⟩
    exact ⟨bank, rfl, fun he => h.withBank (howes he)⟩

theorem leads_giveBack {x : BankM Unit}
    (hx : Leads x inv.bank (fun _ bank => bank.Owes b live) fun _ _ => False) :
    Leads (onBank x) inv (fun _ inv' => ∃ bank : Bank, inv' = { inv with bank } ∧ bank.Owes b live)
      fail := by
  refine (leads_onBank hx).mono (fun _ _ h => h) ?_
  rintro e _ ⟨_, -, hfalse⟩
  exact hfalse.elim

theorem leads_find {β : Type} (entries : List (String × β)) (name : String) :
    Leads (find entries name) inv (fun x inv' => inv' = inv ∧ entries.lookup name = some x)
      fun e inv' => inv' = inv ∧ e.isFault := by
  unfold find
  cases h : entries.lookup name with
  | none => exact .throw ⟨rfl, rfl⟩
  | some x => exact .pure ⟨rfl, rfl⟩

theorem leads_cell (buffer : String) :
    Leads (cell buffer) inv
      (fun r inv' => inv' = inv ∧ inv.handles.lookup buffer = some r.1 ∧ inv.cells[r.1]? = some r.2)
      fun e inv' => inv' = inv ∧ e.isFault := by
  refine .bind_get ?_
  refine .bind (leads_find _ buffer) ?_
  rintro position _ ⟨rfl, hposition⟩
  split
  · rename_i c hc
    exact .pure ⟨rfl, hposition, hc⟩
  · exact .throw ⟨rfl, rfl⟩

def Filled (inv : Inventory) (i : Nat) (buffer : Buffer) : Prop :=
  inv.cells[i]? = some ⟨buffer.format, some buffer.contents⟩

/-- A buffer that is touched gets memory if it had none; others keep theirs. -/
theorem Balanced.leads_touch (h : inv.Balanced b 0 []) (buffer : String) :
    Leads (touch buffer) inv
      (fun r inv' => inv'.Balanced b 0 [] ∧ inv.handles.lookup buffer = some r.1 ∧ inv'.Filled r.1 r.2 ∧
        inv'.handles = inv.handles ∧ ∀ i other, inv.Filled i other → inv'.Filled i other)
      fun e inv' => ∃ bank, inv' = { inv with bank } ∧ (e.isFault = false → inv'.Balanced b 0 []) := by
  refine .bind ((leads_cell buffer).mono (fun _ _ h => h) ?_) ?_
  · rintro e _ ⟨rfl, -⟩
    exact ⟨_, rfl, fun _ => h⟩
  rintro ⟨position, ⟨format, contents⟩⟩ _ ⟨rfl, hhandle, hcell⟩
  cases contents with
  | some contents => exact .pure ⟨h, hhandle, hcell, rfl, fun _ _ hfilled => hfilled⟩
  | none =>
      refine .bind (h.leads_take fun live howes => Bank.leads_block howes format) ?_
      rintro contents _ ⟨bank, rfl, h⟩
      refine .bind_update ?_
      refine .pure ⟨?_, hhandle, ?_, rfl, fun i other hfilled => ?_⟩
      · exact h.setCell hcell rfl fun _ => .inr ⟨_, mem_of_lookup hhandle, rfl⟩
      · exact Array.getElem?_setIfInBounds_self_of_lt (Array.getElem?_eq_some_iff.1 hcell).1
      · have hne : position ≠ i := by
          rintro rfl
          cases hcell.symm.trans hfilled
        exact (Array.getElem?_setIfInBounds_ne hne).trans hfilled

theorem Balanced.leads_put (h : inv.Balanced b 0 []) {i : Nat} {buffer buffer' : Buffer}
    (hfilled : inv.Filled i buffer) (halike : buffer.Alike buffer') :
    Leads (put i buffer') inv (fun _ inv' => inv'.Balanced b 0 []) fail := by
  have hcost : Cell.cost b.home ⟨buffer'.format, some buffer'.contents⟩ =
      Cell.cost b.home ⟨buffer.format, some buffer.contents⟩ := halike.cost b.home
  refine .update (h.setCell hfilled (congrArg (0 + ·) hcost) fun _ => ?_)
  exact h.held i _ hfilled rfl

theorem Balanced.leads_dropHandle (h : inv.Balanced b loose spare) (name : String) :
    Leads (dropHandle name) inv
      (fun _ inv' => inv'.Balanced b loose spare ∧ inv'.handles.lookup name = none) fail := by
  refine .bind_get ?_
  cases hhandle : inv.handles.lookup name with
  | none => exact .pure ⟨h, hhandle⟩
  | some position =>
      have hremoved := h.removeHandle hhandle
      have hgone : (without name inv.handles).lookup name = none := lookup_without_self name inv.handles
      refine .bind_set ?_
      split
      · rename_i hany
        obtain ⟨e, he, hposition⟩ := List.any_eq_true.1 hany
        exact .pure ⟨hremoved.settle (.inl ⟨e, he, beq_iff_eq.1 hposition⟩), hgone⟩
      · split
        · rename_i format contents hcell
          have hset : Balanced b (loose + contents.cost b.home format.home) _
              { inv with handles := _, cells := inv.cells.setIfInBounds position ⟨format, none⟩ } :=
            hremoved.setCell hcell rfl fun hsome => by cases hsome
          have howes : inv.bank.Owes b (_ + contents.cost b.home format.home) :=
            hset.owes.of_eq (Nat.add_assoc ..).symm
          refine .bind (leads_giveBack (Bank.leads_free howes)) ?_
          rintro _ _ ⟨bank, rfl, howes⟩
          refine .bind_update ?_
          refine .pure ⟨(hset.withBank howes).settle (.inr fun c hc => ?_), hgone⟩
          have hlt := (Array.getElem?_eq_some_iff.1 hcell).1
          obtain rfl := Option.some.inj ((Array.getElem?_setIfInBounds_self_of_lt hlt).symm.trans hc)
          rfl
        · rename_i hcell
          refine .pure ⟨hremoved.settle (.inr ?_), hgone⟩
          rintro ⟨format, contents⟩ hc
          cases contents with
          | none => rfl
          | some contents => exact (hcell format contents hc).elim

theorem Balanced.leads_bindHandle {position : Nat} (h : inv.Balanced b loose (position :: spare))
    (name : String) :
    Leads (bindHandle name position) inv (fun _ inv' => inv'.Balanced b loose spare) fail := by
  refine .bind_get ?_
  cases hhandle : inv.handles.lookup name with
  | none => exact .update (h.enterHandle fun j hj => by rw [hhandle] at hj; cases hj)
  | some old =>
      dsimp only
      split
      · refine .bind (h.leads_dropHandle name) ?_
        rintro _ inv' ⟨h, hnone⟩
        exact .update (h.enterHandle fun j hj => by rw [hnone] at hj; cases hj)
      · rename_i hold
        refine .update (h.enterHandle fun j hj => ?_)
        rw [hhandle] at hj
        obtain rfl : old = j := Option.some.inj hj
        exact not_not.1 hold

theorem leads_describe (buffer : String) :
    Leads (describe buffer) inv (fun _ inv' => inv' = inv) fun e inv' => inv' = inv ∧ e.isFault := by
  refine .bind (leads_cell buffer) ?_
  rintro ⟨position, c⟩ inv ⟨rfl, -⟩
  refine .bind_get ?_
  exact .bind_lift (fun _ _ => .pure rfl) fun e he => ⟨rfl, DeviceError.isFault_of_lift he⟩

theorem Balanced.leads_dropPair (h : inv.Balanced b loose spare) (name : String) :
    Leads (dropPair name) inv
      (fun _ inv' => inv'.Balanced b loose spare ∧ inv'.pairs.lookup name = none) fail := by
  refine .bind_get ?_
  cases hp : inv.pairs.lookup name with
  | none => exact .pure ⟨h, hp⟩
  | some p =>
      have hgone : (without name inv.pairs).lookup name = none := lookup_without_self name inv.pairs
      refine .bind_set ?_
      have howes := (h.removePair hp).owes.of_eq (Nat.add_assoc ..).symm
      refine .bind (leads_giveBack (Bank.leads_releasePair howes)) ?_
      rintro _ _ ⟨bank, rfl, howes⟩
      exact .pure ⟨(h.removePair hp).withBank howes, hgone⟩

theorem leads_named {β γ : Type} {entries : Inventory → List (String × β)} {name : String}
    {rest : β → InventoryM γ} {post : γ → Inventory → Prop}
    (h : ∀ x, (entries inv).lookup name = some x → Leads (rest x) inv post fail)
    (hfail : ∀ e, fail e inv) :
    Leads (do let x ← find (entries (← get)) name; rest x) inv post fail := by
  refine .bind_get ?_
  refine .bind ((leads_find _ name).mono (fun _ _ h => h) ?_) ?_
  · rintro e _ ⟨rfl, -⟩
    exact hfail e
  · rintro x _ ⟨rfl, hx⟩
    exact h x hx

end Inventory

end FieldCircuit
