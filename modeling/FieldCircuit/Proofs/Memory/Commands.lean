import FieldCircuit.Proofs.Memory.Inventory

/-!
# Accounts of inventories

Raw blocks, shared buffers and pairs are made, copied, written and dropped in any order, and some of it
fails. What an accelerator allocator has handed out is at any time what can still be reached through a
name and what its cache keeps, and never more than its capacity. A request that fails for lack of memory
leaves everything that has a name as it was.
-/

namespace FieldCircuit

variable {b : Books}

namespace Command

/-- A block gets a name that is free, and goes back to the allocator that it came from. -/
def Proper (origins : String → Nat) (inv : Inventory) : Command → Prop
  | allocBlock name _ _ => inv.blocks.lookup name = none
  | freeBlock name home => home = origins name
  | _ => True

def origins (before : String → Nat) : Command → String → Nat
  | allocBlock name home _ => Function.update before name home
  | _ => before

/-- The commands that ask for new memory, and do nothing else before they have got it. -/
def Requests : Command → Prop
  | allocBlock .. | newBuffer .. | ensure _ | newPair .. => True
  | _ => False

end Command

namespace Inventory

/-- The inventory is balanced after the computation, whether it succeeds or fails, unless that is a
fault. -/
abbrev Settles {β : Type} (x : InventoryM β) (b : Books) (inv : Inventory) : Prop :=
  Leads x inv (fun _ inv' => inv'.Balanced b 0 []) fun e inv' =>
    e.isFault = false → inv'.Balanced b 0 []

namespace Balanced

variable {inv : Inventory}

theorem leads_allocBlock (h : inv.Balanced b 0 []) {name : String}
    (hname : inv.blocks.lookup name = none) (home size : Nat) :
    Leads (perform (.allocBlock name home size)) inv
      (fun _ inv' => inv'.Balanced { b with origins := Function.update b.origins name home } 0 [])
      fun e inv' => ∃ bank, inv' = { inv with bank } ∧ (e.isFault = false →
        inv'.Balanced { b with origins := Function.update b.origins name home } 0 []) := by
  have hnew := h.withOrigin hname home
  refine .bind (hnew.leads_take fun live howes => Bank.leads_alloc howes home size) ?_
  rintro block _ ⟨bank, rfl, h⟩
  refine .bind_update (.pure (h.enterBlock ?_))
  dsimp only
  rw [hname, Function.update_self]
  rfl

theorem settles_freeBlock (h : inv.Balanced b 0 []) (name : String) :
    Settles (perform (.freeBlock name (b.origins name))) b inv := by
  refine leads_named (fun block hblock => ?_) fun _ _ => h
  have hremoved := h.removeBlock hblock
  refine .bind_update ?_
  refine .bind (leads_giveBack (Bank.leads_free (hremoved.owes.of_eq (Nat.add_assoc ..).symm))) ?_
  rintro _ _ ⟨bank, rfl, howes⟩
  exact .pure (hremoved.withBank howes)

theorem settles_fillBlock (h : inv.Balanced b 0 []) (name : String) (byte : UInt8) (word : Float32) :
    Settles (perform (.fillBlock name byte word)) b inv := by
  refine leads_named (fun block hblock => ?_) fun _ _ => h
  refine .bind_update (.pure (h.enterBlock ?_))
  rw [hblock, Option.elim_some, Contents.cost_congr]
  cases block <;> simp [Contents.size]

theorem leads_added {c : Cell} (h : inv.Balanced b (c.cost b.home) []) (name : String) :
    Leads (do
        let position := (← get).cells.size
        modify fun inv => { inv with cells := inv.cells.push c }
        bindHandle name position
        describe name) inv
      (fun _ inv' => inv'.Balanced b 0 []) fun e inv' => inv'.Balanced b 0 [] ∧ e.isFault := by
  refine .bind_get ?_
  have hpushed : Balanced b 0 [inv.cells.size] { inv with cells := inv.cells.push c } :=
    Balanced.pushCell (h.of_eq (Nat.zero_add _).symm)
  refine .bind_update (.bind (hpushed.leads_bindHandle name) fun _ inv' h => ?_)
  refine (leads_describe name).mono ?_ ?_
  · rintro _ _ rfl
    exact h
  · rintro e _ ⟨rfl, hfault⟩
    exact ⟨h, hfault⟩

theorem leads_newBuffer (h : inv.Balanced b 0 []) (name : String) (home length : Nat) (e : Encoding)
    (lazy : Bool) :
    Leads (perform (.newBuffer name home length e lazy)) inv (fun _ inv' => inv'.Balanced b 0 [])
      fun e inv' => (e.isFault = false → inv'.Balanced b 0 []) ∧
        (e.isFault ∨ ∃ bank, inv' = { inv with bank }) := by
  refine .bind ((leads_onBank (Bank.leads_side home)).mono (fun _ _ h => h) ?_) ?_
  · rintro _ _ ⟨_, rfl, rfl⟩
    exact ⟨fun _ => h, .inr ⟨_, rfl⟩⟩
  rintro side _ ⟨_, rfl, rfl⟩
  cases lazy with
  | true =>
      exact .bind_pure ((leads_added h name).mono (fun _ _ h => h)
        fun _ _ h => ⟨fun _ => h.1, .inl h.2⟩)
  | false =>
      have htaken : Leads (some <$> onBank (BufferFormat.on side home length e).block) inv
          (fun contents inv' =>
            inv'.Balanced b (Cell.cost b.home ⟨BufferFormat.on side home length e, contents⟩) [])
          fun e inv' => ∃ bank, inv' = { inv with bank } ∧
            (e.isFault = false → inv'.Balanced b 0 []) := by
        refine .map ((h.leads_take fun live howes => Bank.leads_block howes _).mono ?_ fun _ _ h => h)
        rintro contents _ ⟨bank, rfl, h⟩
        exact h.of_eq (Nat.zero_add _)
      refine .bind (htaken.mono (fun _ _ h => h) ?_) fun contents inv' h => ?_
      · rintro e _ ⟨bank, rfl, h⟩
        exact ⟨h, .inr ⟨bank, rfl⟩⟩
      · exact (h.leads_added name).mono (fun _ _ h => h) fun _ _ h => ⟨fun _ => h.1, .inl h.2⟩

theorem settles_cell {rest : Nat × Cell → InventoryM Reply} (h : inv.Balanced b 0 [])
    {buffer : String} (hrest : ∀ r, inv.handles.lookup buffer = some r.1 → inv.cells[r.1]? = some r.2 →
      Settles (rest r) b inv) :
    Settles (cell buffer >>= rest) b inv := by
  refine .bind ((leads_cell buffer).mono (fun _ _ h => h) ?_) ?_
  · rintro _ _ ⟨rfl, -⟩ _
    exact h
  · rintro r _ ⟨rfl, hhandle, hcell⟩
    exact hrest r hhandle hcell

theorem settles_touch {rest : Nat × Buffer → InventoryM Reply} (h : inv.Balanced b 0 [])
    {buffer : String} (hrest : ∀ r inv', inv'.Balanced b 0 [] → inv'.Filled r.1 r.2 → Settles (rest r) b inv') :
    Settles (touch buffer >>= rest) b inv := by
  refine .bind ((h.leads_touch buffer).mono (fun _ _ h => h) ?_) ?_
  · rintro _ _ ⟨bank, rfl, h⟩
    exact h
  · rintro r inv' ⟨h, -, hfilled, -⟩
    exact hrest r inv' h hfilled

theorem settles_lift {α : Type} {y : Except DeviceError α} {rest : α → InventoryM Reply}
    (h : inv.Balanced b 0 []) (hrest : ∀ a, y = .ok a → Settles (rest a) b inv) :
    Settles (liftM y >>= rest) b inv :=
  .bind_lift hrest fun _ _ _ => h

theorem settles_put (h : inv.Balanced b 0 []) {i : Nat} {buffer buffer' : Buffer}
    (hfilled : inv.Filled i buffer) (halike : buffer.Alike buffer') :
    Settles (do put i buffer'; return Reply.done) b inv :=
  .bind (h.leads_put hfilled halike) fun _ _ h => .pure h

theorem settles_write (h : inv.Balanced b 0 []) (buffer : String) (values : Array Float32) :
    Settles (perform (.write buffer values)) b inv := by
  refine h.settles_cell fun ⟨position, c⟩ _ _ => ?_
  dsimp only
  split
  · exact .throw fun _ => h
  · refine h.settles_touch fun ⟨i, target⟩ inv' h hfilled => ?_
    exact h.settles_lift fun target' hwrite => h.settles_put hfilled (Buffer.alike_write hwrite)

theorem settles_setWords (h : inv.Balanced b 0 []) (buffer : String) (values : Array Float32) :
    Settles (perform (.setWords buffer values)) b inv := by
  refine h.settles_touch fun ⟨i, target⟩ inv' h hfilled => ?_
  refine h.settles_lift fun _ _ => ?_
  dsimp only
  split
  · exact .throw fun _ => h
  · exact h.settles_lift fun target' hwrite => h.settles_put hfilled (Buffer.alike_write hwrite)

theorem settles_copy (h : inv.Balanced b 0 []) (target source : String) :
    Settles (perform (.copy target source)) b inv := by
  refine h.settles_cell fun ⟨p, c⟩ hp _ => h.settles_cell fun ⟨q, d⟩ hq _ => ?_
  dsimp only
  split
  · exact .throw fun _ => h
  split
  · exact .pure h
  refine .bind ((h.leads_touch target).mono (fun _ _ h => h) ?_) ?_
  · rintro _ _ ⟨bank, rfl, h⟩
    exact h
  rintro ⟨i, receiver⟩ inv' ⟨h, hi, hfilled, -, -⟩
  obtain rfl : p = i := Option.some.inj (hp.symm.trans hi)
  refine .bind ((h.leads_touch source).mono (fun _ _ h => h) ?_) ?_
  · rintro _ _ ⟨bank, rfl, h⟩
    exact h
  rintro ⟨j, s⟩ inv'' ⟨h, -, -, -, hkept⟩
  exact h.settles_lift fun receiver' hcopy =>
    h.settles_put (hkept p receiver hfilled) (Buffer.alike_copyFrom hcopy)

theorem settles_overlap (h : inv.Balanced b 0 []) (buffer : String) (held wanted : Access) :
    Settles (perform (.overlap buffer held wanted)) b inv := by
  refine h.settles_touch fun ⟨i, target⟩ inv' h hfilled => ?_
  refine h.settles_lift fun _ _ => h.settles_lift fun words _ => h.settles_lift fun _ _ => .pure h

theorem leads_newPair (h : inv.Balanced b 0 []) (name : String) (host accelerator : Nat) (t : FieldType) :
    Leads (perform (.newPair name host accelerator t)) inv (fun _ inv' => inv'.Balanced b 0 [])
      fun e inv' => ∃ bank, inv' = { inv with bank } ∧ (e.isFault = false → inv'.Balanced b 0 []) := by
  refine .bind (h.leads_take fun live howes => Bank.leads_newPair howes t host accelerator) ?_
  rintro p _ ⟨bank, rfl, h⟩
  refine .bind (h.leads_dropPair name) ?_
  rintro _ inv' ⟨h, hnone⟩
  refine .bind_update (.pure (h.enterPair ?_))
  rw [hnone]
  rfl

theorem putPair (h : inv.Balanced b 0 []) {name : String} {p p' : Pair}
    (hp : inv.pairs.lookup name = some p) (halike : p.Alike p') :
    Balanced b 0 [] { inv with pairs := entered name p' inv.pairs } := by
  refine h.enterPair ?_
  rw [hp, Option.elim_some, halike.cost]

theorem settles_pair {rest : Pair → InventoryM Reply} (h : inv.Balanced b 0 []) {name : String}
    (hrest : ∀ p, inv.pairs.lookup name = some p → Settles (rest p) b inv) :
    Settles (do let p ← find (← get).pairs name; rest p) b inv :=
  leads_named hrest fun _ _ => h

theorem settles_latchPair (h : inv.Balanced b 0 []) (target source : String) :
    Settles (perform (.latchPair target source)) b inv := by
  refine h.settles_pair fun p hp => h.settles_pair fun s hs => ?_
  obtain ⟨hp', hs'⟩ := Pair.alike_latchFrom p s
  generalize p.latchFrom s = r at hp' hs'
  obtain ⟨result, p', s'⟩ := r
  have hsource := h.putPair hs hs'
  have hcost : ((entered source s' inv.pairs).lookup target).elim 0 (Pair.cost b.home) =
      p.cost b.home := by
    by_cases hsame : target = source
    · subst hsame
      obtain rfl : p = s := Option.some.inj (hp.symm.trans hs)
      rw [lookup_entered_self, Option.elim_some]
      exact hs'.cost b.home
    · rw [lookup_entered_of_ne hsame, hp, Option.elim_some]
  have htarget : Balanced b 0 []
      { inv with pairs := entered target p' (entered source s' inv.pairs) } := by
    refine hsource.enterPair ?_
    rw [hcost, hp'.cost]
  exact .bind_update (.bind_update (htarget.settles_lift fun _ _ => .pure htarget))

theorem settles_putPair {rest : Unit → InventoryM Reply} (h : inv.Balanced b 0 []) {name : String}
    {p p' : Pair} (hp : inv.pairs.lookup name = some p) (halike : p.Alike p')
    (hrest : ∀ inv', inv'.Balanced b 0 [] → Settles (rest ()) b inv') :
    Settles (Inventory.putPair name p' >>= rest) b inv :=
  .bind_update (hrest _ (h.putPair hp halike))

/-- Every command keeps an inventory balanced, whether it succeeds or fails, unless that is a fault. A
request that fails has changed nothing but the bank, or has left the range that the library computes
in. -/
theorem leads_perform (h : inv.Balanced b 0 []) {c : Command} (hc : c.Proper b.origins inv) :
    Leads (perform c) inv
      (fun _ inv' => inv'.Balanced { b with origins := c.origins b.origins } 0 [])
      fun e inv' => (e.isFault = false → inv'.Balanced { b with origins := c.origins b.origins } 0 []) ∧
        (c.Requests → e.isFault ∨ ∃ bank, inv' = { inv with bank }) := by
  have hmono : ∀ {c : Command}, Settles (perform c) b inv → ¬ c.Requests →
      Leads (perform c) inv (fun _ inv' => inv'.Balanced b 0 []) fun e inv' =>
        (e.isFault = false → inv'.Balanced b 0 []) ∧
          (c.Requests → e.isFault ∨ ∃ bank, inv' = { inv with bank }) :=
    fun h hrequests => h.mono (fun _ _ h => h) fun _ _ h => ⟨h, fun hc => (hrequests hc).elim⟩
  cases c with
  | allocBlock name home size =>
      refine (h.leads_allocBlock hc home size).mono (fun _ _ h => h) ?_
      rintro e _ ⟨bank, rfl, h⟩
      exact ⟨h, fun _ => .inr ⟨bank, rfl⟩⟩
  | newBuffer name home length e lazy =>
      exact (h.leads_newBuffer name home length e lazy).mono (fun _ _ h => h) fun _ _ h =>
        ⟨h.1, fun _ => h.2⟩
  | ensure buffer =>
      refine .bind ((h.leads_touch buffer).mono (fun _ _ h => h) ?_) fun _ _ h => .pure h.1
      rintro e _ ⟨bank, rfl, h⟩
      exact ⟨h, fun _ => .inr ⟨bank, rfl⟩⟩
  | newPair name host accelerator t =>
      refine (h.leads_newPair name host accelerator t).mono (fun _ _ h => h) ?_
      rintro e _ ⟨bank, rfl, h⟩
      exact ⟨h, fun _ => .inr ⟨bank, rfl⟩⟩
  | freeBlock name home =>
      obtain rfl : home = b.origins name := hc
      exact hmono (h.settles_freeBlock name) id
  | fillBlock name byte word => exact hmono (h.settles_fillBlock name byte word) id
  | showBlock name => exact hmono (leads_named (fun _ _ => .pure h) fun _ _ => h) id
  | cloneBuffer name buffer =>
      refine hmono (h.settles_cell fun r _ _ => ?_) id
      exact .bind ((h.mono (List.nil_subset [r.1])).leads_bindHandle name) fun _ _ h => .pure h
  | dropBuffer name => exact hmono (.bind (h.leads_dropHandle name) fun _ _ h => .pure h.1) id
  | info buffer =>
      refine hmono ((leads_describe buffer).mono ?_ ?_) id
      · rintro _ _ rfl
        exact h
      · rintro _ _ ⟨rfl, -⟩ _
        exact h
  | synchronize buffer => exact hmono (h.settles_cell fun _ _ _ => .pure h) id
  | write buffer values => exact hmono (h.settles_write buffer values) id
  | read buffer =>
      exact hmono (h.settles_touch fun _ _ h _ => h.settles_lift fun _ _ => .pure h) id
  | words buffer =>
      exact hmono (h.settles_touch fun _ _ h _ => h.settles_lift fun _ _ => .pure h) id
  | setWords buffer values => exact hmono (h.settles_setWords buffer values) id
  | copy target source => exact hmono (h.settles_copy target source) id
  | same left right =>
      exact hmono (h.settles_cell fun _ _ _ => h.settles_cell fun _ _ _ => .pure h) id
  | overlap buffer held wanted => exact hmono (h.settles_overlap buffer held wanted) id
  | dropPair name => exact hmono (.bind (h.leads_dropPair name) fun _ _ h => .pure h.1) id
  | showPair name => exact hmono (h.settles_pair fun _ _ => .pure h) id
  | writeHost name values =>
      refine hmono (h.settles_pair fun p hp => h.settles_lift fun p' hwrite => ?_) id
      exact h.settles_putPair hp (Pair.alike_writeHost hwrite) fun _ h => .pure h
  | readPair name side =>
      refine hmono (h.settles_pair fun p hp => h.settles_lift fun ⟨words, p'⟩ hread => ?_) id
      exact h.settles_putPair hp (Pair.alike_read hread) fun _ h => .pure h
  | writePair name side values =>
      refine hmono (h.settles_pair fun p hp => ?_) id
      have halike := p.alike_write side values
      generalize p.write side values = r at halike
      exact h.settles_putPair hp halike fun _ h => h.settles_lift fun _ _ => .pure h
  | rawPair name side =>
      exact hmono (h.settles_pair fun _ _ => h.settles_lift fun _ _ => .pure h) id
  | syncPair name side =>
      refine hmono (h.settles_pair fun p hp => h.settles_lift fun p' hsync => ?_) id
      exact h.settles_putPair hp (Pair.alike_sync hsync) fun _ h => .pure h
  | latchPair target source => exact hmono (h.settles_latchPair target source) id

end Balanced

/-- Bytes of the memory of the allocator at `home` that can still be reached: from a block, through a
handle, or from a pair. -/
def reachable (home : Nat) (origins : String → Nat) (inv : Inventory) : Nat :=
  (inv.blocks.map fun e => e.2.cost home (origins e.1)).sum +
    ((inv.cells.toList.zipIdx.filter fun e => inv.handles.any (·.2 == e.2)).map
      fun e => e.1.cost home).sum +
    (inv.pairs.map fun e => e.2.cost home).sum

theorem sum_filter {α : Type} {p : α → Bool} {f : α → Nat} {l : List α}
    (h : ∀ a ∈ l, p a = false → f a = 0) : ((l.filter p).map f).sum = (l.map f).sum := by
  induction l with
  | nil => rfl
  | cons a l ih =>
      have hrest := ih fun a' ha' => h a' (List.mem_cons_of_mem _ ha')
      cases hp : p a with
      | true =>
          rw [List.filter_cons_of_pos hp, List.map_cons, List.map_cons, List.sum_cons, List.sum_cons, hrest]
      | false =>
          have hzero := h a (List.mem_cons_self ..) hp
          rw [List.filter_cons_of_neg (by simp [hp]), List.map_cons, List.sum_cons, hzero, hrest,
            Nat.zero_add]

/-- Nothing is paid for that cannot be reached. -/
theorem Balanced.reachable_eq {inv : Inventory} {loose : Nat} (h : inv.Balanced b loose []) :
    inv.reachable b.home b.origins = inv.cost b := by
  have hcells : (inv.cells.toList.zipIdx.map fun e => e.1.cost b.home) =
      inv.cells.toList.map (Cell.cost b.home) := by
    have hfst := congrArg (List.map (Cell.cost b.home)) (List.zipIdx_map_fst 0 inv.cells.toList)
    rw [List.map_map] at hfst
    exact hfst
  rw [reachable, cost, sum_filter, hcells]
  rintro ⟨⟨format, contents⟩, i⟩ he hhandles
  cases contents with
  | none => rfl
  | some contents =>
      have hcell := Array.getElem?_toList.symm.trans (List.mem_zipIdx_iff_getElem?.1 he)
      obtain ⟨e, he, hi⟩ := (h.held i _ hcell rfl).resolve_left List.not_mem_nil
      exact absurd (beq_iff_eq.2 hi) (List.any_eq_false.1 hhandles e he)

def after (inv : Inventory) (commands : List Command) : Inventory :=
  commands.foldl (fun inv c => ((perform c).run.run inv).2) inv

def originsAfter (origins : String → Nat) (commands : List Command) : String → Nat :=
  commands.foldl Command.origins origins

/-- Commands that are carried out one after the other. Each is proper, and a command that fails has not
left the range that the library computes in: there is nothing to go on with after a fault. -/
def Course (origins : String → Nat) (inv : Inventory) : List Command → Prop
  | [] => True
  | c :: rest => c.Proper origins inv ∧
      (∀ e, ((perform c).run.run inv).1 = .error e → e.isFault = false) ∧
      Course (c.origins origins) ((perform c).run.run inv).2 rest

theorem Course.append {origins : String → Nat} {inv : Inventory} {earlier later : List Command}
    (h : Course origins inv earlier)
    (hlater : Course (originsAfter origins earlier) (inv.after earlier) later) :
    Course origins inv (earlier ++ later) := by
  induction earlier generalizing origins inv with
  | nil => exact hlater
  | cons c rest ih => exact ⟨h.1, h.2.1, ih h.2.2 hlater⟩

theorem Balanced.step {inv : Inventory} (h : inv.Balanced b 0 []) {c : Command}
    (hc : c.Proper b.origins inv)
    (hfine : ∀ e, ((perform c).run.run inv).1 = .error e → e.isFault = false) :
    ((perform c).run.run inv).2.Balanced { b with origins := c.origins b.origins } 0 [] := by
  have hleads := h.leads_perform hc
  refine Leads.of_both ⟨hleads.1, fun e inv' hrun => (hleads.2 e inv' hrun).1 (hfine e ?_)⟩
  rw [hrun]

theorem Balanced.after {inv : Inventory} {commands : List Command} (h : inv.Balanced b 0 [])
    (hcourse : Course b.origins inv commands) :
    (inv.after commands).Balanced { b with origins := originsAfter b.origins commands } 0 [] := by
  induction commands generalizing inv b with
  | nil => exact h
  | cons c rest ih => exact ih (h.step hcourse.1 hcourse.2.1) hcourse.2.2

theorem balanced_empty {bank : Bank} {limit : Option Nat}
    (h : bank[b.home]? = some ⟨.accelerator b.id b.capacity 0, limit.map .empty⟩) :
    (empty bank).Balanced b 0 [] :=
  ⟨⟨_, h, Allocator.accounts_new ..⟩, List.nodup_nil, List.nodup_nil, List.nodup_nil,
    fun i c hc => by cases hc⟩

/-- The books balance. Whatever is done to an inventory over a bank with a new accelerator allocator,
with or without a cache, the pool has handed out just the bytes that can still be reached and those of
the blocks in the cache, which are no more than its capacity. A request that fails for lack of memory has
changed nothing but the bank. -/
theorem memory_accounted {home id capacity : Nat} {limit : Option Nat} {bank : Bank}
    (hbank : bank[home]? = some ⟨.accelerator id capacity 0, limit.map .empty⟩)
    (origins : String → Nat) {commands : List Command}
    (hcourse : Course origins (empty bank) commands) :
    let inv := (empty bank).after commands
    let origins := originsAfter origins commands
    (∃ a, inv.bank[home]? = some a ∧
      a.pool.allocated? = some (inv.reachable home origins + a.kept) ∧
      inv.reachable home origins + a.kept ≤ capacity) ∧
    ∀ c : Command, c.Requests → c.Proper origins inv → ∀ requested available,
      ((perform c).run.run inv).1 = .error (.outOfMemory requested available) →
      ∃ bank, ((perform c).run.run inv).2 = { inv with bank } := by
  intro inv origins'
  have h : inv.Balanced ⟨home, id, capacity, origins'⟩ 0 [] :=
    Balanced.after (b := ⟨home, id, capacity, origins⟩) (balanced_empty hbank) hcourse
  refine ⟨?_, fun c hrequests hproper requested available hfail => ?_⟩
  · obtain ⟨a, ha, haccounts⟩ := h.owes
    have hreachable : inv.reachable home origins' = inv.cost _ := h.reachable_eq
    rw [hreachable]
    exact ⟨a, ha, congrArg Pool.allocated? haccounts.pool, haccounts.le⟩
  · have hleads := (h.leads_perform hproper).2 _ _ (Prod.ext hfail rfl)
    exact (hleads.2 hrequests).resolve_left Bool.false_ne_true

/-- Of twenty bytes a shared buffer has twelve and the cache eight. A request for sixty-four has the cache
emptied and is refused all the same, and then one for fifty-six. -/
theorem memory_accounted_shared_buffer :
    let bank : Bank := #[⟨.host, none⟩, ⟨.accelerator 0 64 0, some (.empty 2)⟩]
    let earlier : List Command := [.allocBlock "raw" 1 5, .newBuffer "lazy" 1 3 .single true,
      .cloneBuffer "clone" "lazy", .ensure "clone", .dropBuffer "lazy", .freeBlock "raw" 1]
    let commands := earlier ++ [.newBuffer "large" 1 16 .single false]
    let kept := (empty bank).after earlier
    let emptied := (empty bank).after commands
    Course (fun _ => 0) (empty bank) commands ∧
    (∃ a, kept.bank[1]? = some a ∧ a.pool.allocated? = some 20 ∧
      kept.reachable 1 (originsAfter (fun _ => 0) earlier) = 12 ∧ a.kept = 8) ∧
    (∃ a, emptied.bank[1]? = some a ∧ a.pool.allocated? = some 12 ∧
      emptied.reachable 1 (originsAfter (fun _ => 0) commands) = 12 ∧ a.kept = 0) ∧
    ((perform (.newBuffer "large" 1 14 .single false)).run.run emptied).1 =
      .error (.outOfMemory 56 52) ∧
    ∃ bank, ((perform (.newBuffer "large" 1 14 .single false)).run.run emptied).2 =
      { emptied with bank } := by
  intro bank earlier commands kept emptied
  have hbank : bank[1]? = some ⟨.accelerator 0 64 0, (some 2).map .empty⟩ := rfl
  have hfine : ∀ {result : Except DeviceError Reply}, result.toOption.isSome = true →
      ∀ e, result = .error e → e.isFault = false := by
    rintro _ h e rfl
    cases h
  have hrefused : ∀ {result : Except DeviceError Reply} {requested available : Nat},
      (match result with
        | .error e => decide (e = .outOfMemory requested available)
        | .ok _ => false) = true → result = .error (.outOfMemory requested available) := by
    intro result requested available h
    cases result with
    | ok reply => cases h
    | error e => rw [of_decide_eq_true h]
  have hearlier : Course (fun _ => 0) (empty bank) earlier := by
    refine ⟨rfl, hfine ?_, trivial, hfine ?_, trivial, hfine ?_, trivial, hfine ?_, trivial, hfine ?_,
      rfl, hfine ?_, trivial⟩
    iterate 6 decide +kernel
  have hcourse : Course (fun _ => 0) (empty bank) commands := by
    refine hearlier.append ⟨trivial, fun e he => ?_, trivial⟩
    have hlarge : e = .outOfMemory 64 44 :=
      Except.error.inj (he.symm.trans (hrefused (by decide +kernel)))
    rw [hlarge]
    rfl
  -- What the cache keeps is what the accounts leave for it.
  have hkept : ∀ {commands : List Command} {allocated reached : Nat},
      Course (fun _ => 0) (empty bank) commands →
      ((empty bank).after commands).bank[1]?.bind (·.pool.allocated?) = some allocated →
      ((empty bank).after commands).reachable 1 (originsAfter (fun _ => 0) commands) = reached →
      ∃ a, ((empty bank).after commands).bank[1]? = some a ∧ a.pool.allocated? = some allocated ∧
        ((empty bank).after commands).reachable 1 (originsAfter (fun _ => 0) commands) = reached ∧
        a.kept = allocated - reached := by
    intro commands allocated reached hcourse hallocated hreached
    obtain ⟨a, ha, haccounts, -⟩ := (memory_accounted hbank (fun _ => 0) hcourse).1
    rw [ha, Option.bind_some] at hallocated
    refine ⟨a, ha, hallocated, hreached, ?_⟩
    have hsum := Option.some.inj (haccounts.symm.trans hallocated)
    omega
  have hfinal : ((perform (.newBuffer "large" 1 14 .single false)).run.run emptied).1 =
      .error (.outOfMemory 56 52) := hrefused (by decide +kernel)
  refine ⟨hcourse, hkept hearlier ?_ ?_, hkept hcourse ?_ ?_, hfinal, ?_⟩
  iterate 4 decide +kernel
  exact (memory_accounted hbank (fun _ => 0) hcourse).2 _ trivial trivial 56 52 hfinal

end Inventory

end FieldCircuit
