import FieldCircuit.Proofs.Failing
import FieldCircuit.Proofs.Memory.Inventory

/-!
# Room for buffers

A device has less memory than the signed bound, and then the count of what it has handed out never leaves
the machine sizes. A buffer of a moderate size is granted by such a device, or refused for want of
memory. If one of several buffers cannot be had, those that came before it are given back.
-/

namespace FieldCircuit

theorem Pool.granted_not_fault {capacity live available size : Nat}
    (hsize : roundedBytes size < signedBound) :
    FailsOnly (·.isFault = false) (granted capacity live available size) :=
  .ite (fun _ => .error rfl) fun _ => .ite (fun hlarge => absurd hsize (Nat.not_lt.2 hlarge)) fun _ => .ok _

/-- With less memory than the signed bound, requests below that bound are refused for want of memory
only. -/
theorem Allocator.Accounts.alloc_not_fault {a : Allocator} {id capacity live size : Nat}
    (h : a.Accounts id capacity live) (hcapacity : capacity < signedBound)
    (hsize : Pool.roundedBytes size < signedBound) :
    FailsOnly (·.isFault = false) (a.alloc size).1 := by
  have hkey : a.key size = Pool.roundedBytes size := by rw [key, h.side]
  have hcount : live + a.kept + Pool.roundedBytes size < sizeBound := by
    have hdouble : sizeBound = signedBound + signedBound := by decide
    have hle := h.le
    omega
  fun_cases Allocator.alloc a size with
  | case1 hcache result pool heq =>
      rw [h.pool] at heq
      have hfst := Pool.alloc_fst id capacity hcount
      rw [heq] at hfst
      rw [show result = _ from hfst]
      exact Pool.granted_not_fault hsize
  | case2 cache hcache key hbound =>
      rw [show key = _ from hkey] at hbound
      omega
  | case3 cache hcache key hbound block rest hstack => exact .ok _
  | case4 cache hcache key hbound hstack =>
      rw [h.allocFresh_fst hcache hcount]
      exact Pool.granted_not_fault hsize

namespace Bank

variable {b : Books} {bank : Bank} {live : Nat}

theorem leads_alloc_not_fault (h : bank.Owes b live) (hcapacity : b.capacity < signedBound) (size : Nat) :
    Leads (alloc b.home size) bank (fun _ _ => True)
      fun e _ => Pool.roundedBytes size < signedBound → e.isFault = false := by
  obtain ⟨a, ha, haccounts⟩ := h
  unfold Leads
  rw [alloc_run, ha]
  refine ⟨fun _ _ _ => trivial, fun e bank' hrun hsize => ?_⟩
  exact haccounts.alloc_not_fault hcapacity hsize e (Prod.mk.inj hrun).1

/-- A new buffer of numbers adds to the live bytes. It is refused for want of memory if its bytes are
below the signed bound. -/
theorem leads_allocate_single (h : bank.Owes b live) (hcapacity : b.capacity < signedBound)
    (length : Nat) : Leads (Buffer.allocate b.home length .single) bank
      (fun buffer bank' => Owes b bank' (live + buffer.cost b.home))
      fun e bank' => (length * 4 < signedBound → e.isFault = false) ∧
        (e.isFault = false → Owes b bank' live) := by
  refine (leads_allocate h b.home length .single).and_fail ?_
  obtain ⟨a, ha, -⟩ := id h
  have hbytes : (BufferFormat.on a.side b.home length .single).bytes = length * 4 := by
    cases a.side <;> rfl
  have hrounded : Pool.roundedBytes (length * 4) = length * 4 := by simp [Pool.roundedBytes, ceilDiv]
  have hrun : (side b.home).run.run bank = (.ok a.side, bank) := by rw [side_run, ha]
  have hside : Leads (side b.home) bank (fun s bank' => s = a.side ∧ bank' = bank)
      fun e _ => length * 4 < signedBound → e.isFault = false := .of_ok hrun ⟨rfl, rfl⟩
  refine hside.bind ?_
  rintro _ bank' ⟨rfl, rfl⟩
  have hblock : Leads (BufferFormat.on a.side b.home length .single).block bank' (fun _ _ => True)
      fun e _ => length * 4 < signedBound → e.isFault = false := by
    refine .bind_lift (fun size hchecked => ?_) fun e he hsize => ?_
    · obtain rfl := (checked_eq_ok_iff.1 (mapError_eq_ok_iff.1 hchecked)).2
      rw [hbytes]
      exact (leads_alloc_not_fault h hcapacity (length * 4)).mono (fun _ _ _ => trivial)
        fun e _ he hsize => he (hrounded.trans_lt hsize)
    · rw [hbytes] at he
      have hfits : length * 4 < sizeBound := Nat.lt_trans hsize (by decide)
      rw [checked, if_pos hfits] at he
      cases he
  exact hblock.bind fun _ _ _ => .pure trivial

/-- Several buffers are had all, or none is left of those that were had. -/
theorem leads_allocateAll (h : bank.Owes b live) (hcapacity : b.capacity < signedBound)
    (lengths : List Nat) : Leads (all (Buffer.allocate b.home · .single) Buffer.release lengths) bank
      (fun buffers bank' => Owes b bank' (live + (buffers.map (Buffer.cost b.home)).sum))
      fun e bank' => ((∀ n ∈ lengths, n * 4 < signedBound) → e.isFault = false) ∧
        (e.isFault = false → Owes b bank' live) := by
  induction lengths generalizing bank live with
  | nil => exact .pure h
  | cons n lengths ih =>
      rw [all]
      refine .bind ((leads_allocate_single h hcapacity n).mono (fun _ _ h => h) ?_) ?_
      · exact fun e _ he => ⟨fun hsmall => he.1 (hsmall n List.mem_cons_self), he.2⟩
      intro buffer bank' howes
      refine .bind (.tryCatch (ih howes) ?_) fun buffers _ howes => .pure (howes.of_eq ?_)
      · rintro e _ ⟨he, howes⟩
        refine leads_giveUp (fun hsmall => he ?_) howes
        exact fun m hm => hsmall m (List.mem_cons_of_mem n hm)
      · rw [List.map_cons, List.sum_cons, Nat.add_assoc]

end Bank

end FieldCircuit
