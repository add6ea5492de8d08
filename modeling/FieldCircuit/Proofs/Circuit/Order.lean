import FieldCircuit.Circuit.Order
import FieldCircuit.Proofs.Circuit.Wiring
import Mathlib.Data.List.Perm.Basic
import Mathlib.Data.Nat.Find

/-!
# Dependency order

A wired circuit has an order that has every kernel once, and a kernel after those that drive its
inputs. The sweep that finds it delivers every register to every consumer once, so that the number of
inputs that a kernel still waits for is the number of those that have not been delivered to it; in
particular no more inputs arrive than a kernel waits for. As long as some kernel has not run, the first
such kernel waits for nothing, so that the sweep never comes to a halt.
-/

namespace FieldCircuit.Circuit

variable {σ : Type} {c : Circuit σ}

/-- The list has every kernel once, and each after the kernels that drive its inputs. -/
structure Topological (c : Circuit σ) (order : List KernelId) : Prop where
  nodup : order.Nodup
  complete : ∀ i, i ∈ order ↔ i < c.kernels.size
  sorted : ∀ earlier i later, order = earlier ++ i :: later → ∃ k : Kernel σ,
    c.kernels[i]? = some k ∧ ∀ r ∈ k.inputs, ∃ p ∈ earlier, c.producer? r = some p

theorem Topological.notMem_earlier {earlier later : List KernelId} {i : KernelId}
    (h : c.Topological (earlier ++ i :: later)) : i ∉ earlier := fun hi =>
  (List.nodup_append.1 h.nodup).2.2 i hi i (List.mem_cons_self ..) rfl

theorem Alike.topological {c' : Circuit σ} (h : c.Alike c') {order : List KernelId}
    (hc : c.Topological order) : c'.Topological order := by
  refine ⟨hc.nodup, fun i => h.size ▸ hc.complete i, fun earlier i later heq => ?_⟩
  obtain ⟨k, hk, hinputs⟩ := hc.sorted earlier i later heq
  obtain ⟨a, ha⟩ := h.kernels i k hk
  refine ⟨_, ha, fun r hr => ?_⟩
  obtain ⟨p, hp, hproducer⟩ := hinputs r hr
  exact ⟨p, hp, (h.producer? r).trans hproducer⟩

namespace Sweep

/-- The sweep is consistent, with `delivered` the registers that have reached their consumers. -/
structure Sound (c : Circuit σ) (delivered : List (RegisterId × KernelId)) (s : Sweep) :
    Prop where
  size : s.waiting.size = c.kernels.size
  waiting : ∀ (i : KernelId) k, c.kernels[i]? = some k →
    s.waiting[i]? = some (k.inputs.countP fun r => (r, i) ∉ delivered)
  produced : ∀ r i, (r, i) ∈ delivered → ∃ p ∈ s.done, c.producer? r = some p
  nodup : (s.ready ++ s.done).Nodup
  settled : ∀ i, i ∈ s.ready ++ s.done ↔ s.waiting[i]? = some 0
  sorted : ∀ later i earlier, s.done = later ++ i :: earlier → ∃ k : Kernel σ,
    c.kernels[i]? = some k ∧ ∀ r ∈ k.inputs, ∃ p ∈ earlier, c.producer? r = some p

def Complete (c : Circuit σ) (delivered : List (RegisterId × KernelId)) (s : Sweep) : Prop :=
  ∀ r p, c.producer? r = some p → p ∈ s.done → ∀ (i : KernelId) k, c.kernels[i]? = some k →
    r ∈ k.inputs → (r, i) ∈ delivered

variable {delivered : List (RegisterId × KernelId)} {s : Sweep}

theorem countP_delivered (inputs : List RegisterId) {r : RegisterId} {i : KernelId}
    (h : (r, i) ∉ delivered) :
    inputs.countP (fun x => (x, i) ∉ delivered) =
      inputs.countP (fun x => (x, i) ∉ (r, i) :: delivered) + inputs.count r := by
  induction inputs with
  | nil => rfl
  | cons x inputs ih =>
      rw [List.countP_cons, List.countP_cons, List.count_cons, ih]
      by_cases hx : x = r
      · subst hx
        simp [h]
        omega
      · have hne : (x == r) = false := beq_eq_false_iff_ne.2 hx
        simp only [List.mem_cons, Prod.mk.injEq, hx, false_and, false_or, hne]
        split
        · simp
          omega
        · simp

theorem countP_delivered_of_ne (inputs : List RegisterId) {r : RegisterId} {i j : KernelId}
    (h : j ≠ i) : inputs.countP (fun x => (x, j) ∉ (r, i) :: delivered) =
      inputs.countP (fun x => (x, j) ∉ delivered) := by
  simp [h]

/-- Delivering a register to a consumer that has not received it. -/
theorem Sound.deliver (h : s.Sound c delivered) {r : RegisterId} {i : KernelId}
    {k : Kernel σ} (hk : c.kernels[i]? = some k) (hr : r ∈ k.inputs)
    (hfresh : (r, i) ∉ delivered) (hproduced : ∃ p ∈ s.done, c.producer? r = some p) :
    ∃ s', s.deliver c r i = .ok s' ∧ s'.Sound c ((r, i) :: delivered) ∧ s'.done = s.done := by
  have hwaits := h.waiting i k hk
  rw [countP_delivered k.inputs hfresh] at hwaits
  generalize hrest : k.inputs.countP (fun x => (x, i) ∉ (r, i) :: delivered) = rest at hwaits
  have huses : 0 < k.inputs.count r := List.count_pos_iff.2 hr
  have hunsettled : i ∉ s.ready ++ s.done := by
    intro hmem
    have hzero := Option.some.inj (hwaits.symm.trans ((h.settled i).1 hmem))
    omega
  have hbound := (Array.getElem?_eq_some_iff.1 hwaits).1
  -- the consumer becomes ready if this was the last input that it waited for
  have hready : rest + k.inputs.count r = k.inputs.count r ↔ rest = 0 := by omega
  refine ⟨{ s with
    waiting := s.waiting.setIfInBounds i rest
    ready := if rest = 0 then s.ready ++ [i] else s.ready }, ?_, ⟨?_, ?_, ?_, ?_, ?_, h.sorted⟩, rfl⟩
  · simp only [Sweep.deliver, fetch_eq_ok_iff.2 hk, fetch_eq_ok_iff.2 hwaits, ok_bind,
      if_neg (Nat.not_lt.2 (Nat.le_add_left (k.inputs.count r) rest)), Nat.add_sub_cancel, hready]
    rfl
  · rw [Array.size_setIfInBounds, h.size]
  · intro j kj hj
    by_cases hij : j = i
    · subst hij
      obtain rfl : kj = k := Option.some.inj (hj.symm.trans hk)
      rw [Array.getElem?_setIfInBounds_self_of_lt hbound, hrest]
    · rw [Array.getElem?_setIfInBounds_ne fun heq => hij heq.symm, h.waiting j kj hj,
        countP_delivered_of_ne _ hij]
  · intro x j hmem
    rcases List.mem_cons.1 hmem with heq | hmem
    · rw [(Prod.mk.inj heq).1]
      exact hproduced
    · exact h.produced x j hmem
  · by_cases hzero : rest = 0
    · simp only [if_pos hzero]
      rw [List.append_assoc]
      exact List.perm_middle.nodup_iff.2 (List.nodup_cons.2 ⟨hunsettled, h.nodup⟩)
    · simp only [if_neg hzero]
      exact h.nodup
  · intro j
    by_cases hij : j = i
    · subst hij
      rw [Array.getElem?_setIfInBounds_self_of_lt hbound]
      by_cases hzero : rest = 0
      · simp [hzero]
      · rw [if_neg hzero, Option.some.injEq]
        exact ⟨fun hmem => absurd hmem hunsettled, fun heq => absurd heq hzero⟩
    · rw [Array.getElem?_setIfInBounds_ne fun heq => hij heq.symm, ← h.settled j]
      by_cases hzero : rest = 0
      · simp [hzero, hij]
      · simp only [if_neg hzero]

theorem Sound.foldlM_deliver {r : RegisterId} {consumers : List KernelId}
    (h : s.Sound c delivered) (hnodup : consumers.Nodup)
    (hreads : ∀ i ∈ consumers, ∃ k : Kernel σ, c.kernels[i]? = some k ∧ r ∈ k.inputs)
    (hfresh : ∀ i ∈ consumers, (r, i) ∉ delivered)
    (hproduced : ∃ p ∈ s.done, c.producer? r = some p) :
    ∃ s' delivered', consumers.foldlM (Sweep.deliver c r) s = .ok s' ∧ s'.Sound c delivered' ∧
      s'.done = s.done ∧
      ∀ x i, (x, i) ∈ delivered' ↔ (x, i) ∈ delivered ∨ x = r ∧ i ∈ consumers := by
  induction consumers generalizing s delivered with
  | nil => exact ⟨s, delivered, rfl, h, rfl, fun x i => by simp⟩
  | cons i consumers ih =>
      obtain ⟨k, hk, hr⟩ := hreads i (List.mem_cons_self ..)
      obtain ⟨hi, hnodup⟩ := List.nodup_cons.1 hnodup
      obtain ⟨s₁, hdeliver, h₁, hdone⟩ :=
        h.deliver hk hr (hfresh i (List.mem_cons_self ..)) hproduced
      obtain ⟨s', delivered', hrest, h', hdone', hmem⟩ := ih h₁ hnodup
        (fun j hj => hreads j (List.mem_cons_of_mem _ hj))
        (fun j hj hin => by
          rcases List.mem_cons.1 hin with heq | hin
          · exact hi ((Prod.mk.inj heq).2 ▸ hj)
          · exact hfresh j (List.mem_cons_of_mem _ hj) hin)
        (hdone ▸ hproduced)
      refine ⟨s', delivered', ?_, h', hdone'.trans hdone, fun x j => ?_⟩
      · rw [List.foldlM_cons, hdeliver, ok_bind, hrest]
      · rw [hmem x j, List.mem_cons, List.mem_cons, Prod.mk.injEq]
        tauto

theorem Sound.foldlM_deliverAll (hc : c.Wired) {registers : List RegisterId}
    (h : s.Sound c delivered) (hnodup : registers.Nodup)
    (hfresh : ∀ r ∈ registers, ∀ i, (r, i) ∉ delivered)
    (hproduced : ∀ r ∈ registers, ∃ p ∈ s.done, c.producer? r = some p) :
    ∃ s' delivered', registers.foldlM (Sweep.deliverAll c) s = .ok s' ∧ s'.Sound c delivered' ∧
      s'.done = s.done ∧ (∀ d ∈ delivered, d ∈ delivered') ∧
      ∀ r ∈ registers, ∀ (i : KernelId) k, c.kernels[i]? = some k → r ∈ k.inputs →
        (r, i) ∈ delivered' := by
  induction registers generalizing s delivered with
  | nil => exact ⟨s, delivered, rfl, h, rfl, fun _ hd => hd, fun r hr => (by cases hr)⟩
  | cons r registers ih =>
      obtain ⟨hr, hnodup⟩ := List.nodup_cons.1 hnodup
      obtain ⟨p, hp, hproducer⟩ := hproduced r (List.mem_cons_self ..)
      obtain ⟨w, hw, -⟩ := Option.map_eq_some_iff.1 hproducer
      obtain ⟨s₁, delivered₁, hdeliver, h₁, hdone, hmem⟩ := h.foldlM_deliver (hc.nodup r w hw)
        (fun i hi => (hc.consumers r w hw i).1 hi) (fun i _ => hfresh r (List.mem_cons_self ..) i)
        ⟨p, hp, hproducer⟩
      obtain ⟨s', delivered', hrest, h', hdone', hold, hall⟩ := ih h₁ hnodup
        (fun x hx i hin => by
          rcases (hmem x i).1 hin with hin | ⟨rfl, -⟩
          · exact hfresh x (List.mem_cons_of_mem _ hx) i hin
          · exact hr hx)
        (fun x hx => hdone ▸ hproduced x (List.mem_cons_of_mem _ hx))
      refine ⟨s', delivered', ?_, h', hdone'.trans hdone, ?_, ?_⟩
      · rw [List.foldlM_cons, Sweep.deliverAll, fetch_eq_ok_iff.2 hw, ok_bind, hdeliver, ok_bind,
          hrest]
      · rintro ⟨x, i⟩ hd
        exact hold _ ((hmem x i).2 (.inl hd))
      · intro x hx i k hk hin
        rcases List.mem_cons.1 hx with rfl | hx
        · exact hold _ ((hmem x i).2 (.inr ⟨rfl, (hc.consumers x w hw i).2 ⟨k, hk, hin⟩⟩))
        · exact hall x hx i k hk hin

/-- A kernel that waits for nothing comes after those that drive its inputs, and when it has run its
outputs have reached their consumers. -/
theorem Sound.advance (hc : c.Wired) (h : s.Sound c delivered) (hcomplete : s.Complete c delivered) :
    ∃ s' delivered', s.advance c = .ok s' ∧ s'.Sound c delivered' ∧ s'.Complete c delivered' ∧
      s'.done = s.ready.head?.toList ++ s.done := by
  cases hready : s.ready with
  | nil => exact ⟨s, delivered, by rw [Sweep.advance, hready], h, hcomplete, rfl⟩
  | cons i ready =>
      have hnodup := h.nodup
      rw [hready] at hnodup
      have hi : i ∉ s.done := fun hin =>
        (List.nodup_cons.1 hnodup).1 (List.mem_append_right _ hin)
      have hzero := (h.settled i).1 (by simp [hready])
      have hlt : i < c.kernels.size := h.size ▸ (Array.getElem?_eq_some_iff.1 hzero).1
      have hk : c.kernels[i]? = some c.kernels[i] := Array.getElem?_eq_getElem hlt
      generalize c.kernels[i] = k at hk
      have hinputs : ∀ r ∈ k.inputs, ∃ p ∈ s.done, c.producer? r = some p := by
        intro r hr
        have hcount := Option.some.inj ((h.waiting i k hk).symm.trans hzero)
        exact h.produced r i (by simpa using List.countP_eq_zero.1 hcount r hr)
      have hpopped : Sound c delivered { s with ready, done := i :: s.done } := by
        refine ⟨h.size, h.waiting, ?_, ?_, ?_, ?_⟩
        · intro r j hin
          obtain ⟨p, hp, hproducer⟩ := h.produced r j hin
          exact ⟨p, List.mem_cons_of_mem _ hp, hproducer⟩
        · exact List.perm_middle.nodup_iff.2 hnodup
        · intro j
          rw [← h.settled j, hready]
          exact List.perm_middle.mem_iff
        · intro later j earlier heq
          cases later with
          | nil =>
              obtain ⟨rfl, rfl⟩ := List.cons.inj heq
              exact ⟨k, hk, hinputs⟩
          | cons x later => exact h.sorted later j earlier (List.cons.inj heq).2
      obtain ⟨s', delivered', hdeliver, h', hdone, hold, hall⟩ :=
        hpopped.foldlM_deliverAll hc (hc.once i k hk)
        (fun r hr j hin => by
          obtain ⟨p, hp, hproducer⟩ := h.produced r j hin
          rw [hc.drives i k hk r hr] at hproducer
          exact hi (Option.some.inj hproducer ▸ hp))
        (fun r hr => ⟨i, List.mem_cons_self .., hc.drives i k hk r hr⟩)
      refine ⟨s', delivered', ?_, h', ?_, hdone⟩
      · simp only [Sweep.advance, hready, fetch_eq_ok_iff.2 hk, ok_bind, hdeliver]
      · intro r p hproducer hp j kj hj hr
        rw [hdone] at hp
        rcases List.mem_cons.1 hp with rfl | hp
        · obtain ⟨k', hk', hout⟩ := hc.driven r p hproducer
          obtain rfl : k' = k := Option.some.inj (hk'.symm.trans hk)
          exact hall r hout j kj hj hr
        · exact hold _ (hcomplete r p hproducer hp j kj hj hr)

/-- As long as some kernel has not run there is one that is ready: the first that has not run reads
outputs of earlier kernels only. -/
theorem Sound.ready_ne_nil (hc : c.Wired) (h : s.Sound c delivered)
    (hcomplete : s.Complete c delivered) (hrest : ∃ i < c.kernels.size, i ∉ s.done) :
    s.ready ≠ [] := by
  intro hnil
  obtain ⟨hlt, hi⟩ := Nat.find_spec hrest
  generalize hfirst : Nat.find hrest = i at hlt hi
  have hearlier : ∀ p < i, p ∈ s.done := by
    intro p hp
    by_contra hin
    exact Nat.find_min hrest (hfirst ▸ hp) ⟨Nat.lt_trans hp hlt, hin⟩
  have hk : c.kernels[i]? = some c.kernels[i] := Array.getElem?_eq_getElem hlt
  have hcount : c.kernels[i].inputs.countP (fun r => (r, i) ∉ delivered) = 0 := by
    rw [List.countP_eq_zero]
    intro r hr
    obtain ⟨p, hp, hproducer⟩ := hc.earlier i _ hk r hr
    simpa using hcomplete r p hproducer (hearlier p hp) i _ hk hr
  have hsettled := (h.settled i).2 (by rw [h.waiting i _ hk, hcount])
  rw [hnil, List.nil_append] at hsettled
  exact hi hsettled

theorem Sound.length_le (h : s.Sound c delivered) :
    s.ready.length + s.done.length ≤ c.kernels.size := by
  have hsub : s.ready ++ s.done ⊆ List.range c.kernels.size := by
    intro i hi
    have hzero := (h.settled i).1 hi
    exact List.mem_range.2 (h.size ▸ (Array.getElem?_eq_some_iff.1 hzero).1)
  simpa using (List.subperm_of_subset h.nodup hsub).length_le

/-- Every step runs one more kernel, until all have run. -/
theorem Sound.run (hc : c.Wired) (n : Nat) (h : s.Sound c delivered)
    (hcomplete : s.Complete c delivered) :
    ∃ s' delivered', Sweep.run c n s = .ok s' ∧ s'.Sound c delivered' ∧
      min (s.done.length + n) c.kernels.size ≤ s'.done.length := by
  induction n generalizing s delivered with
  | zero => exact ⟨s, delivered, rfl, h, Nat.min_le_left _ _⟩
  | succ n ih =>
      obtain ⟨s₁, delivered₁, hadvance, h₁, hcomplete₁, hdone⟩ := h.advance hc hcomplete
      obtain ⟨s', delivered', hrun, h', hlength⟩ := ih h₁ hcomplete₁
      refine ⟨s', delivered', by rw [Sweep.run, hadvance, ok_bind, hrun], h', ?_⟩
      by_cases hall : ∃ i < c.kernels.size, i ∉ s.done
      · obtain ⟨i, ready, hready⟩ := List.exists_cons_of_ne_nil (h.ready_ne_nil hc hcomplete hall)
        rw [hready] at hdone
        have hgrown : s₁.done.length = s.done.length + 1 := by simp [hdone]
        omega
      · have hfull : c.kernels.size ≤ s.done.length := by
          have hsub : List.range c.kernels.size ⊆ s.done := by
            intro i hi
            by_contra hin
            exact hall ⟨i, List.mem_range.1 hi, hin⟩
          simpa using (List.subperm_of_subset List.nodup_range hsub).length_le
        have hkept : s.done.length ≤ s₁.done.length := by simp [hdone]
        omega

theorem sound_start (hc : c.Wired) : (Sweep.start c).Sound c [] := by
  have hids : c.kernels.toList.map (·.id) = List.range c.kernels.size := by
    apply List.ext_getElem (by simp)
    intro i hi _
    have hlt : i < c.kernels.size := by simpa using hi
    simp [hc.id i _ (Array.getElem?_eq_getElem hlt)]
  have hnodup : (Sweep.start c).ready.Nodup := by
    have hall : (c.kernels.toList.map (·.id)).Nodup := hids ▸ List.nodup_range
    exact hall.sublist (List.Sublist.map _ List.filter_sublist)
  have hdone : (Sweep.start c).done = [] := rfl
  refine ⟨Array.size_map .., fun i k hk => ?_, fun r i hin => (by cases hin), ?_, fun i => ?_, ?_⟩
  · simp [Sweep.start, hk]
  · rw [hdone, List.append_nil]
    exact hnodup
  · rw [hdone, List.append_nil]
    constructor
    · intro hi
      obtain ⟨k, hk, rfl⟩ := List.mem_map.1 hi
      obtain ⟨hmem, hempty⟩ := List.mem_filter.1 hk
      obtain ⟨j, hj⟩ := List.getElem?_of_mem hmem
      rw [Array.getElem?_toList] at hj
      rw [hc.id j k hj]
      simp [Sweep.start, hj, List.isEmpty_iff.1 hempty]
    · intro hzero
      simp only [Sweep.start, Array.getElem?_map, Option.map_eq_some_iff] at hzero
      obtain ⟨k, hk, hlength⟩ := hzero
      refine List.mem_map.2 ⟨k, List.mem_filter.2 ⟨?_, ?_⟩, hc.id i k hk⟩
      · exact Array.mem_toList_iff.2 (Array.mem_of_getElem? hk)
      · exact List.isEmpty_iff.2 (List.length_eq_zero_iff.1 hlength)
  · intro later i earlier heq
    cases later <;> cases heq

end Sweep

theorem Sweep.run_eq_self {s : Sweep} (h : s.ready = []) (n : Nat) : Sweep.run c n s = .ok s := by
  induction n with
  | zero => rfl
  | succ n ih => rw [Sweep.run, Sweep.advance, h, ok_bind, ih]

theorem Sweep.run_add (m n : Nat) (s : Sweep) :
    Sweep.run c (m + n) s = Sweep.run c m s >>= Sweep.run c n := by
  induction m generalizing s with
  | zero => rw [Nat.zero_add, Sweep.run, ok_bind]
  | succ m ih =>
      rw [Nat.succ_add, Sweep.run, Sweep.run, bind_assoc]
      exact congrArg _ (funext ih)

/-- After as many steps as there are kernels all have run. -/
theorem Wired.exists_swept (hc : c.Wired) : ∃ s delivered,
    Sweep.run c c.kernels.size (Sweep.start c) = .ok s ∧ s.Sound c delivered ∧
      s.done.length = c.kernels.size := by
  have hstart : (Sweep.start c).Complete c [] := fun _ _ _ hdone => (by cases hdone)
  obtain ⟨s, delivered, hrun, hs, hlength⟩ :=
    (Sweep.sound_start hc).run hc c.kernels.size hstart
  refine ⟨s, delivered, hrun, hs, ?_⟩
  have hle := hs.length_le
  omega

/-- The search for an order ends because no kernel is ready any more, and not because its steps are used
up: after these steps nothing is left to run, and with any number of further steps it ends the same. -/
theorem Wired.ready_eq_nil (hc : c.Wired) {n : Nat} (hn : c.kernels.size ≤ n) {s : Sweep}
    (hrun : Sweep.run c n (Sweep.start c) = .ok s) :
    s.ready = [] ∧ Sweep.run c c.kernels.size (Sweep.start c) = .ok s := by
  obtain ⟨s', delivered, hswept, hs, hfull⟩ := hc.exists_swept
  have hready : s'.ready = [] := by
    have hle := hs.length_le
    exact List.length_eq_zero_iff.1 (by omega)
  obtain ⟨rest, rfl⟩ := Nat.exists_eq_add_of_le hn
  rw [Sweep.run_add, hswept, ok_bind, Sweep.run_eq_self hready] at hrun
  obtain rfl := Except.ok.inj hrun
  exact ⟨hready, hswept⟩

/-- A wired circuit has an order. -/
theorem Wired.exists_order (hc : c.Wired) : ∃ order, c.order = .ok order ∧ c.Topological order := by
  obtain ⟨s, delivered, hrun, hs, hfull⟩ := hc.exists_swept
  have hnodup : s.done.Nodup := (List.nodup_append.1 hs.nodup).2.1
  have hlt : ∀ i ∈ s.done, i < c.kernels.size := by
    intro i hi
    have hwaiting := (hs.settled i).1 (List.mem_append_right _ hi)
    exact hs.size ▸ (Array.getElem?_eq_some_iff.1 hwaiting).1
  have hperm : s.done.Perm (List.range c.kernels.size) := by
    refine (List.subperm_of_subset hnodup fun i hi => ?_).perm_of_length_le ?_
    · exact List.mem_range.2 (hlt i hi)
    · rw [List.length_range, hfull]
  refine ⟨s.done.reverse, ?_, List.nodup_reverse.2 hnodup, fun i => ?_, fun earlier i later heq => ?_⟩
  · rw [order, liftCircuit_eq_ok_iff.2 hrun, ok_bind, hfull, Nat.sub_self, if_neg (not_not.2 rfl)]
    rfl
  · rw [List.mem_reverse, hperm.mem_iff, List.mem_range]
  · have hdone : s.done = later.reverse ++ i :: earlier.reverse := by
      rw [← List.reverse_reverse s.done, heq]
      simp
    obtain ⟨k, hk, hinputs⟩ := hs.sorted _ i _ hdone
    refine ⟨k, hk, fun r hr => ?_⟩
    obtain ⟨p, hp, hproducer⟩ := hinputs r hr
    exact ⟨p, List.mem_reverse.1 hp, hproducer⟩

theorem Topological.perm {order : List KernelId} (h : c.Topological order) :
    order.Perm (List.range c.kernels.size) :=
  (List.perm_ext_iff_of_nodup h.nodup List.nodup_range).2 fun i => by
    rw [h.complete, List.mem_range]

structure Addition (σ : Type) where
  opcode : Opcode
  inputs : List RegisterId
  outputs : List (String × FieldType)
  action : σ

/-- The circuit after a request, which stays as it is if the request is refused. -/
def Addition.apply (c : Circuit σ) (a : Addition σ) : Circuit σ :=
  match c.addKernel a.opcode a.inputs a.outputs a.action with
  | .ok (_, c') => c'
  | .error _ => c

def grown (additions : List (Addition σ)) : Circuit σ := additions.foldl Addition.apply empty

theorem Wired.apply (h : c.Wired) (a : Addition σ) : (a.apply c).Wired := by
  unfold Addition.apply
  split
  · rename_i hadd
    exact h.addKernel hadd
  · exact h

theorem wired_grown (additions : List (Addition σ)) : (grown additions).Wired :=
  List.foldlRecOn additions _ wired_empty fun _ h a _ => h.apply a

/-- Every circuit that is made of kernels, whatever they read and drive and with some requests refused,
is well-formed and has a dependency order. Kernels and registers stand at their numbers. A register has
one producer, which has it once among its outputs, and lists the kernels that read it, each once. The
recurrences are the outputs of the kernels of that kind. The sweep never faults, so that no kernel
receives more inputs than it waits for; it ends with an order that has every kernel once, and each
after the producers of all its inputs. -/
theorem grown_has_order (additions : List (Addition σ)) :
    let c := grown additions
    (∀ (i : KernelId) k, c.kernels[i]? = some k → k.id = i) ∧
      (∀ (r : RegisterId) w, c.registers[r]? = some w → w.id = r ∧
        (∃ k, c.kernels[w.producer]? = some k ∧ k.outputs.count r = 1) ∧
        (∀ (i : KernelId) k, c.kernels[i]? = some k → r ∈ k.outputs → i = w.producer) ∧
        w.consumers.Nodup ∧ ∀ i, i ∈ w.consumers ↔ ∃ k, c.kernels[i]? = some k ∧ r ∈ k.inputs) ∧
      (c.recurrences.map Binding.register).Nodup ∧
      (∀ r, r ∈ c.recurrences.map Binding.register ↔ ∃ (i : KernelId) (k : Kernel σ),
        c.kernels[i]? = some k ∧ r ∈ k.outputs ∧ k.kind = .recurrence) ∧
      (∀ n, ∃ s, Sweep.run c n (Sweep.start c) = .ok s) ∧
      ∃ order, c.order = .ok order ∧ order.Perm (List.range c.kernels.size) ∧
        ∀ earlier i later, order = earlier ++ i :: later → ∃ k, c.kernels[i]? = some k ∧
          ∀ r ∈ k.inputs, ∃ w, c.registers[r]? = some w ∧ w.producer ∈ earlier := by
  intro c
  have hc : c.Wired := wired_grown additions
  refine ⟨hc.id, fun r w hw => ⟨hc.wireId r w hw, ?_, ?_, hc.nodup r w hw, hc.consumers r w hw⟩,
    hc.distinct, hc.recurrences, fun n => ?_, ?_⟩
  · have hproducer : c.producer? r = some w.producer := by rw [producer?, hw, Option.map_some]
    obtain ⟨k, hk, hout⟩ := hc.driven r _ hproducer
    exact ⟨k, hk, List.count_eq_one_of_mem (hc.once _ k hk) hout⟩
  · intro i k hk hout
    have hproducer := hc.drives i k hk r hout
    rw [producer?, hw, Option.map_some] at hproducer
    exact (Option.some.inj hproducer).symm
  · obtain ⟨s, -, hrun, -⟩ := (Sweep.sound_start hc).run hc n fun _ _ _ hdone => by cases hdone
    exact ⟨s, hrun⟩
  · obtain ⟨order, horder, htopological⟩ := hc.exists_order
    refine ⟨order, horder, htopological.perm, fun earlier i later heq => ?_⟩
    obtain ⟨k, hk, hinputs⟩ := htopological.sorted earlier i later heq
    refine ⟨k, hk, fun r hr => ?_⟩
    obtain ⟨p, hp, hproducer⟩ := hinputs r hr
    obtain ⟨w, hw, rfl⟩ := Option.map_eq_some_iff.1 hproducer
    exact ⟨w, hw, hp⟩

end FieldCircuit.Circuit
