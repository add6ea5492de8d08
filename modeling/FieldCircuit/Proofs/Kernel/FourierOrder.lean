import FieldCircuit.Proofs.Kernel.FourierStages
import FieldCircuit.Proofs.Launch.Visits

/-!
# Order of the butterflies

The work items of a pass run in no particular order, and a device rounds the launch to its own group
sizes. Neither matters: the items inside the box read one buffer and write another, and every word of
both planes is written by exactly one of them. What a pass leaves is therefore the same, bit by bit,
for any order of its items and on any device.
-/

namespace FieldCircuit

namespace FourierPass

variable {α : Type} {f : FourierPass}

def items (f : FourierPass) : List Axes := (Axes.mk (f.n / 2) f.lines 1).positions

theorem mem_items {id : Axes} :
    id ∈ f.items ↔ id.x < f.n / 2 ∧ id.y < f.lines ∧ id.z < 1 := Axes.mem_positions

def reads (f : FourierPass) (id : Axes) : List Nat :=
  [f.sampleIndex id.y id.x, f.part + f.sampleIndex id.y id.x,
    f.sampleIndex id.y (id.x + f.n / 2), f.part + f.sampleIndex id.y (id.x + f.n / 2)]

def writes (f : FourierPass) (id : Axes) : List Nat :=
  [f.sampleIndex id.y (f.target id.x), f.part + f.sampleIndex id.y (f.target id.x),
    f.sampleIndex id.y (f.target id.x + f.span), f.part + f.sampleIndex id.y (f.target id.x + f.span)]

/-- A launch whose items run in some order: each stores what its butterfly computes at once. -/
def runItems (ar : Arithmetic α) (f : FourierPass) (source : Array α) (order : List Axes)
    (output : Array α) : Except Fault (Array α) :=
  order.foldlM (fun output id => do
    storeAll output (← f.butterfly ar (twiddles ar f.direction f.n) source id.y id.x)) output

theorem fetch_succeeds_iff {a : Array α} {i : Nat} : (∃ x, fetch a i = .ok x) ↔ i < a.size := by
  simp only [fetch_eq_ok_iff, Array.getElem?_eq_some_iff]
  exact ⟨fun ⟨x, hi, _⟩ => hi, fun hi => ⟨_, hi, rfl⟩⟩

/-- A butterfly reads these words and no others: it succeeds exactly if they are there, together with
its twiddle factor. -/
theorem butterfly_succeeds_iff (ar : Arithmetic α) (f : FourierPass) (table : Array (α × α))
    (source : Array α) (id : Axes) :
    (∃ stores, f.butterfly ar table source id.y id.x = .ok stores) ↔
      (∀ k ∈ f.reads id, k < source.size) ∧ f.twiddleIndex id.x < table.size := by
  simp only [reads, List.forall_mem_cons, List.not_mem_nil, false_implies, forall_const, and_true,
    ← fetch_succeeds_iff]
  constructor
  · rintro ⟨stores, h⟩
    obtain ⟨_, hfirst, h⟩ := bind_eq_ok_iff.1 h
    obtain ⟨_, hsecond, h⟩ := bind_eq_ok_iff.1 h
    obtain ⟨_, htwiddle, -⟩ := bind_eq_ok_iff.1 h
    obtain ⟨_, h₁, hfirst⟩ := bind_eq_ok_iff.1 hfirst
    obtain ⟨_, h₂, -⟩ := bind_eq_ok_iff.1 hfirst
    obtain ⟨_, h₃, hsecond⟩ := bind_eq_ok_iff.1 hsecond
    obtain ⟨_, h₄, -⟩ := bind_eq_ok_iff.1 hsecond
    exact ⟨⟨⟨_, h₁⟩, ⟨_, h₂⟩, ⟨_, h₃⟩, ⟨_, h₄⟩⟩, ⟨_, htwiddle⟩⟩
  · rintro ⟨⟨⟨_, h₁⟩, ⟨_, h₂⟩, ⟨_, h₃⟩, ⟨_, h₄⟩⟩, ⟨_, htwiddle⟩⟩
    simp only [butterfly, sample, h₁, h₂, h₃, h₄, htwiddle, ok_bind, pure_bind]
    exact ⟨_, rfl⟩

theorem map_fst_itemStores (ar : Arithmetic α) (f : FourierPass) (a : Array α) (id : Axes) :
    (itemStores ar f a id).map Prod.fst = f.writes id := rfl

theorem map_fst_flatMap_itemStores (ar : Arithmetic α) (f : FourierPass) (a : Array α)
    (items : List Axes) :
    (items.flatMap (itemStores ar f a)).map Prod.fst = items.flatMap f.writes := by
  rw [List.map_flatMap]
  rfl

namespace Regular

variable {id id' : Axes} {k : Nat}

theorem reads_lt (h : f.Regular) (hx : id.x < f.n / 2) (hy : id.y < f.lines) :
    ∀ k ∈ f.reads id, k < 2 * f.part := by
  have hhalf := h.two_mul_half
  have hfirst := h.inside id.y id.x hy (by omega)
  have hsecond := h.inside id.y (id.x + f.n / 2) hy (by omega)
  simp only [reads, List.forall_mem_cons, List.not_mem_nil, false_implies, forall_const, and_true]
  omega

theorem sample_of_mem_writes (h : f.Regular) (hx : id.x < f.n / 2) (hk : k ∈ f.writes id) :
    ∃ i < f.n, f.butterflyOf i = id.x ∧
      (k = f.sampleIndex id.y i ∨ k = f.part + f.sampleIndex id.y i) := by
  have hlt := h.target_lt hx
  have hsum := (h.butterflyOf_target id.x).1
  have hdifference := (h.butterflyOf_target_add id.x).1
  simp only [writes, List.mem_cons, List.not_mem_nil, or_false] at hk
  rcases hk with hk | hk | hk | hk
  · exact ⟨_, by omega, hsum, .inl hk⟩
  · exact ⟨_, by omega, hsum, .inr hk⟩
  · exact ⟨_, hlt, hdifference, .inl hk⟩
  · exact ⟨_, hlt, hdifference, .inr hk⟩

theorem item_of_mem_writes (h : f.Regular) (hx : id.x < f.n / 2) (hy : id.y < f.lines)
    (hx' : id'.x < f.n / 2) (hy' : id'.y < f.lines) (hk : k ∈ f.writes id) (hk' : k ∈ f.writes id') :
    id.x = id'.x ∧ id.y = id'.y := by
  obtain ⟨i, hi, hitem, hk⟩ := h.sample_of_mem_writes hx hk
  obtain ⟨i', hi', hitem', hk'⟩ := h.sample_of_mem_writes hx' hk'
  have hin := h.inside id.y i hy hi
  have hin' := h.inside id'.y i' hy' hi'
  obtain ⟨hline, rfl⟩ := h.apart id.y i id'.y i' hy hi hy' hi' (by omega)
  exact ⟨hitem.symm.trans hitem', hline⟩

theorem nodup_writes (h : f.Regular) (hx : id.x < f.n / 2) (hy : id.y < f.lines) :
    (f.writes id).Nodup := by
  have hlt := h.target_lt hx
  have hspan := h.span_pos
  have hfirst := h.inside id.y (f.target id.x) hy (by omega)
  have hsecond := h.inside id.y (f.target id.x + f.span) hy hlt
  have hne : f.sampleIndex id.y (f.target id.x) ≠ f.sampleIndex id.y (f.target id.x + f.span) := by
    intro heq
    have := (h.apart _ _ _ _ hy (by omega) hy hlt heq).2
    omega
  simp only [writes, List.nodup_cons, List.mem_cons, List.not_mem_nil, or_false, not_or,
    List.nodup_nil, not_false_eq_true, and_true]
  omega

theorem nodup_items_writes (h : f.Regular) : (f.items.flatMap f.writes).Nodup := by
  refine List.nodup_flatMap.2 ⟨fun id hid => ?_, (Axes.nodup_positions _).imp_of_mem ?_⟩
  · obtain ⟨hx, hy, -⟩ := mem_items.1 hid
    exact h.nodup_writes hx hy
  · intro id id' hid hid' hne k hk hk'
    obtain ⟨hx, hy, hz⟩ := mem_items.1 hid
    obtain ⟨hx', hy', hz'⟩ := mem_items.1 hid'
    obtain ⟨heqx, heqy⟩ := h.item_of_mem_writes hx hy hx' hy' hk hk'
    obtain ⟨x, y, z⟩ := id
    obtain ⟨x', y', z'⟩ := id'
    exact hne (by simp only [Axes.mk.injEq] at *; omega)

variable {caps : Capabilities} {w : WorkGroup}

theorem activeItems_perm (h : f.Regular)
    (hw : WorkGroup.covering [f.n / 2, f.lines] caps = .ok w) : w.activeItems.Perm f.items := by
  have hperm := WorkGroup.activeItems_perm hw
  rwa [h.padded_eq] at hperm

theorem writes_perm (h : f.Regular) (hw : WorkGroup.covering [f.n / 2, f.lines] caps = .ok w) :
    (w.activeItems.flatMap f.writes).Perm (List.range (2 * f.part)) := by
  have hnodup : (w.activeItems.flatMap f.writes).Nodup :=
    ((h.activeItems_perm hw).flatMap_right f.writes).nodup_iff.2 h.nodup_items_writes
  refine (List.perm_ext_iff_of_nodup hnodup List.nodup_range).2 fun k => ?_
  have hfills := fills h hw .single #[]
  rw [← map_fst_flatMap_itemStores .single f #[], List.mem_map, List.mem_range]
  constructor
  · rintro ⟨s, hs, rfl⟩
    exact hfills.inside s hs
  · exact hfills.covers k

variable {ar : Arithmetic α} {source output : Array α} {order : List Axes}

theorem runItems_eq_ok (h : f.Regular) (hsource : source.size = 2 * f.part)
    (houtput : output.size = 2 * f.part) (horder : order ⊆ f.items) :
    runItems ar f source order output =
      .ok (stored output (order.flatMap (itemStores ar f source))) := by
  have hrun := (foldlM_eq_ok (p := fun a : Array α => a.size = 2 * f.part)
    (f := fun output id => do
      storeAll output (← f.butterfly ar (twiddles ar f.direction f.n) source id.y id.x))
    (g := fun a id => stored a (itemStores ar f source id)) (l := order) houtput (by
      intro a id hid ha
      obtain ⟨hx, hy, -⟩ := mem_items.1 (horder hid)
      have hinside : ∀ s ∈ itemStores ar f source id, s.1 < a.size := by
        intro s hs
        have hk : s.1 ∈ f.writes id := map_fst_itemStores ar f source id ▸ List.mem_map_of_mem hs
        obtain ⟨i, hi, -, hk⟩ := h.sample_of_mem_writes hx hk
        have hin := h.inside id.y i hy hi
        omega
      rw [butterfly_eq_ok h ar hsource hy hx, ok_bind]
      exact ⟨storeAll_eq_ok hinside, by rw [size_stored, ha]⟩)).1
  rw [runItems, hrun]
  simp only [stored, List.foldl_flatMap]

/-- The order in which the items of a pass run does not matter. -/
theorem runItems_perm (h : f.Regular) (hsource : source.size = 2 * f.part)
    (houtput : output.size = 2 * f.part) (horder : order.Perm f.items) :
    runItems ar f source order output =
      .ok (stored output (f.items.flatMap (itemStores ar f source))) := by
  have hdistinct : ((order.flatMap (itemStores ar f source)).map Prod.fst).Nodup := by
    rw [map_fst_flatMap_itemStores]
    exact (horder.flatMap_right f.writes).nodup_iff.2 h.nodup_items_writes
  rw [h.runItems_eq_ok hsource houtput horder.subset, stored_perm (horder.flatMap_right _) hdistinct]

/-- A launch runs the items inside its box in the order of their positions. -/
theorem run_eq_runItems (h : f.Regular) (hw : WorkGroup.covering [f.n / 2, f.lines] caps = .ok w)
    (hsource : source.size = 2 * f.part) (houtput : output.size = 2 * f.part) :
    (Program.fourier f).run ar w [source] output = runItems ar f source w.activeItems output := by
  have hstores : (Program.fourier f).stores ar w [source] = .ok (launchStores ar f w source) :=
    stores_eq_ok h hw ar hsource
  rw [Program.run, hstores, ok_bind, (fills h hw ar source).storeAll_eq_ok houtput,
    h.runItems_eq_ok hsource houtput (h.activeItems_perm hw).subset]
  rfl

end Regular

end FourierPass

open FourierPass Synthesis.Fourier in
/-- The passes of a transform may run in any order of their work items. Pass `p` of a type that can be
transformed is stage `p` of every operation that is synthesized for it. On any device, the work items
inside the box of its launch read words of the source and a twiddle factor of the table, and together
they write every word of both planes of the destination once. What the stage leaves does therefore not
depend on the order of the items, nor on the device. -/
theorem fft_passes_any_order {inputs : List FieldType} {t : FieldType}
    (ht : outputType inputs = .ok t) (direction : Direction) {p : Nat} {f : FourierPass}
    (hf : (plan t direction)[p]? = some f) :
    (t.words < sizeBound →
      ∀ caps, ∃ op, Synthesis.synthesize (.fft direction) inputs caps = .ok op) ∧
    (∀ caps op, Synthesis.synthesize (.fft direction) inputs caps = .ok op →
      ∃ s, op.stages[p]? = some s ∧ s.program = .fourier f ∧
        WorkGroup.covering [f.n / 2, f.lines] caps = .ok s.workgroup) ∧
    (∀ caps w, WorkGroup.covering [f.n / 2, f.lines] caps = .ok w →
      (∀ id ∈ w.activeItems, f.twiddleIndex id.x < f.n / 2 ∧ (∀ k ∈ f.reads id, k < t.words) ∧
        ∀ {α : Type} (ar : Arithmetic α) (source : Array α), source.size = t.words →
          ∃ stores, f.butterfly ar (twiddles ar f.direction f.n) source id.y id.x = .ok stores ∧
            stores.map Prod.fst = f.writes id) ∧
      (w.activeItems.flatMap f.writes).Perm (List.range t.words)) ∧
    ∀ {α : Type} (ar : Arithmetic α) (source output : Array α), source.size = t.words →
      output.size = t.words → ∃ words, ∀ caps w,
        WorkGroup.covering [f.n / 2, f.lines] caps = .ok w →
          (Program.fourier f).run ar w [source] output = .ok words ∧
          ∀ order : List Axes, order.Perm w.activeItems →
            f.runItems ar source order output = .ok words := by
  obtain ⟨-, htransformable⟩ := outputType_eq_ok ht
  obtain ⟨h, hwords⟩ := htransformable.regular (List.mem_of_getElem? hf)
  simp only [synthesize_fft ht, hwords]
  refine ⟨fun hbound => htransformable.build_exists (hwords ▸ hbound) direction, ?_, ?_, ?_⟩
  · intro caps op hop
    obtain ⟨-, -, hstages⟩ := build_eq_ok hop
    have hzip : (plan t direction).zipIdx[p]? = some (f, p) := by
      rw [List.getElem?_zipIdx, hf]
      simp
    obtain ⟨s, hs, hpass⟩ := forall₂_getElem?_left hstages hzip
    exact ⟨s, hs, hpass.program, hpass.launch⟩
  · intro caps w hw
    refine ⟨fun id hid => ?_, h.writes_perm hw⟩
    obtain ⟨hx, hy, -⟩ := (h.mem_activeItems hw).1 hid
    exact ⟨h.twiddleIndex_lt id.x, h.reads_lt hx hy, fun ar source hsource =>
      ⟨_, butterfly_eq_ok h ar hsource hy hx, rfl⟩⟩
  · intro α ar source output hsource houtput
    refine ⟨stored output (f.items.flatMap (itemStores ar f source)), fun caps w hw => ?_⟩
    have hitems := h.activeItems_perm hw
    exact ⟨(h.run_eq_runItems hw hsource houtput).trans (h.runItems_perm hsource houtput hitems),
      fun order horder => h.runItems_perm hsource houtput (horder.trans hitems)⟩

/-- The last pass along the columns of four rows: its items run backwards on a device with one thread per
group leave what the standard device leaves. -/
theorem fft_passes_any_order_four_by_two :
    let f : FourierPass := ⟨.forward, 4, 2, 2, 2, 1, 8⟩
    (FourierPass.plan .fourByTwo .forward)[2]? = some f ∧ ∃ w w' words,
      WorkGroup.covering [f.n / 2, f.lines] ⟨4096, 1, 1, 65536⟩ = .ok w ∧
      WorkGroup.covering [f.n / 2, f.lines] .standard = .ok w' ∧
      f.runItems .single (.replicate 16 1.5) w.activeItems.reverse (.replicate 16 7.0) = .ok words ∧
      (Program.fourier f).run .single w' [.replicate 16 1.5] (.replicate 16 7.0) = .ok words := by
  intro f
  have hf : (FourierPass.plan .fourByTwo .forward)[2]? = some f := by decide
  have hcovering : ∀ caps, ∃ w, WorkGroup.covering [f.n / 2, f.lines] caps = .ok w := fun caps =>
    WorkGroup.covering_exists _ caps (by decide)
  obtain ⟨w, hw⟩ := hcovering ⟨4096, 1, 1, 65536⟩
  obtain ⟨w', hw'⟩ := hcovering .standard
  have ht : Synthesis.Fourier.outputType [.fourByTwo] = .ok .fourByTwo := rfl
  obtain ⟨-, -, -, hrun⟩ := fft_passes_any_order ht .forward hf
  obtain ⟨words, hwords⟩ := hrun .single (.replicate 16 1.5) (.replicate 16 7.0) rfl rfl
  exact ⟨hf, w, w', words, hw, hw', (hwords _ w hw).2 _ (List.reverse_perm _), (hwords _ w' hw').1⟩

end FieldCircuit
