import FieldCircuit.Proofs.Memory.Allocation
import Mathlib.Logic.Function.Basic

/-!
# Coherence of buffer pairs

Some pairs of fields of one type are written, made current, read and latched from one another, in any
order. Without pixels every pair behaves like a single variable: reading either side gives what was
written or latched into it last. A pair is copied between its sides at most once from one such
replacement to the next, since the copy leaves both sides current.
-/

namespace FieldCircuit.Pair

variable {p p' : Pair} {t : FieldType} {side : Side}

def transfers (p : Pair) : Nat := p.uploads + p.downloads

/-- Number of copies between the sides, with the one that is left until both are current. -/
def allowance (p : Pair) : Nat := p.transfers + if p.validity = .both then 0 else 1

theorem transfers_le_allowance (p : Pair) : p.transfers ≤ p.allowance :=
  Nat.le_add_right _ _

theorem allowance_le (p : Pair) : p.allowance ≤ p.transfers + 1 := by
  unfold allowance
  split
  · exact Nat.le_succ _
  · exact Nat.le_refl _

/-- A side is only copied if it is not current, and then both are. -/
theorem allowance_sync (h : p.sync side = .ok p') : p'.allowance = p.allowance := by
  unfold sync at h
  split at h
  · rw [Except.ok.inj h]
  · rename_i hcurrent
    have hboth : p.validity ≠ .both := by
      intro hboth
      rw [hboth] at hcurrent
      exact hcurrent rfl
    cases side with
    | accelerator =>
        obtain ⟨master, -, hp'⟩ := bind_eq_ok_iff.1 h
        rw [← Except.ok.inj hp']
        simp only [allowance, transfers, if_pos, if_neg hboth]
        omega
    | host =>
        obtain ⟨slave, -, hp'⟩ := bind_eq_ok_iff.1 h
        rw [← Except.ok.inj hp']
        simp only [allowance, transfers, if_pos, if_neg hboth]
        omega

theorem Holds.write (h : p.Fits t) (side : Side) {values : Array Float32}
    (hvalues : values.size = t.words) (hstored : t.stored values = values) :
    ∃ p', p.write side values = (.ok (), p') ∧ p'.Holds t values := by
  cases side with
  | host =>
      obtain ⟨bytes, hbytes⟩ := h.slave
      obtain ⟨b, hb, hformat, hstores⟩ := hbytes.write (hvalues.trans h.slaveLength.symm)
      have hquantized : p.slave.format.encoding.quantized values = values := by
        rw [h.encoding]
        exact hstored
      rw [hquantized] at hstores
      refine ⟨{ p.claimed .host with slave := b }, ?_, claimedHost h hformat hstores hstored⟩
      simp only [Pair.write, Pair.buffer, Pair.claimed, hb, Pair.withBuffer]
  | accelerator =>
      obtain ⟨words, hwords⟩ := h.master
      obtain ⟨b, hb, hformat, hcarries⟩ := hwords.write (hvalues.trans h.masterLength.symm)
      refine ⟨{ p.claimed .accelerator with master := b }, ?_, claimed h hformat hcarries hstored⟩
      simp only [Pair.write, Pair.buffer, Pair.claimed, hb, Pair.withBuffer]

/-- Values of another length are refused. -/
theorem Fits.writeHost_eq_error (h : p.Fits t) {values : Array Float32}
    (hvalues : values.size ≠ t.words) :
    p.writeHost values = .error (.sizeMismatch t.words values.size) := by
  simp only [Pair.writeHost, Buffer.write, h.slaveLength, if_pos hvalues]
  rfl

/-- What is done to one of some pairs of `words` words: values that come from the host, which may not
fit, all words of a side, or a latch from another pair; a side is made current, or read. -/
inductive Access (ι : Type) (words : Nat)
  | writeHost (i : ι) (values : Array Float32)
  | overwrite (i : ι) (side : Side) (values : Vector Float32 words)
  | sync (i : ι) (side : Side)
  | read (i : ι) (side : Side)
  | latch (target source : ι) (apart : target ≠ source)

namespace Access

variable {ι : Type} [DecidableEq ι] {words : Nat}

def perform (pairs : ι → Pair) : Access ι words → Except DeviceError Unit × (ι → Pair)
  | writeHost i values =>
    match (pairs i).writeHost values with
    | .ok p => (.ok (), Function.update pairs i p)
    | .error e => (.error e, pairs)
  | overwrite i side values =>
    let (outcome, p) := (pairs i).write side values.toArray
    (outcome, Function.update pairs i p)
  | sync i side =>
    match (pairs i).sync side with
    | .ok p => (.ok (), Function.update pairs i p)
    | .error e => (.error e, pairs)
  | read i side =>
    match (pairs i).read side with
    | .ok (_, p) => (.ok (), Function.update pairs i p)
    | .error e => (.error e, pairs)
  | latch target source _ =>
    let (outcome, p, s) := (pairs target).latchFrom (pairs source)
    (outcome, Function.update (Function.update pairs source s) target p)

def after (pairs : ι → Pair) (accesses : List (Access ι words)) : ι → Pair :=
  accesses.foldl (fun pairs a => (a.perform pairs).2) pairs

/-- Only values from the host that do not fit are refused. -/
def outcome : Access ι words → Except DeviceError Unit
  | writeHost _ values =>
    if values.size = words then .ok () else .error (.sizeMismatch words values.size)
  | _ => .ok ()

def Replaces : Access ι words → ι → Prop
  | writeHost j values, i => j = i ∧ values.size = words
  | overwrite j _ _, i => j = i
  | latch target _ _, i => target = i
  | sync _ _, _ | read _ _, _ => False

/-- The value of every pair after an access, if it had the value `v` before. -/
def value (v : ι → Array Float32) : Access ι words → ι → Array Float32
  | writeHost i values => if values.size = words then Function.update v i values else v
  | overwrite i _ values => Function.update v i values.toArray
  | latch target source _ => Function.update v target (v source)
  | sync _ _ | read _ _ => v

/-- The last value that was written or latched into every pair, starting with `v`. -/
def lastValue (v : ι → Array Float32) (accesses : List (Access ι words)) : ι → Array Float32 :=
  accesses.foldl value v

/-- A relation between two families is kept if related members take the place of others. -/
theorem forall_update {β γ : Type} {P : ι → β → γ → Prop} {f : ι → β} {g : ι → γ}
    (h : ∀ i, P i (f i) (g i)) {j : ι} {x : β} {y : γ} (hxy : P j x y) (i : ι) :
    P i (Function.update f j x i) (Function.update g j y i) := by
  by_cases hij : i = j
  · subst hij
    simpa using hxy
  · simpa [hij] using h i

theorem forall_update_left {β γ : Type} {P : ι → β → γ → Prop} {f : ι → β} {g : ι → γ}
    (h : ∀ i, P i (f i) (g i)) {j : ι} {x : β} (hx : P j x (g j)) (i : ι) :
    P i (Function.update f j x i) (g i) := by
  have hupdate := forall_update h hx i
  rwa [Function.update_eq_self] at hupdate

/-- What one access does to pairs that hold values: its outcome, the values after it, and that a pair
whose value it does not replace keeps its allowance. -/
theorem perform_spec (ht : t.element ≠ .pixel) {pairs : ι → Pair} {v : ι → Array Float32}
    (h : ∀ i, (pairs i).Holds t (v i)) (a : Access ι t.words) :
    (a.perform pairs).1 = a.outcome ∧ (∀ i, ((a.perform pairs).2 i).Holds t (a.value v i)) ∧
      ∀ i, ¬ a.Replaces i → ((a.perform pairs).2 i).allowance = (pairs i).allowance := by
  -- what becomes of the pairs if one of them is replaced by another that holds a value
  have hupdate : ∀ {j : ι} {p : Pair} {x : Array Float32} {others : ι → Pair},
      (∀ i, (others i).Holds t (v i)) → p.Holds t x →
      ∀ i, (Function.update others j p i).Holds t (Function.update v j x i) := fun hothers hp =>
    forall_update (P := fun _ (p : Pair) x => p.Holds t x) hothers hp
  have hsame : ∀ {j : ι} {p : Pair}, p.Holds t (v j) →
      ∀ i, (Function.update pairs j p i).Holds t (v i) := fun hp =>
    forall_update_left (P := fun _ (p : Pair) x => p.Holds t x) h hp
  have hallowance : ∀ {j : ι} {p : Pair}, p.allowance = (pairs j).allowance →
      ∀ i, (Function.update pairs j p i).allowance = (pairs i).allowance := fun hp =>
    forall_update_left (P := fun _ (p q : Pair) => p.allowance = q.allowance) (fun _ => rfl) hp
  cases a with
  | writeHost j values =>
      by_cases hsize : values.size = t.words
      · obtain ⟨p, hwrite, hp⟩ := Holds.writeHost (h j).fits hsize
        rw [FieldType.stored_of_ne_pixel ht] at hp
        simp only [perform, hwrite, outcome, value, Replaces, hsize, if_true, and_true, true_and]
        exact ⟨hupdate h hp, fun i hi => by rw [Function.update_of_ne (Ne.symm hi)]⟩
      · simp only [perform, (h j).fits.writeHost_eq_error hsize, outcome, value, hsize, if_false,
          implies_true, and_true, true_and]
        exact h
  | overwrite j side values =>
      obtain ⟨p, hwrite, hp⟩ :=
        Holds.write (h j).fits side values.size_toArray (FieldType.stored_of_ne_pixel ht _)
      simp only [perform, hwrite, outcome, value, Replaces, true_and]
      exact ⟨hupdate h hp, fun i hi => by rw [Function.update_of_ne (Ne.symm hi)]⟩
  | sync j side =>
      obtain ⟨p, hsync, hp, -⟩ := (h j).sync side
      simp only [perform, hsync, outcome, value, true_and]
      exact ⟨hsame hp, fun i _ => hallowance (allowance_sync hsync) i⟩
  | read j side =>
      obtain ⟨p, hsync, hread, hp⟩ := (h j).read side
      simp only [perform, hread, outcome, value, true_and]
      exact ⟨hsame hp, fun i _ => hallowance (allowance_sync hsync) i⟩
  | latch target source apart =>
      obtain ⟨p, s, hsync, hlatch, hp, hs⟩ := Holds.latchFrom (h target).fits (h source)
      simp only [perform, hlatch, outcome, value, Replaces, true_and]
      refine ⟨hupdate (hsame hs) hp, fun i hi => ?_⟩
      rw [Function.update_of_ne (Ne.symm hi)]
      exact hallowance (allowance_sync hsync) i

theorem holds_after (ht : t.element ≠ .pixel) {pairs : ι → Pair} {v : ι → Array Float32}
    (h : ∀ i, (pairs i).Holds t (v i)) (accesses : List (Access ι t.words)) :
    ∀ i, (after pairs accesses i).Holds t (lastValue v accesses i) := by
  induction accesses generalizing pairs v with
  | nil => exact h
  | cons a accesses ih => exact ih (perform_spec ht h a).2.1

theorem allowance_after (ht : t.element ≠ .pixel) {pairs : ι → Pair} {v : ι → Array Float32}
    (h : ∀ i, (pairs i).Holds t (v i)) {i : ι} {accesses : List (Access ι t.words)}
    (hkept : ∀ a ∈ accesses, ¬ a.Replaces i) :
    (after pairs accesses i).allowance = (pairs i).allowance := by
  induction accesses generalizing pairs v with
  | nil => rfl
  | cons a accesses ih =>
      obtain ⟨-, hvalues, hallowance⟩ := perform_spec ht h a
      exact (ih hvalues fun b hb => hkept b (List.mem_cons_of_mem _ hb)).trans
        (hallowance i (hkept a (List.mem_cons_self ..)))

end Access

/-- Pairs are coherent: new pairs of numbers that are accessed in any order, with some accesses failing,
behave like variables. Either side of a pair reads as the last value that was written or latched into
it, and both sides have it when both are current. Values that do not fit are refused and change
nothing; nothing else fails, and a latch leaves its source as it reads. Unless its value is replaced in
between, a pair is copied between its sides at most once. -/
theorem coherent {ι : Type} [DecidableEq ι] {t : FieldType} (ht : t.element ≠ .pixel)
    {pairs : ι → Pair} (hnew : ∀ i, ∃ bank : Bank, bank.Sound ∧
      ((Environment.newPair t).run.run bank).1 = .ok (pairs i))
    (accesses : List (Access ι t.words)) :
    let reached := Access.after pairs accesses
    let value := Access.lastValue (fun _ => Array.replicate t.words 0.0) accesses
    (∀ i side, ∃ p, (reached i).read side = .ok (value i, p)) ∧
      (∀ i, (reached i).validity = .both → ∀ side, (reached i).raw side = .ok (value i)) ∧
      (∀ i (values : Array Float32), values.size ≠ t.words →
        (Access.writeHost i values : Access ι t.words).perform reached =
          (.error (.sizeMismatch t.words values.size), reached)) ∧
      (∀ a : Access ι t.words, (a.perform reached).1 = a.outcome) ∧
      (∀ target source (apart : target ≠ source) side, ∃ p,
        (((Access.latch target source apart : Access ι t.words).perform reached).2 source).read side =
          .ok (value source, p)) ∧
      ∀ i (segment : List (Access ι t.words)), (∀ a ∈ segment, ¬ a.Replaces i) →
        (Access.after reached segment i).transfers ≤ (reached i).transfers + 1 := by
  intro reached value
  have hstart : ∀ i, (pairs i).Holds t (Array.replicate t.words 0.0) := by
    intro i
    obtain ⟨bank, hbank, hpair⟩ := hnew i
    exact ((keeps_newPair t bank hbank).2 _ hpair).holds
  have hreached : ∀ i, (reached i).Holds t (value i) := Access.holds_after ht hstart accesses
  refine ⟨?_, ?_, ?_, fun a => (Access.perform_spec ht hreached a).1, ?_, ?_⟩
  · intro i side
    obtain ⟨p, -, hread, -⟩ := (hreached i).read side
    exact ⟨p, hread⟩
  · intro i hboth side
    refine (hreached i).raw ?_
    rw [hboth]
    rfl
  · intro i values hsize
    simp only [Access.perform, (hreached i).fits.writeHost_eq_error hsize]
  · intro target source apart side
    have hlatched := (Access.perform_spec ht hreached (.latch target source apart)).2.1 source
    simp only [Access.value, Function.update_of_ne (Ne.symm apart)] at hlatched
    obtain ⟨p, -, hread, -⟩ := hlatched.read side
    exact ⟨p, hread⟩
  · intro i segment hkept
    calc (Access.after reached segment i).transfers
        ≤ (Access.after reached segment i).allowance := transfers_le_allowance _
      _ = (reached i).allowance := Access.allowance_after ht hreached hkept
      _ ≤ (reached i).transfers + 1 := allowance_le _

/-- Two pairs of sixteen words: one is written and latched into the other, and values that do not fit
are refused in between. -/
theorem coherent_four_by_two : ∃ pair : Pair,
    ((Environment.newPair .fourByTwo).run.run (DeviceSpec.standard.bank .standard)).1 = .ok pair ∧
      ∀ side, ∃ p, (Access.after (fun _ => pair)
        ([.overwrite true .accelerator (.replicate 16 2.5), .writeHost true #[1.0], .sync true .host,
          .latch false true (by decide), .writeHost true (Array.replicate 16 7.0)] :
          List (Access Bool 16)) false).read side = .ok (Array.replicate 16 2.5, p) := by
  obtain ⟨pair, hpair⟩ : ∃ pair, ((Environment.newPair .fourByTwo).run.run
      (DeviceSpec.standard.bank .standard)).1 = .ok pair := ⟨_, rfl⟩
  have hnew : ∀ i : Bool, ∃ bank : Bank, bank.Sound ∧
      ((Environment.newPair .fourByTwo).run.run bank).1 = .ok ((fun _ : Bool => pair) i) :=
    fun _ => ⟨_, DeviceSpec.sound_bank _ _, hpair⟩
  exact ⟨pair, hpair, fun side => (coherent (by decide) hnew _).1 false side⟩

end FieldCircuit.Pair
