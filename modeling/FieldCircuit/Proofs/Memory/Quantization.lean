import FieldCircuit.Proofs.Memory.Coherence

/-!
# Pairs of pixels

Host memory has a byte for a pixel, so that words are rounded on their way to the host and not on their
way back. What a kernel has written to a pair of pixels is therefore not what the host reads: the
sides of a pair may show different words even when both are current. How they differ does not
depend on the history of the pair, though: the host always shows the rounding of what the
accelerator shows.
-/

namespace FieldCircuit

namespace Encoding

theorem encodeAll_pixel (words : List Float32) : pixel.encodeAll words = words.map pixelByte :=
  (List.map_eq_flatMap ..).symm

/-- Words that are stored as pixels are rounded one by one. -/
theorem quantized_pixel (words : Array Float32) :
    pixel.quantized words = words.map fun x => pixelWord (pixelByte x) := by
  apply Array.toList_inj.1
  rw [quantized, encodeAll_pixel, decodeAll, List.map_map, Array.toList_map]
  rfl

/-- Pixels are stored without loss exactly if they are numbers of bytes. -/
theorem quantized_pixel_eq_self_iff (words : Array Float32) :
    pixel.quantized words = words ↔ ∀ x ∈ words, ∃ b, x = pixelWord b := by
  rw [quantized_pixel]
  constructor
  · intro h x hx
    rw [← h] at hx
    obtain ⟨y, -, rfl⟩ := Array.mem_map.1 hx
    exact ⟨_, rfl⟩
  · intro h
    have hsame : ∀ x ∈ words, pixelWord (pixelByte x) = id x := by
      intro x hx
      obtain ⟨b, rfl⟩ := h x hx
      rw [pixelByte_pixelWord, id]
    rw [Array.map_congr_left hsame, Array.map_id]

end Encoding

def FieldType.seen (t : FieldType) (side : Side) (words : Array Float32) : Array Float32 :=
  match side with
  | .accelerator => words
  | .host => t.stored words

namespace Pair

variable {p source : Pair} {t s : FieldType} {words : Array Float32} {side : Side}

/-- The pair shows some words: its accelerator has them if it is current, and its host has what it makes
of them if it is current. If only the host is current, they can be told from what it has. -/
structure Shows (p : Pair) (t : FieldType) (words : Array Float32) : Prop where
  fits : p.Fits t
  master : p.validity.holds .accelerator = true → p.master.Carries words
  slave : p.validity.holds .host = true → p.slave.Stores (t.stored words)
  size : words.size = t.words
  lossless : p.validity = .host → t.stored words = words

theorem Holds.shows (h : p.Holds t words) : p.Shows t words :=
  ⟨h.fits, h.master, fun hcurrent => h.stored.symm ▸ h.slave hcurrent, h.size, fun _ => h.stored⟩

namespace Shows

theorem holds (h : p.Shows t words) (hstored : t.stored words = words) : p.Holds t words :=
  ⟨h.fits, h.master, fun hcurrent => hstored ▸ h.slave hcurrent, h.size, hstored⟩

theorem sync (h : p.Shows t words) (side : Side) :
    ∃ p', p.sync side = .ok p' ∧ p'.Shows t words ∧ p'.validity.holds side = true := by
  by_cases hcurrent : p.validity.holds side = true
  · exact ⟨p, if_pos hcurrent, h, hcurrent⟩
  · cases side with
    | accelerator =>
        -- nothing is lost on the way up
        have hvalidity : p.validity = .host := by
          cases hv : p.validity with
          | host => rfl
          | accelerator => rw [hv] at hcurrent; exact absurd rfl hcurrent
          | both => rw [hv] at hcurrent; exact absurd rfl hcurrent
        obtain ⟨p', hsync, hp', hside⟩ := (h.holds (h.lossless hvalidity)).sync .accelerator
        exact ⟨p', hsync, hp'.shows, hside⟩
    | host =>
        obtain ⟨bytes, hbytes⟩ := h.fits.slave
        have hmaster := h.master (p.validity.holds_host_or.resolve_left hcurrent)
        obtain ⟨b, hb, hformat, hstores⟩ := Buffer.copyFrom_accelerator hbytes hmaster
          (h.fits.slaveLength.trans h.fits.masterLength.symm)
        rw [h.fits.encoding] at hstores
        refine ⟨{ p with slave := b, downloads := p.downloads + 1, validity := .both }, ?_, ?_, rfl⟩
        · unfold Pair.sync
          rw [if_neg hcurrent]
          simp only [hb]
          rfl
        · exact ⟨⟨h.fits.master, ⟨_, hstores⟩, h.fits.masterLength,
            (length_of_format hformat).trans h.fits.slaveLength,
            (congrArg BufferFormat.encoding hformat).trans h.fits.encoding⟩, fun _ => hmaster,
            fun _ => hstores, h.size, fun hvalidity => by cases hvalidity⟩

theorem raw (h : p.Shows t words) (hcurrent : p.validity.holds side = true) :
    p.raw side = .ok (t.seen side words) := by
  cases side with
  | host => exact (h.slave hcurrent).read
  | accelerator => exact (h.master hcurrent).read

theorem read (h : p.Shows t words) (side : Side) :
    ∃ p', p.read side = .ok (t.seen side words, p') ∧ p'.Shows t words := by
  obtain ⟨p', hsync, hp', hcurrent⟩ := h.sync side
  refine ⟨p', ?_, hp'⟩
  simp only [Pair.read, hsync, bind, Except.bind, hp'.raw hcurrent]
  rfl

end Shows

theorem Fits.shows_claimed (h : p.Fits t) {b : Buffer} (hformat : b.format = p.master.format)
    (hcarries : b.Carries words) : Shows { p.claimed .accelerator with master := b } t words := by
  have hlength : b.length = t.words := (length_of_format hformat).trans h.masterLength
  exact ⟨⟨⟨_, hcarries⟩, h.slave, hlength, h.slaveLength, h.encoding⟩, fun _ => hcarries,
    fun hfalse => (by cases hfalse), hcarries.size.trans hlength, fun hfalse => (by cases hfalse)⟩

/-- A side that has been overwritten shows what the side makes of the new words. -/
theorem Fits.write (h : p.Fits t) (side : Side) (hwords : words.size = t.words) :
    ∃ p', p.write side words = (.ok (), p') ∧ p'.Shows t (t.seen side words) := by
  cases side with
  | host =>
      obtain ⟨bytes, hbytes⟩ := h.slave
      obtain ⟨b, hb, hformat, hstores⟩ := hbytes.write (hwords.trans h.slaveLength.symm)
      rw [h.encoding] at hstores
      refine ⟨{ p.claimed .host with slave := b }, ?_,
        (Holds.claimedHost h hformat hstores (FieldType.stored_stored t words)).shows⟩
      simp only [Pair.write, Pair.buffer, Pair.claimed, hb, Pair.withBuffer]
  | accelerator =>
      obtain ⟨old, hold⟩ := h.master
      obtain ⟨b, hb, hformat, hcarries⟩ := hold.write (hwords.trans h.masterLength.symm)
      refine ⟨{ p.claimed .accelerator with master := b }, ?_, h.shows_claimed hformat hcarries⟩
      simp only [Pair.write, Pair.buffer, Pair.claimed, hb, Pair.withBuffer]

/-- A latch hands over the words that the accelerator side of its source shows, provided that they are as
many. -/
theorem Fits.latchFrom (h : p.Fits t) (hsource : source.Shows s words) :
    ∃ p' source', p.latchFrom source =
        (if t.words = s.words then .ok () else .error (.sizeMismatch t.words s.words), p', source') ∧
      source'.Shows s words ∧ if t.words = s.words then p'.Shows t words else p' = p := by
  obtain ⟨old, hold⟩ := h.master
  obtain ⟨source', hsync, hsource', hcurrent⟩ := hsource.sync .accelerator
  by_cases hwords : t.words = s.words
  · have hlength : p.master.length = source'.master.length := by
      rw [h.masterLength, hsource'.fits.masterLength, hwords]
    obtain ⟨b, hb, hformat, hcarries⟩ := Buffer.copyFrom_same hold (hsource'.master hcurrent) hlength
    simp only [if_pos hwords]
    refine ⟨{ p with master := b, validity := .accelerator }, source', ?_, hsource',
      h.shows_claimed hformat hcarries⟩
    simp only [Pair.latchFrom, hsync, hb]
  · have hrefused : p.master.copyFrom source'.master = .error (.sizeMismatch t.words s.words) := by
      rw [Buffer.copyFrom, h.masterLength, hsource'.fits.masterLength]
      exact if_pos hwords
    simp only [if_neg hwords]
    refine ⟨p, source', ?_, hsource', rfl⟩
    simp only [Pair.latchFrom, hsync, hrefused]

/-- An access to one of some pairs of fields, which may be of different types. Words that overwrite a side
are as many as the type of the field has. -/
structure FieldAccess {ι : Type} (t : ι → FieldType) where
  words : Nat
  access : Access ι words
  fits : ∀ i side values, access = .overwrite i side values → (t i).words = words

namespace FieldAccess

variable {ι : Type} [DecidableEq ι] {t : ι → FieldType} {pairs : ι → Pair}
  {v : ι → Array Float32}

def after (pairs : ι → Pair) (accesses : List (FieldAccess t)) : ι → Pair :=
  accesses.foldl (fun pairs a => (a.access.perform pairs).2) pairs

/-- The words that the accelerator side of every pair shows after an access, if it showed the words `v`
before. Words that come through the host are rounded. -/
def shown (v : ι → Array Float32) (a : FieldAccess t) : ι → Array Float32 :=
  match a.access with
  | .writeHost i values =>
    if values.size = (t i).words then Function.update v i ((t i).stored values) else v
  | .overwrite i side values => Function.update v i ((t i).seen side values.toArray)
  | .latch target source _ =>
    if (t target).words = (t source).words then Function.update v target (v source) else v
  | .sync _ _ | .read _ _ => v

/-- What the accelerator side of every pair shows after some accesses, starting with `v`: the words that
were last written or latched into it. -/
def lastShown (v : ι → Array Float32) (accesses : List (FieldAccess t)) : ι → Array Float32 :=
  accesses.foldl shown v

/-- A pair that is replaced shows other words, and the others show what they did. -/
theorem shows_update (h : ∀ i, (pairs i).Shows (t i) (v i)) {j : ι} {p : Pair}
    {words : Array Float32} (hp : p.Shows (t j) words) :
    ∀ i, (Function.update pairs j p i).Shows (t i) (Function.update v j words i) :=
  Access.forall_update (P := fun i (p : Pair) words => p.Shows (t i) words) h hp

theorem shows_update_same (h : ∀ i, (pairs i).Shows (t i) (v i)) {j : ι} {p : Pair}
    (hp : p.Shows (t j) (v j)) : ∀ i, (Function.update pairs j p i).Shows (t i) (v i) :=
  Access.forall_update_left (P := fun i (p : Pair) words => p.Shows (t i) words) h hp

theorem shows_perform (h : ∀ i, (pairs i).Shows (t i) (v i)) (a : FieldAccess t) :
    ∀ i, ((a.access.perform pairs).2 i).Shows (t i) (a.shown v i) := by
  obtain ⟨n, access, hfits⟩ := a
  cases access with
  | writeHost j values =>
      by_cases hsize : values.size = (t j).words
      · obtain ⟨p, hwrite, hp⟩ := Holds.writeHost (h j).fits hsize
        simp only [Access.perform, hwrite, shown, if_pos hsize]
        exact shows_update h hp.shows
      · simp only [Access.perform, (h j).fits.writeHost_eq_error hsize, shown, if_neg hsize]
        exact h
  | overwrite j side values =>
      have hwords : values.toArray.size = (t j).words := by
        rw [values.size_toArray, hfits j side values rfl]
      obtain ⟨p, hwrite, hp⟩ := (h j).fits.write side hwords
      simp only [Access.perform, hwrite, shown]
      exact shows_update h hp
  | sync j side =>
      obtain ⟨p, hsync, hp, -⟩ := (h j).sync side
      simp only [Access.perform, hsync, shown]
      exact shows_update_same h hp
  | read j side =>
      obtain ⟨p, hread, hp⟩ := (h j).read side
      simp only [Access.perform, hread, shown]
      exact shows_update_same h hp
  | latch target source apart =>
      obtain ⟨p, s, hlatch, hs, hp⟩ := (h target).fits.latchFrom (h source)
      simp only [Access.perform, hlatch, shown]
      by_cases hwords : (t target).words = (t source).words
      · rw [if_pos hwords] at hp
        rw [if_pos hwords]
        exact shows_update (shows_update_same h hs) hp
      · rw [if_neg hwords] at hp
        rw [if_neg hwords, hp]
        exact shows_update_same (shows_update_same h hs) (h target)

theorem shows_after (h : ∀ i, (pairs i).Shows (t i) (v i)) (accesses : List (FieldAccess t)) :
    ∀ i, (after pairs accesses i).Shows (t i) (lastShown v accesses i) := by
  induction accesses generalizing pairs v with
  | nil => exact h
  | cons a accesses ih => exact ih (shows_perform h a)

end FieldAccess

/-- The accelerator computes the words of one pair, another one latches them, and its host reads them. -/
def latchedPixels : List (FieldAccess fun _ : Bool => .twoByThreePixels) :=
  [⟨6, .overwrite false .accelerator (.replicate 6 0.3), fun _ _ _ _ => rfl⟩,
    ⟨6, .latch true false (by decide), fun _ _ _ _ => rfl⟩,
    ⟨6, .sync true .host, fun _ _ _ _ => rfl⟩]

/-- The host shows the rounding of what the accelerator shows: new pairs of fields of any types are
accessed in any order, with some accesses failing, and one of them is of pixels. A read of its
accelerator side gives the words that were last written or latched into it, and a read of its host side
gives them rounded to the numbers of bytes. So do its sides as they are once both are
current, and they agree exactly if all words are numbers of bytes. -/
theorem host_shows_rounding {ι : Type} [DecidableEq ι] {t : ι → FieldType} {pairs : ι → Pair}
    (hnew : ∀ i, ∃ bank : Bank, bank.Sound ∧
      ((Environment.newPair (t i)).run.run bank).1 = .ok (pairs i))
    (accesses : List (FieldAccess t)) {i : ι} (hpixel : (t i).element = .pixel) :
    let p := FieldAccess.after pairs accesses i
    let words := FieldAccess.lastShown (fun i => Array.replicate (t i).words 0.0) accesses i
    let rounded := words.map fun x => Encoding.pixelWord (Encoding.pixelByte x)
    (∃ p', p.read .accelerator = .ok (words, p')) ∧
      (∃ p', p.read .host = .ok (rounded, p')) ∧
      (p.validity = .both → p.raw .accelerator = .ok words ∧ p.raw .host = .ok rounded ∧
        (p.raw .host = p.raw .accelerator ↔ ∀ x ∈ words, ∃ b, x = Encoding.pixelWord b)) := by
  intro p words rounded
  have hstart : ∀ i, (pairs i).Shows (t i) (Array.replicate (t i).words 0.0) := by
    intro i
    obtain ⟨bank, hbank, hpair⟩ := hnew i
    exact ((keeps_newPair (t i) bank hbank).2 _ hpair).holds.shows
  have hshows : p.Shows (t i) words := FieldAccess.shows_after hstart accesses i
  have hencoding : hostEncoding (t i).element = .pixel := by rw [hpixel]; rfl
  have hrounded : (t i).seen .host words = rounded := by
    rw [FieldType.seen, FieldType.stored, hencoding, Encoding.quantized_pixel]
  refine ⟨?_, ?_, fun hboth => ?_⟩
  · obtain ⟨p', hread, -⟩ := hshows.read .accelerator
    exact ⟨p', hread⟩
  · obtain ⟨p', hread, -⟩ := hshows.read .host
    exact ⟨p', hrounded ▸ hread⟩
  · have hcurrent : ∀ side, p.validity.holds side = true := fun side => by rw [hboth]; rfl
    have hmaster : p.raw .accelerator = .ok words := hshows.raw (hcurrent .accelerator)
    have hslave : p.raw .host = .ok rounded := hrounded ▸ hshows.raw (hcurrent .host)
    refine ⟨hmaster, hslave, ?_⟩
    rw [hmaster, hslave, Except.ok.injEq, ← Encoding.quantized_pixel_eq_self_iff,
      Encoding.quantized_pixel]

/-- Six pixels of which the accelerator has computed the words are latched by others, which are then made
current on the host: what is read there is rounded. -/
theorem host_shows_rounding_two_by_three : ∃ pair : Pair,
    ((Environment.newPair .twoByThreePixels).run.run (DeviceSpec.standard.bank .standard)).1 =
        .ok pair ∧
      ∃ p', (FieldAccess.after (fun _ => pair) latchedPixels true).read .host =
        .ok (Array.replicate 6 (Encoding.pixelWord 77), p') := by
  obtain ⟨pair, hpair⟩ : ∃ pair, ((Environment.newPair .twoByThreePixels).run.run
      (DeviceSpec.standard.bank .standard)).1 = .ok pair := ⟨_, rfl⟩
  have hnew : ∀ i : Bool, ∃ bank : Bank, bank.Sound ∧
      ((Environment.newPair .twoByThreePixels).run.run bank).1 = .ok ((fun _ : Bool => pair) i) :=
    fun _ => ⟨_, DeviceSpec.sound_bank _ _, hpair⟩
  obtain ⟨-, ⟨p', hread⟩, -⟩ := host_shows_rounding hnew latchedPixels (i := true) rfl
  refine ⟨pair, hpair, p', hread.trans ?_⟩
  congr 2
  decide +kernel

/-- Six pixels that a kernel has written and that were made current on the host afterwards: both sides are
current, and they do not agree. -/
theorem pixel_sides_differ : ∃ pair : Pair,
    ((Environment.newPair .twoByThreePixels).run.run (DeviceSpec.standard.bank .standard)).1 =
        .ok pair ∧
      let p := Access.after (fun _ => pair)
        ([.overwrite () .accelerator (.replicate 6 0.3), .sync () .host] : List (Access Unit 6)) ()
      p.validity = .both ∧ p.raw .accelerator = .ok (Array.replicate 6 0.3) ∧
        p.raw .host = .ok (Array.replicate 6 (Encoding.pixelWord 77)) ∧
        p.raw .host ≠ p.raw .accelerator := by
  refine ⟨_, rfl, rfl, rfl, ?_, ?_⟩
  · decide +kernel
  · decide +kernel

end Pair

end FieldCircuit
