import FieldCircuit.Memory.Pair
import FieldCircuit.Proofs.Memory.Buffer

/-!
# The value of a buffer pair

A pair holds a value if every side that is current has it. The value of a field of pixels is one that
host memory can represent, so that it does not change when it goes to the host and back. Which sides
are current, how often the value was copied and what the other side has left over does not matter.
-/

namespace FieldCircuit

def FieldType.stored (t : FieldType) (values : Array Float32) : Array Float32 :=
  (Pair.hostEncoding t.element).quantized values

@[simp] theorem FieldType.stored_stored (t : FieldType) (values : Array Float32) :
    t.stored (t.stored values) = t.stored values :=
  Encoding.quantized_quantized _ _

@[simp] theorem FieldType.size_stored (t : FieldType) (values : Array Float32) :
    (t.stored values).size = values.size :=
  Encoding.size_quantized _ _

theorem FieldType.stored_of_ne_pixel {t : FieldType} (h : t.element ≠ .pixel)
    (values : Array Float32) : t.stored values = values := by
  unfold stored
  cases he : t.element with
  | pixel => exact absurd he h
  | float => exact Encoding.quantized_single values
  | complex => exact Encoding.quantized_single values

/-- One side is always current. -/
theorem Validity.holds_host_or (v : Validity) :
    v.holds .host = true ∨ v.holds .accelerator = true := by
  cases v with
  | host => exact .inl rfl
  | accelerator => exact .inr rfl
  | both => exact .inl rfl

namespace Pair

/-- The pair has the buffers of a field: both sides have the words of the type, on the host in the
encoding of its elements. -/
structure Fits (p : Pair) (t : FieldType) : Prop where
  master : ∃ words, p.master.Carries words
  slave : ∃ words, p.slave.Stores words
  masterLength : p.master.length = t.words
  slaveLength : p.slave.length = t.words
  encoding : p.slave.format.encoding = hostEncoding t.element

/-- Every current side of the pair has the value. -/
structure Holds (p : Pair) (t : FieldType) (value : Array Float32) : Prop where
  fits : p.Fits t
  master : p.validity.holds .accelerator = true → p.master.Carries value
  slave : p.validity.holds .host = true → p.slave.Stores value
  size : value.size = t.words
  stored : t.stored value = value

theorem length_of_format {b b' : Buffer} (h : b'.format = b.format) : b'.length = b.length :=
  congrArg BufferFormat.length h

namespace Holds

variable {p source : Pair} {t : FieldType} {value : Array Float32}

theorem sync (h : p.Holds t value) (side : Side) :
    ∃ p', p.sync side = .ok p' ∧ p'.Holds t value ∧ p'.validity.holds side = true := by
  obtain ⟨words, hwords⟩ := h.fits.master
  obtain ⟨bytes, hbytes⟩ := h.fits.slave
  have hlength : p.master.length = p.slave.length := h.fits.masterLength.trans h.fits.slaveLength.symm
  by_cases hcurrent : p.validity.holds side = true
  · exact ⟨p, if_pos hcurrent, h, hcurrent⟩
  · unfold Pair.sync
    rw [if_neg hcurrent]
    cases side with
    | accelerator =>
        have hslave := h.slave (p.validity.holds_host_or.resolve_right hcurrent)
        obtain ⟨b, hb, hformat, hcarries⟩ := Buffer.copyFrom_host hwords hslave hlength
        refine ⟨{ p with master := b, uploads := p.uploads + 1, validity := .both }, ?_, ?_, rfl⟩
        · simp only [hb]
          rfl
        · exact ⟨⟨⟨_, hcarries⟩, h.fits.slave, (length_of_format hformat).trans h.fits.masterLength,
            h.fits.slaveLength, h.fits.encoding⟩, fun _ => hcarries, fun _ => hslave, h.size, h.stored⟩
    | host =>
        have hmaster := h.master (p.validity.holds_host_or.resolve_left hcurrent)
        obtain ⟨b, hb, hformat, hstores⟩ := Buffer.copyFrom_accelerator hbytes hmaster hlength.symm
        rw [h.fits.encoding] at hstores
        have hvalue : b.Stores value := h.stored ▸ hstores
        refine ⟨{ p with slave := b, downloads := p.downloads + 1, validity := .both }, ?_, ?_, rfl⟩
        · simp only [hb]
          rfl
        · exact ⟨⟨h.fits.master, ⟨_, hvalue⟩, h.fits.masterLength,
            (length_of_format hformat).trans h.fits.slaveLength,
            (congrArg BufferFormat.encoding hformat).trans h.fits.encoding⟩, fun _ => hmaster,
            fun _ => hvalue, h.size, h.stored⟩

theorem raw (h : p.Holds t value) {side : Side} (hcurrent : p.validity.holds side = true) :
    p.raw side = .ok value := by
  cases side with
  | host => exact (h.slave hcurrent).read
  | accelerator => exact (h.master hcurrent).read

theorem read (h : p.Holds t value) (side : Side) :
    ∃ p', p.sync side = .ok p' ∧ p.read side = .ok (value, p') ∧ p'.Holds t value := by
  obtain ⟨p', hsync, hp', hcurrent⟩ := h.sync side
  refine ⟨p', hsync, ?_, hp'⟩
  simp only [Pair.read, hsync, bind, Except.bind, hp'.raw hcurrent]
  rfl

theorem claimedHost (h : p.Fits t) {b : Buffer} (hformat : b.format = p.slave.format)
    (hstores : b.Stores value) (hstored : t.stored value = value) :
    Pair.Holds { p.claimed .host with slave := b } t value := by
  have hlength : b.length = t.words := (length_of_format hformat).trans h.slaveLength
  exact ⟨⟨h.master, ⟨_, hstores⟩, h.masterLength, hlength,
    (congrArg BufferFormat.encoding hformat).trans h.encoding⟩, fun hfalse => (by cases hfalse),
    fun _ => hstores, hstores.size.trans hlength, hstored⟩

/-- The value after values have been written on the host is what the host makes of them. -/
theorem writeHost (h : p.Fits t) {values : Array Float32} (hvalues : values.size = t.words) :
    ∃ p', p.writeHost values = .ok p' ∧ p'.Holds t (t.stored values) := by
  obtain ⟨bytes, hbytes⟩ := h.slave
  obtain ⟨b, hb, hformat, hstores⟩ := hbytes.write (hvalues.trans h.slaveLength.symm)
  rw [h.encoding] at hstores
  refine ⟨{ p with slave := b, validity := .host }, ?_, ?_⟩
  · simp only [Pair.writeHost, hb]
    rfl
  · exact claimedHost h hformat hstores (FieldType.stored_stored t values)

theorem claimed (h : p.Fits t) {b : Buffer} (hformat : b.format = p.master.format)
    (hcarries : b.Carries value) (hstored : t.stored value = value) :
    Pair.Holds { p.claimed .accelerator with master := b } t value := by
  have hlength : b.length = t.words := (length_of_format hformat).trans h.masterLength
  exact ⟨⟨⟨_, hcarries⟩, h.slave, hlength, h.slaveLength, h.encoding⟩, fun _ => hcarries,
    fun hfalse => (by cases hfalse), hcarries.size.trans hlength, hstored⟩

/-- A latch hands over the value of its source. -/
theorem latchFrom (h : p.Fits t) (hsource : source.Holds t value) :
    ∃ p' source', source.sync .accelerator = .ok source' ∧
      p.latchFrom source = (.ok (), p', source') ∧ p'.Holds t value ∧ source'.Holds t value := by
  obtain ⟨words, hwords⟩ := h.master
  obtain ⟨source', hsync, hsource', hcurrent⟩ := hsource.sync .accelerator
  have hlength : p.master.length = source'.master.length :=
    h.masterLength.trans hsource'.fits.masterLength.symm
  obtain ⟨b, hb, hformat, hcarries⟩ := Buffer.copyFrom_same hwords (hsource'.master hcurrent) hlength
  refine ⟨{ p with master := b, validity := .accelerator }, source', hsync, ?_, ?_, hsource'⟩
  · simp only [Pair.latchFrom, hsync, hb]
  · exact claimed h hformat hcarries hsource.stored

end Holds

end Pair

end FieldCircuit
