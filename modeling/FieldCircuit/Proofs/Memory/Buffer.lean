import FieldCircuit.Kernel.Launch
import FieldCircuit.Proofs.Memory.Encoding
import Mathlib.Data.List.Forall2

/-!
# The words of a buffer

An accelerator buffer carries words in the front of its memory, which may be longer than the buffer.
A host buffer stores words in memory of exactly its size, as bytes. Writing, copying and launching
replace the words of a buffer, which are quantized on their way to the host, and nothing else.
-/

namespace FieldCircuit

/-- Words that fit go to the front of a block of words, and the rest of the block stays. -/
theorem Contents.overwritten_words (e : Encoding) {values data : Array Float32}
    (h : values.size ≤ data.size) : overwritten e values (.words data) =
      .words (values ++ data.extract values.size data.size) := by
  rw [overwritten, Array.extract_eq_self_of_le h]

namespace Buffer

def Carries (b : Buffer) (words : Array Float32) : Prop :=
  ∃ data, b.contents = .words data ∧ b.length ≤ data.size ∧ data.extract 0 b.length = words

namespace Carries

variable {b : Buffer} {words : Array Float32}

theorem size (h : b.Carries words) : words.size = b.length := by
  obtain ⟨data, -, hle, rfl⟩ := h
  simp [hle]

theorem overwritten (h : b.Carries words) (e : Encoding) {values : Array Float32}
    (hvalues : values.size = b.length) :
    Buffer.Carries { b with contents := b.contents.overwritten e values } values := by
  obtain ⟨data, hdata, hle, -⟩ := h
  refine ⟨values ++ data.extract values.size data.size, ?_, ?_, ?_⟩
  · rw [hdata, Contents.overwritten_words e (by omega)]
  · change b.length ≤ _
    rw [Array.size_append]
    omega
  · change (values ++ _).extract 0 b.length = values
    rw [← hvalues]
    simp

theorem toLaunch (h : b.Carries words) : b.toLaunch = .ofWords words := by
  have hsize := h.size
  obtain ⟨data, hdata, -, rfl⟩ := h
  simp [Buffer.toLaunch, hdata, LaunchBuffer.ofWords, hsize]

theorem afterLaunch (h : b.Carries words) {fresh : Array Float32}
    (hfresh : fresh.size = words.size) : (b.afterLaunch (.ofWords fresh)).Carries fresh := by
  have hover := h.overwritten .single (hfresh.trans h.size)
  obtain ⟨data, hdata, -, -⟩ := h
  simpa [Buffer.afterLaunch, hdata, LaunchBuffer.ofWords] using hover

theorem read (h : b.Carries words) : b.read = .ok words := by
  obtain ⟨data, hdata, hle, rfl⟩ := h
  simp [Buffer.read, hdata, hle]

theorem write (h : b.Carries words) {values : Array Float32} (hvalues : values.size = b.length) :
    ∃ b', b.write values = .ok b' ∧ b'.format = b.format ∧ b'.Carries values := by
  have hover := h.overwritten b.format.encoding hvalues
  obtain ⟨data, hdata, hle, -⟩ := h
  refine ⟨_, ?_, ?_, hover⟩
  · simp only [Buffer.write, hvalues, ne_eq, not_true_eq_false, if_false, hdata, hle, if_true]
  · rfl

end Carries

def Stores (b : Buffer) (words : Array Float32) : Prop :=
  ∃ data, b.contents = .bytes data ∧ data.size = b.length * b.format.encoding.width ∧
    (b.format.encoding.decodeAll data.toList).toArray = words

namespace Stores

variable {b : Buffer} {words : Array Float32}

theorem size (h : b.Stores words) : words.size = b.length := by
  obtain ⟨data, -, hsize, rfl⟩ := h
  rw [List.size_toArray, Encoding.length_decodeAll, Array.length_toList, hsize,
    Nat.mul_div_cancel _ b.format.encoding.width_pos]

theorem read (h : b.Stores words) : b.read = .ok words := by
  have hsize := h.size
  obtain ⟨data, hdata, -, rfl⟩ := h
  simp only [Buffer.read, hdata, Contents.decoded]
  rw [Array.extract_eq_self_of_le (Nat.le_of_eq hsize)]

theorem overwritten (h : b.Stores words) {values : Array Float32} (hvalues : b.length ≤ values.size) :
    Buffer.Stores { b with contents := b.contents.overwritten b.format.encoding values }
      (b.format.encoding.quantized (values.extract 0 b.length)) := by
  obtain ⟨data, hdata, hsize, -⟩ := h
  have htake : data.size / b.format.encoding.width = b.length := by
    rw [hsize, Nat.mul_div_cancel _ b.format.encoding.width_pos]
  have hlength : (b.format.encoding.encodeAll (values.toList.take b.length)).length = data.size := by
    rw [Encoding.length_encodeAll, List.length_take, Array.length_toList, Nat.min_eq_left hvalues,
      hsize]
  refine ⟨(b.format.encoding.encodeAll (values.toList.take b.length)).toArray, ?_, ?_, ?_⟩
  · simp only [hdata, Contents.overwritten, htake, hlength]
    rw [List.drop_eq_nil_of_le (by simp), List.append_nil]
  · change _ = b.length * b.format.encoding.width
    rw [List.size_toArray, hlength, hsize]
  · rw [Encoding.quantized, Array.toList_extract]
    simp

theorem write (h : b.Stores words) {values : Array Float32} (hvalues : values.size = b.length) :
    ∃ b', b.write values = .ok b' ∧ b'.format = b.format ∧
      b'.Stores (b.format.encoding.quantized values) := by
  have hover := h.overwritten (Nat.le_of_eq hvalues.symm)
  rw [Array.extract_eq_self_of_le (Nat.le_of_eq hvalues)] at hover
  obtain ⟨data, hdata, -, -⟩ := h
  refine ⟨_, ?_, ?_, hover⟩
  · simp only [Buffer.write, hvalues, ne_eq, not_true_eq_false, if_false, hdata]
  · rfl

end Stores

theorem copyFrom_host {master slave : Buffer} {old words : Array Float32} (h : master.Carries old)
    (hslave : slave.Stores words) (hlength : master.length = slave.length) :
    ∃ b, master.copyFrom slave = .ok b ∧ b.format = master.format ∧ b.Carries words := by
  have hover := h.overwritten master.format.encoding (hslave.size.trans hlength.symm)
  obtain ⟨data, hdata, -, -⟩ := h
  obtain ⟨bytes, hbytes, -, hwords⟩ := hslave
  refine ⟨_, ?_, ?_, hover⟩
  · simp only [copyFrom, hlength, ne_eq, not_true_eq_false, if_false, offered, hdata, hbytes,
      Contents.decoded, hwords]
    rfl
  · rfl

/-- A copy to the host brings what the host makes of the words of the accelerator. -/
theorem copyFrom_accelerator {slave master : Buffer} {old words : Array Float32}
    (h : slave.Stores old) (hmaster : master.Carries words) (hlength : slave.length = master.length) :
    ∃ b, slave.copyFrom master = .ok b ∧ b.format = slave.format ∧
      b.Stores (slave.format.encoding.quantized words) := by
  obtain ⟨data, hdata, hle, hwords⟩ := hmaster
  have hover := h.overwritten (show slave.length ≤ data.size by omega)
  rw [hlength, hwords] at hover
  obtain ⟨bytes, hbytes, -, -⟩ := h
  refine ⟨_, ?_, ?_, hover⟩
  · simp only [copyFrom, hlength, ne_eq, not_true_eq_false, if_false, offered, hdata, hbytes]
    rfl
  · rfl

theorem copyFrom_same {target source : Buffer} {old words : Array Float32} (h : target.Carries old)
    (hsource : source.Carries words) (hlength : target.length = source.length) :
    ∃ b, target.copyFrom source = .ok b ∧ b.format = target.format ∧ b.Carries words := by
  have hread := hsource.read
  have hover := h.overwritten target.format.encoding (hsource.size.trans hlength.symm)
  obtain ⟨data, hdata, hle, -⟩ := h
  obtain ⟨data', hdata', -, -⟩ := hsource
  rw [hlength] at hle
  refine ⟨_, ?_, ?_, hover⟩
  · simp only [copyFrom, hlength, ne_eq, not_true_eq_false, if_false, offered, hdata, hdata', hread]
    exact if_pos hle
  · rfl

def Measure (buffers : List Buffer) (lengths : List Nat) : Prop :=
  List.Forall₂ (fun b n => b.length = n ∧ ∃ words, b.Carries words) buffers lengths

end Buffer

end FieldCircuit
