import FieldCircuit.Memory.Contents
import Mathlib

/-!
# Encodings round trip

Numbers survive the way to host memory and back. Pixels do not, since a byte stands for one of 256
numbers only, but the bytes of pixels do: what comes back from host memory can be stored there without
further loss.
-/

namespace FieldCircuit

theorem or_mul_two_pow {a s : Nat} (b k : Nat) (hs : s = 2 ^ k) (h : a < s) :
    a ||| b * s = a + b * s := by
  subst hs
  rw [Nat.or_comm, Nat.mul_comm b, ← Nat.two_pow_add_eq_or_of_lt h, Nat.add_comm]

theorem join_bytes (n : UInt32) :
    n.toUInt8.toUInt32 ||| ((n >>> 8).toUInt8.toUInt32 <<< 8) |||
      ((n >>> 16).toUInt8.toUInt32 <<< 16) ||| ((n >>> 24).toUInt8.toUInt32 <<< 24) = n := by
  have hn := n.toNat_lt
  apply UInt32.toNat_inj.1
  simp only [UInt32.toNat_or, UInt32.toNat_shiftLeft, UInt8.toNat_toUInt32, UInt32.toNat_toUInt8,
    UInt32.toNat_shiftRight, Nat.shiftLeft_eq, Nat.shiftRight_eq_div_pow]
  simp only [UInt32.reduceToNat, Nat.reduceMod, Nat.reducePow]
  have hsmall : ∀ m b : Nat, b ≤ 2 ^ 24 → m % 256 * b % 4294967296 = m % 256 * b := by
    intro m b hb
    apply Nat.mod_eq_of_lt
    calc m % 256 * b ≤ 255 * b := Nat.mul_le_mul_right b (by omega)
      _ < 4294967296 := by omega
  rw [hsmall _ 256 (by decide), hsmall _ 65536 (by decide), hsmall _ 16777216 (by decide)]
  rw [or_mul_two_pow (s := 256) _ 8 (by decide) (by omega),
    or_mul_two_pow (s := 65536) _ 16 (by decide) (by omega),
    or_mul_two_pow (s := 16777216) _ 24 (by decide) (by omega)]
  omega

namespace Encoding

theorem singleWord_toBits (x : Float32) :
    singleWord x.toBits.toUInt8 (x.toBits >>> 8).toUInt8 (x.toBits >>> 16).toUInt8
      (x.toBits >>> 24).toUInt8 = x := by
  rw [singleWord, join_bytes, Float32.ofBits_toBits]

theorem pixelByte_pixelWord (b : UInt8) : pixelByte (pixelWord b) = b := by
  have hall : ∀ i : Fin 256, pixelByte (pixelWord (UInt8.ofNat i)) = UInt8.ofNat i := by
    decide +kernel
  simpa using hall ⟨b.toNat, b.toNat_lt⟩

def quantized (e : Encoding) (words : Array Float32) : Array Float32 :=
  (e.decodeAll (e.encodeAll words.toList)).toArray

theorem decodeAll_encodeAll_single (words : List Float32) :
    single.decodeAll (single.encodeAll words) = words := by
  induction words with
  | nil => rfl
  | cons x words ih =>
      change singleWord _ _ _ _ :: decodeSingles (single.encodeAll words) = _
      rw [singleWord_toBits]
      exact congrArg (x :: ·) ih

theorem encodeAll_decodeAll_pixel (bytes : List UInt8) :
    pixel.encodeAll (pixel.decodeAll bytes) = bytes := by
  induction bytes with
  | nil => rfl
  | cons b bytes ih =>
      change pixelByte (pixelWord b) :: pixel.encodeAll (pixel.decodeAll bytes) = _
      rw [pixelByte_pixelWord, ih]

theorem width_pos (e : Encoding) : 0 < e.width := by
  cases e <;> decide

theorem length_decodeSingles (bytes : List UInt8) : (decodeSingles bytes).length = bytes.length / 4 := by
  fun_induction decodeSingles bytes with
  | case1 a b c d rest ih =>
      simp only [List.length_cons, ih]
      omega
  | case2 bytes hshort =>
      rcases bytes with _ | ⟨a, _ | ⟨b, _ | ⟨c, _ | ⟨d, rest⟩⟩⟩⟩
      · simp
      · simp
      · simp
      · simp
      · exact absurd rfl (hshort a b c d rest)

theorem length_decodeAll (e : Encoding) (bytes : List UInt8) :
    (e.decodeAll bytes).length = bytes.length / e.width := by
  cases e with
  | single => exact length_decodeSingles bytes
  | pixel => simp [decodeAll, width]

theorem decodeAll_zeros (e : Encoding) (n : Nat) :
    e.decodeAll (List.replicate (n * e.width) 0) = List.replicate n 0.0 := by
  cases e with
  | single =>
      induction n with
      | zero => rfl
      | succ n ih =>
          have hzero : singleWord 0 0 0 0 = 0.0 := by decide +kernel
          have hsplit : List.replicate ((n + 1) * single.width) (0 : UInt8) =
              0 :: 0 :: 0 :: 0 :: List.replicate (n * single.width) 0 := by
            rw [Nat.add_mul, Nat.add_comm, ← List.replicate_append_replicate]
            rfl
          rw [hsplit]
          change singleWord 0 0 0 0 :: single.decodeAll _ = _
          rw [ih, hzero, List.replicate_succ]
  | pixel =>
      have hzero : pixelWord 0 = 0.0 := by decide +kernel
      simp only [decodeAll, width, Nat.mul_one, List.map_replicate, hzero]

@[simp] theorem quantized_single (words : Array Float32) : single.quantized words = words := by
  rw [quantized, decodeAll_encodeAll_single]

/-- Words that come from host memory can be stored there without loss. -/
theorem quantized_quantized (e : Encoding) (words : Array Float32) :
    e.quantized (e.quantized words) = e.quantized words := by
  cases e with
  | single => rw [quantized_single, quantized_single]
  | pixel => rw [quantized, quantized, encodeAll_decodeAll_pixel]

theorem quantized_zeros (e : Encoding) (n : Nat) :
    e.quantized (Array.replicate n 0.0) = Array.replicate n 0.0 := by
  cases e with
  | single => exact quantized_single _
  | pixel =>
      have hzeros := decodeAll_zeros pixel n
      rw [quantized, Array.toList_replicate, ← hzeros, encodeAll_decodeAll_pixel, hzeros,
        List.toArray_replicate]

@[simp] theorem size_quantized (e : Encoding) (words : Array Float32) :
    (e.quantized words).size = words.size := by
  rw [quantized, List.size_toArray, length_decodeAll, length_encodeAll,
    Nat.mul_div_cancel _ e.width_pos, Array.length_toList]

end Encoding

end FieldCircuit
