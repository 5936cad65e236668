import Mathlib
import RisingWave.Common.Buffer.BitmapValid

/-!
# Bitmaps in protobuf

`to_protobuf` writes the number of bits in the last byte, then the bits a byte per eight; for a
bitmap with no words it writes zero bytes, or `0xFF` bytes with the last byte cut to the bits in
it. `From<&PbBuffer>` reads the number of bits back from the body's length and its first byte, and
the bits by `from_bytes_with_len`. A valid bitmap of fewer than `2^32` bits comes back as it was
written. A body of the first byte alone, with a nonzero number of bits in the last byte, has no
last byte: in a release build the `usize` subtraction wraps, and it decodes to a bitmap of no set
bits and nearly `2^64` bits.
-/

namespace RisingWave.Common.Buffer

open PackedBits

namespace Bitmap

variable {a : Bitmap}

theorem testBit_lowMask8 {s j : ℕ} (hs : s < 8) (hj : j < 8) :
    ((1 <<< UInt8.ofNat s) - 1 : UInt8).toNat.testBit j = decide (j < s) := by
  have h : ∀ s j : Fin 8, ((1 <<< UInt8.ofNat s.val) - 1 : UInt8).toNat.testBit j.val =
      decide (j.val < s.val) := by decide
  exact h ⟨s, hs⟩ ⟨j, hj⟩

theorem testBit_255 {j : ℕ} (hj : j < 8) : (255 : UInt8).toNat.testBit j = true := by
  have h : ∀ j : Fin 8, (255 : UInt8).toNat.testBit j.val = true := by decide
  exact h ⟨j, hj⟩

/-- The number of bits missing from the last byte, `(8 - last_byte_num_bits) % 8` in `u8`. -/
theorem toNat_eight_sub_mod (h : UInt8) : ((8 - h) % 8 : UInt8).toNat = (8 - h.toNat % 8) % 8 := by
  have hlt := h.toNat_lt
  rw [UInt8.toNat_mod, UInt8.toNat_sub]
  change (2 ^ 8 - h.toNat + 8) % 2 ^ 8 % 8 = _
  omega

theorem byteBit_replicate (k : ℕ) (x : UInt8) (i : ℕ) :
    byteBit (List.replicate k x) i = (decide (i / 8 < k) && x.toNat.testBit (i % 8)) := by
  by_cases hi : i / 8 < k
  · simp [byteBit, hi]
  · simp [byteBit, hi]

theorem resize_singleton {α : Type*} (x a : α) (k : ℕ) :
    resize [x] (k + 1) a = x :: List.replicate k a := by
  simp [resize]

/-- The body of `to_protobuf` on a valid bitmap: the number of bits in the last byte, then bytes
holding the bits and nothing past them. -/
theorem toProtobuf_body (ha : a.Valid) :
    ∃ rest, a.toProtobuf.body = UInt8.ofNat (a.numBits % 8) :: rest ∧
      rest.length = (a.numBits + 7) / 8 ∧
      ∀ i, byteBit rest i = (decide (i < a.numBits) && a.isSetUnchecked i) := by
  cases hbits : a.bits with
  | some ws =>
    have hw := ha.wordsOf hbits
    have hle := le_mul_vecLen a.numBits
    refine ⟨(bytesOfWords ws).take ((a.numBits + 7) / 8), by simp [toProtobuf, hbits], ?_,
      fun i => ?_⟩
    · rw [List.length_take, length_bytesOfWords, hw.length_eq, vecLen_eq]
      omega
    · rw [byteBit_take, byteBit_bytesOfWords, isSetUnchecked_of_some hbits]
      by_cases hi : i < a.numBits
      · simp [hi, show i < 8 * ((a.numBits + 7) / 8) by omega]
      · simp [hi, hw.zeroFrom i (by omega)]
  | none =>
    by_cases h0 : a.countOnes = 0
    · refine ⟨List.replicate ((a.numBits + 7) / 8) 0,
        by simp [toProtobuf, hbits, h0, resize_singleton], by simp, fun i => ?_⟩
      rw [byteBit_replicate, isSetUnchecked_of_none hbits, h0]
      simp
    · -- every bit set: `0xFF` bytes, the last one cut to the bits in it
      have hn := ha.countOnes_of_none hbits h0
      have hset : ∀ i, a.isSetUnchecked i = true := fun i => by
        rw [isSetUnchecked_of_none hbits]
        simp [h0]
      by_cases hm : a.numBits % 8 = 0
      · refine ⟨List.replicate ((a.numBits + 7) / 8) 255,
          by simp [toProtobuf, hbits, h0, hm, resize_singleton], by simp, fun i => ?_⟩
        rw [byteBit_replicate, testBit_255 (Nat.mod_lt _ (by norm_num)), hset]
        simp only [Bool.and_true, Bool.and_true]
        exact decide_eq_decide.mpr (by omega)
      · refine ⟨(List.replicate ((a.numBits + 7) / 8) 255).set ((a.numBits + 7) / 8 - 1)
          ((1 <<< UInt8.ofNat (a.numBits % 8)) - 1), ?_, by simp, fun i => ?_⟩
        · simp only [toProtobuf, hbits, h0, if_false, ne_eq, hm, not_false_eq_true, if_true,
            resize_singleton]
          rw [show (a.numBits + 7) / 8 + 1 - 1 = ((a.numBits + 7) / 8 - 1) + 1 by omega,
            List.set_cons_succ]
        · rw [hset, Bool.and_true, byteBit, List.getElem?_set, List.length_replicate]
          by_cases hlast : (a.numBits + 7) / 8 - 1 = i / 8
          · rw [if_pos hlast, if_pos (by omega), Option.getD_some,
              testBit_lowMask8 (Nat.mod_lt _ (by norm_num)) (Nat.mod_lt _ (by norm_num))]
            exact decide_eq_decide.mpr (by omega)
          · rw [if_neg hlast, List.getElem?_replicate]
            split_ifs with hi
            · rw [Option.getD_some, testBit_255 (Nat.mod_lt _ (by norm_num))]
              exact (decide_eq_true (by omega)).symm
            · simp
              omega

/-- A valid bitmap of fewer than `2 ^ 32` bits comes back from its protobuf as it was. -/
theorem ofPbBuffer_toProtobuf (ha : a.Valid) (h32 : a.numBits < 2 ^ 32) :
    ofPbBuffer a.toProtobuf = some a := by
  obtain ⟨rest, hbody, hlen, hbit⟩ := toProtobuf_body ha
  -- the number of bits read back from the body's length and first byte
  have hnum : (rest.length * 8 + 2 ^ 64 - ((8 - UInt8.ofNat (a.numBits % 8)) % 8).toNat) % 2 ^ 64 =
      a.numBits := by
    have hr : (UInt8.ofNat (a.numBits % 8)).toNat = a.numBits % 8 :=
      UInt8.toNat_ofNat_of_lt (Nat.lt_of_lt_of_le (Nat.mod_lt _ (by norm_num)) (by decide))
    rw [toNat_eight_sub_mod, hr, hlen]
    omega
  have hbuf : rest.length ≤ 8 * vecLen a.numBits := by
    rw [hlen, vecLen_eq]
    omega
  have hz : ∀ i, a.numBits ≤ i → byteBit rest i = false := fun i hi => by
    rw [hbit, decide_eq_false (by omega), Bool.false_and]
  obtain ⟨c, hc, hcv, hcb⟩ := fromBytesWithLen_spec hbuf hz h32
  have hca : c = a := Valid.ext hcv ha (by
    rw [hcb, bools]
    exact List.map_congr_left fun i hi => by
      rw [hbit, decide_eq_true (List.mem_range.mp hi), Bool.true_and])
  rw [ofPbBuffer, hbody]
  simp only [List.length_cons, Nat.add_sub_cancel]
  rw [hnum, hc, hca]

theorem ofPbBuffer_toProtobuf_three_bits :
    ofPbBuffer (fromBoolSlice [true, false, true]).toProtobuf =
      some (fromBoolSlice [true, false, true]) :=
  ofPbBuffer_toProtobuf (fromBoolSlice_valid (by norm_num)) (by norm_num [fromBoolSlice])

/-- Bytes that are all past the end of a byte array read as zero words. -/
theorem countOnesOf_wordsOfBytes_nil (k : ℕ) : countOnesOf (wordsOfBytes [] k) = 0 := by
  rw [countOnesOf, countSet_eq, List.count_eq_zero.mpr, Nat.zero_mod]
  intro hmem
  obtain ⟨i, -, hi⟩ := List.mem_map.mp hmem
  rw [bit_wordsOfBytes, byteBit_eq_false_of_le (by simp), Bool.and_false] at hi
  exact Bool.false_ne_true hi

end Bitmap

end RisingWave.Common.Buffer
