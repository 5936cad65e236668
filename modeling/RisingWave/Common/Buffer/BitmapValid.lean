import Mathlib
import RisingWave.Common.Buffer.Bitmap

/-!
# Valid bitmaps and their bits

A bitmap means its list of bits, `bools`, read by `is_set`. It is valid when its count is the
number of its set bits, it keeps no words exactly when that count is zero or its length, and its
words, when it has them, are `vec_len` many with no bit set past its length. Valid bitmaps with
the same bits are equal (`Valid.ext`): every way of building a bitmap with given bits builds the
same one. The constructors build valid bitmaps with the bits they are given, and the bitwise
operators act bit by bit; the owned forms of `&` and `|`, which swap their operands, agree with
the borrowed ones.

A bitmap's count is a `u32` sum: the results below that recount words are for fewer than `2^32`
bits.
-/

namespace RisingWave.Common.Buffer

open PackedBits

@[simp] theorem BITS_eq : BITS = 64 := rfl

namespace Bitmap

/-! ## Words -/

theorem vecLen_eq (n : ℕ) : vecLen n = (n + 63) / 64 := rfl

theorem le_mul_vecLen (n : ℕ) : n ≤ 64 * vecLen n := by
  rw [vecLen_eq]
  omega

theorem div_lt_vecLen {i n : ℕ} (h : i < n) : i / 64 < vecLen n := by
  rw [vecLen_eq]
  omega

theorem vecLen_mono {m n : ℕ} (h : m ≤ n) : vecLen m ≤ vecLen n := by
  rw [vecLen_eq, vecLen_eq]
  omega

/-- With the words of `n` bits, a bit past them is past `n`. -/
theorem le_of_vecLen_le {i n : ℕ} (h : vecLen n ≤ i / 64) : n ≤ i := by
  rw [vecLen_eq] at h
  omega

theorem resize_length {α : Type*} (v : List α) (n : ℕ) (a : α) : (resize v n a).length = n := by
  simp only [resize, List.length_append, List.length_take, List.length_replicate]
  omega

/-! ## The bits of a bitmap -/

/-- The bits of a bitmap, as `is_set` reads them. -/
def bools (self : Bitmap) : List Bool := (List.range self.numBits).map self.isSetUnchecked

variable {a b : Bitmap} {ws : List (BitVec 64)} {i n : ℕ}

@[simp] theorem length_bools (a : Bitmap) : a.bools.length = a.numBits := by simp [bools]

theorem isSetUnchecked_of_some (h : a.bits = some ws) (i : ℕ) : a.isSetUnchecked i = bit ws i := by
  simp only [isSetUnchecked, h, BITS_eq]
  rw [and_one_shiftLeft_ne_zero _ (Nat.mod_lt _ (by norm_num))]
  rfl

theorem isSetUnchecked_of_none (h : a.bits = none) (i : ℕ) :
    a.isSetUnchecked i = (a.countOnes != 0) := by
  rw [isSetUnchecked, h]

theorem bools_of_some (h : a.bits = some ws) : a.bools = toBools ws a.numBits :=
  List.map_congr_left fun i _ => isSetUnchecked_of_some h i

theorem bools_of_none (h : a.bits = none) :
    a.bools = List.replicate a.numBits (a.countOnes != 0) := by
  rw [bools, List.map_congr_left fun i _ => isSetUnchecked_of_none h i, List.map_const',
    List.length_range]

theorem getElem?_bools (a : Bitmap) (i : ℕ) :
    a.bools[i]? = if i < a.numBits then some (a.isSetUnchecked i) else none := by
  split_ifs with h <;> simp [bools, h]

/-- `is_set` reads the bits. -/
theorem isSet_eq_getElem? (a : Bitmap) (i : ℕ) : a.isSet i = a.bools[i]? := by
  rw [getElem?_bools, isSet, len]

/-- A valid bitmap: its count is its number of set bits, it keeps words exactly when some but
not all bits are set, and then `vec_len` words with nothing set past the length. -/
structure Valid (a : Bitmap) : Prop where
  countOnes_eq : a.countOnes = a.bools.count true
  bits_eq_none : a.bits = none ↔ a.countOnes = 0 ∨ a.countOnes = a.numBits
  words : ∀ ws, a.bits = some ws → ws.length = vecLen a.numBits ∧ ZeroFrom a.numBits ws

/-- The bits of a list with no set bit, and of one with no clear bit. -/
theorem eq_replicate_of_count {l : List Bool} :
    (l.count true = 0 → l = List.replicate l.length false) ∧
      (l.count true = l.length → l = List.replicate l.length true) := by
  refine ⟨fun h => List.eq_replicate_iff.mpr ⟨rfl, fun x hx => ?_⟩,
    fun h => List.eq_replicate_iff.mpr ⟨rfl, fun x hx => ?_⟩⟩
  · cases x
    · rfl
    · exact absurd (List.count_pos_iff.mpr hx) (by omega)
  · exact (List.count_eq_length.mp h x hx).symm

/-- Valid bitmaps with the same bits are equal. -/
theorem Valid.ext (ha : a.Valid) (hb : b.Valid) (h : a.bools = b.bools) : a = b := by
  have hn : a.numBits = b.numBits := by rw [← length_bools, h, length_bools]
  have hc : a.countOnes = b.countOnes := by rw [ha.countOnes_eq, hb.countOnes_eq, h]
  obtain ⟨n, ca, bitsa⟩ := a
  obtain ⟨m, cb, bitsb⟩ := b
  simp only at hn hc
  subst hn hc
  congr 1
  cases hbitsa : bitsa with
  | none =>
    -- no words on the one side: a count of none or all, so none on the other side
    have hnone := ha.bits_eq_none.mp hbitsa
    exact (hb.bits_eq_none.mpr hnone).symm
  | some wa =>
    cases hbitsb : bitsb with
    | none =>
      have hnone := hb.bits_eq_none.mp hbitsb
      exact absurd (ha.bits_eq_none.mpr hnone) (by simp [hbitsa])
    | some wb =>
      obtain ⟨hla, hza⟩ := ha.words wa hbitsa
      obtain ⟨hlb, hzb⟩ := hb.words wb hbitsb
      rw [bools_of_some hbitsa, bools_of_some hbitsb] at h
      refine congrArg some (ext_of_bit (by rw [hla, hlb]) fun i => ?_)
      by_cases hi : i < n
      · simpa [getElem?_toBools hi] using congrArg (·[i]?) h
      · rw [hza i (by simp at hi ⊢; omega), hzb i (by simp at hi ⊢; omega)]

/-- The bits of a valid bitmap with no set bit, and with no clear bit. -/
theorem Valid.bools_of_count (ha : a.Valid) :
    (a.countOnes = 0 → a.bools = List.replicate a.numBits false) ∧
      (a.countOnes = a.numBits → a.bools = List.replicate a.numBits true) := by
  rw [← length_bools, ha.countOnes_eq]
  exact eq_replicate_of_count

/-! ## Building from words -/

/-- Words holding `n` bits: `vec_len n` of them, with no bit set from `n` on. -/
structure WordsOf (n : ℕ) (buf : List (BitVec 64)) : Prop where
  length_eq : buf.length = vecLen n
  zeroFrom : ZeroFrom n buf

section FromWords

variable {buf : List (BitVec 64)}

@[simp] theorem fromVecWithLen_numBits : (fromVecWithLen buf n).numBits = n := rfl

@[simp] theorem fromVecWithLen_countOnes : (fromVecWithLen buf n).countOnes = countOnesOf buf :=
  rfl

theorem fromVecWithLen_bits :
    (fromVecWithLen buf n).bits =
      if countOnesOf buf ≠ 0 ∧ countOnesOf buf ≠ n then some buf else none := rfl

theorem Valid.wordsOf (ha : a.Valid) (h : a.bits = some ws) : WordsOf a.numBits ws :=
  ⟨(ha.words ws h).1, (ha.words ws h).2⟩

/-- Below `2 ^ 32` bits the `u32` count does not wrap. -/
theorem WordsOf.countOnesOf_eq (h : WordsOf n buf) (h32 : n < 2 ^ 32) :
    countOnesOf buf = (toBools buf n).count true := by
  have hcount : countSet buf = (toBools buf n).count true :=
    countSet_eq_count_toBools h.zeroFrom (h.length_eq ▸ le_mul_vecLen n)
  have hle : (toBools buf n).count true ≤ n := by
    simpa using List.count_le_length (a := true) (l := toBools buf n)
  rw [countOnesOf, hcount, Nat.mod_eq_of_lt (by omega)]

theorem fromVecWithLen_bools (h : WordsOf n buf) (h32 : n < 2 ^ 32) :
    (fromVecWithLen buf n).bools = toBools buf n := by
  by_cases hc : countOnesOf buf ≠ 0 ∧ countOnesOf buf ≠ n
  · exact bools_of_some (by rw [fromVecWithLen_bits, if_pos hc])
  · -- no words: the count is none or all of the bits
    rw [bools_of_none (by rw [fromVecWithLen_bits, if_neg hc])]
    have hcount := h.countOnesOf_eq h32
    have hrep := eq_replicate_of_count (l := toBools buf n)
    rw [length_toBools] at hrep
    rcases not_and_or.mp hc with h0 | hn
    · rw [not_not] at h0
      rw [hrep.1 (by omega)]
      simp [h0]
    · rw [not_not] at hn
      rw [hrep.2 (by omega)]
      by_cases hn0 : n = 0
      · simp [hn0]
      · simp [hn, hn0]

/-- `from_vec_with_len` on the words of `n` bits: a valid bitmap with their bits. -/
theorem fromVecWithLen_valid (h : WordsOf n buf) (h32 : n < 2 ^ 32) :
    (fromVecWithLen buf n).Valid where
  countOnes_eq := by
    rw [fromVecWithLen_bools h h32, fromVecWithLen_countOnes, h.countOnesOf_eq h32]
  bits_eq_none := by
    rw [fromVecWithLen_bits, fromVecWithLen_countOnes, fromVecWithLen_numBits]
    split_ifs with hc <;> simp only [false_iff, true_iff] <;> tauto
  words := by
    intro ws hws
    rw [fromVecWithLen_bits] at hws
    split_ifs at hws
    cases hws
    exact ⟨h.length_eq, h.zeroFrom⟩

/-- A valid bitmap is `from_vec_with_len` of its words. -/
theorem fromVecWithLen_of_valid (ha : a.Valid) (h : a.bits = some ws) (h32 : a.numBits < 2 ^ 32) :
    fromVecWithLen ws a.numBits = a :=
  Valid.ext (fromVecWithLen_valid (ha.wordsOf h) h32) ha
    (by rw [fromVecWithLen_bools (ha.wordsOf h) h32, bools_of_some h])

end FromWords

/-! ## Constructors -/

@[simp] theorem bools_zeros (n : ℕ) : (zeros n).bools = List.replicate n false :=
  bools_of_none rfl

@[simp] theorem bools_ones (n : ℕ) : (ones n).bools = List.replicate n true := by
  rw [bools_of_none rfl]
  by_cases hn : n = 0 <;> simp [ones, hn]

theorem zeros_valid (n : ℕ) : (zeros n).Valid where
  countOnes_eq := by rw [bools_zeros, List.count_replicate]; simp [zeros]
  bits_eq_none := by simp [zeros]
  words := by simp [zeros]

theorem ones_valid (n : ℕ) : (ones n).Valid where
  countOnes_eq := by rw [bools_ones]; simp [ones]
  bits_eq_none := by simp [ones]
  words := by simp [ones]

/-! ## From bools and from bytes -/

section FromBools

variable {l : List Bool}

theorem getLsbD_toBitmask (chunk : List Bool) (m : ℕ) :
    (toBitmask chunk).getLsbD m = (decide (m < 64) && chunk.getD m false) := by
  simp [toBitmask]

/-- The loop of `from_bool_slice` from index `s` on: it sets the bits `s, s + 1, ...` to the
bools. -/
theorem getLsbD_foldl_zipIdx (l : List Bool) (s : ℕ) (acc : BitVec 64) (hl : s + l.length ≤ 64)
    (m : ℕ) :
    ((l.zipIdx s).foldl (fun bitmask (b, i) => bitmask ||| BitVec.ofNat 64 b.toNat <<< i)
        acc).getLsbD m = (acc.getLsbD m || (decide (s ≤ m) && l.getD (m - s) false)) := by
  induction l generalizing s acc with
  | nil => simp
  | cons b l ih =>
    simp only [List.zipIdx_cons, List.foldl_cons]
    rw [ih (s + 1) _ (by simp at hl; omega), BitVec.getLsbD_or,
      getLsbD_ofBool_shiftLeft b (by simp at hl; omega)]
    rcases Nat.lt_trichotomy m s with hm | rfl | hm
    · simp [show ¬ s ≤ m by omega, show ¬ s + 1 ≤ m by omega, show m ≠ s by omega]
    · simp
    · simp [show s ≤ m by omega, show s + 1 ≤ m by omega, show m ≠ s by omega,
        show m - s = (m - (s + 1)) + 1 by omega]

theorem getLsbD_remainderBitmask (h : l.length ≤ 64) (m : ℕ) :
    (remainderBitmask l).getLsbD m = l.getD m false := by
  rw [remainderBitmask, getLsbD_foldl_zipIdx l 0 0 (by omega)]
  simp

/-- The words of `from_bool_slice` hold the bools, and nothing past them. -/
theorem bit_boolSliceWords (l : List Bool) (i : ℕ) : bit (boolSliceWords l) i = l.getD i false := by
  have hchunks : ∀ i, i < 64 * (l.length / 64) →
      bit ((List.range (l.length / 64)).map fun j => toBitmask ((l.drop (64 * j)).take 64)) i =
        l.getD i false := by
    intro i hi
    rw [bit_eq_getLsbD (by simp; omega)]
    simp only [List.getElem_map, List.getElem_range, getLsbD_toBitmask]
    simp [Nat.mod_lt, show 64 * (i / 64) + i % 64 = i by omega]
  have hpast : ∀ i, l.length ≤ i → l.getD i false = false := fun i hi => by simp [hi]
  dsimp only [boolSliceWords]
  split_ifs with hrem <;> simp only [BITS_eq] at hrem ⊢
  · -- no remainder: the chunks cover the bools
    have hlen : l.length = 64 * (l.length / 64) := by
      have := List.isEmpty_iff.mp hrem
      simp at this
      omega
    by_cases hi : i < 64 * (l.length / 64)
    · exact hchunks i hi
    · rw [bit_eq_false_of_le (by simp; omega), hpast i (by omega)]
  · rw [bit_append]
    split_ifs with hi
    · exact hchunks i (by simpa using hi)
    · -- the remainder word holds the bools from the last whole chunk on
      simp only [List.length_map, List.length_range] at hi ⊢
      by_cases hw : i - 64 * (l.length / 64) < 64
      · rw [bit_eq_getLsbD (by simp; omega)]
        simp only [List.getElem_singleton, show (i - 64 * (l.length / 64)) / 64 = 0 by omega]
        rw [getLsbD_remainderBitmask (by simp; omega)]
        simp [Nat.mod_eq_of_lt hw, show 64 * (l.length / 64) + (i - 64 * (l.length / 64)) = i by
          omega]
      · rw [bit_eq_false_of_le (by simp; omega), hpast i (by omega)]

theorem length_boolSliceWords (l : List Bool) : (boolSliceWords l).length = vecLen l.length := by
  dsimp only [boolSliceWords]
  split_ifs with hrem <;> simp only [BITS_eq, vecLen_eq] at hrem ⊢
  · have := List.isEmpty_iff.mp hrem
    simp at this
    simp
    omega
  · have := hrem
    simp at this
    simp
    omega

theorem boolSliceWords_wordsOf (l : List Bool) : WordsOf l.length (boolSliceWords l) :=
  ⟨length_boolSliceWords l, fun i hi => by rw [bit_boolSliceWords]; simp [hi]⟩

theorem bools_fromBoolSlice (h32 : l.length < 2 ^ 32) : (fromBoolSlice l).bools = l := by
  rw [fromBoolSlice, fromVecWithLen_bools (boolSliceWords_wordsOf l) h32]
  apply List.ext_getElem (by simp)
  intro i hi _
  simp at hi
  simp [getElem_toBools, bit_boolSliceWords, hi]

theorem fromBoolSlice_valid (h32 : l.length < 2 ^ 32) : (fromBoolSlice l).Valid :=
  fromVecWithLen_valid (boolSliceWords_wordsOf l) h32

end FromBools

section FromBytes

variable {buf : List UInt8}

/-- `from_bytes_with_len` on bytes that fit and have nothing set past `n`: a valid bitmap
with their first `n` bits. -/
theorem fromBytesWithLen_spec (hbuf : buf.length ≤ 8 * vecLen n)
    (hz : ∀ i, n ≤ i → byteBit buf i = false) (h32 : n < 2 ^ 32) :
    ∃ c, fromBytesWithLen buf n = some c ∧ c.Valid ∧ c.bools = (List.range n).map (byteBit buf) := by
  have hwords : WordsOf n (wordsOfBytes buf (vecLen n)) :=
    ⟨length_wordsOfBytes, fun i hi => by rw [bit_wordsOfBytes, hz i hi, Bool.and_false]⟩
  refine ⟨_, by rw [fromBytesWithLen, if_pos (by simpa [mul_comm] using hbuf)],
    fromVecWithLen_valid hwords h32, ?_⟩
  rw [fromVecWithLen_bools hwords h32, toBools]
  exact List.map_congr_left fun i hi => by
    have := le_mul_vecLen n
    simp at hi
    simp [bit_wordsOfBytes, show i < 64 * vecLen n by omega]

/-- `from_bytes`: a valid bitmap with every bit of the bytes. -/
theorem fromBytes_spec (h32 : buf.length * 8 < 2 ^ 32) :
    ∃ c, fromBytes buf = some c ∧ c.Valid ∧
      c.bools = (List.range (buf.length * 8)).map (byteBit buf) :=
  fromBytesWithLen_spec (by rw [vecLen_eq]; omega)
    (fun _ hi => byteBit_eq_false_of_le (by omega)) h32

theorem fromBytes_spec_two_bytes :
    ∃ c, fromBytes [0x56, 0xad] = some c ∧ c.Valid ∧
      c.bools = (List.range ([(0x56 : UInt8), 0xad].length * 8)).map (byteBit [0x56, 0xad]) :=
  fromBytes_spec (by norm_num)

end FromBytes

/-! ## Bitwise operators -/

section Operators

/-- A valid bitmap with no words and some set bit has all its bits set. -/
theorem Valid.countOnes_of_none (ha : a.Valid) (h : a.bits = none) (h0 : a.countOnes ≠ 0) :
    a.countOnes = a.numBits :=
  (ha.bits_eq_none.mp h).resolve_left h0

/-- Words of `n` bits combined word by word with an operation that keeps clear bits clear. -/
theorem WordsOf.zipWith {f : BitVec 64 → BitVec 64 → BitVec 64} {op : Bool → Bool → Bool}
    {l r : List (BitVec 64)} (hl : WordsOf n l) (hr : WordsOf n r)
    (hf : ∀ x y m, (f x y).getLsbD m = op (x.getLsbD m) (y.getLsbD m))
    (hop : op false false = false) : WordsOf n (List.zipWith f l r) where
  length_eq := by simp [hl.length_eq, hr.length_eq]
  zeroFrom i hi := by
    rw [bit_zipWith hf hop (hl.length_eq.trans hr.length_eq.symm), hl.zeroFrom i hi,
      hr.zeroFrom i hi, hop]

theorem toBools_zipWith {f : BitVec 64 → BitVec 64 → BitVec 64} {op : Bool → Bool → Bool}
    {l r : List (BitVec 64)} (hlen : l.length = r.length)
    (hf : ∀ x y m, (f x y).getLsbD m = op (x.getLsbD m) (y.getLsbD m))
    (hop : op false false = false) :
    toBools (List.zipWith f l r) n = List.zipWith op (toBools l n) (toBools r n) := by
  apply List.ext_getElem (by simp)
  intro i h _
  simp only [List.getElem_zipWith, getElem_toBools, bit_zipWith hf hop hlen]

/-- Both operands with words: the words combined by `from_vec_with_len`. -/
theorem fromVecWithLen_zipWith_spec {f : BitVec 64 → BitVec 64 → BitVec 64}
    {op : Bool → Bool → Bool} (ha : a.Valid) (hb : b.Valid) (hn : a.numBits = b.numBits)
    (h32 : a.numBits < 2 ^ 32) {wa wb : List (BitVec 64)} (hwa : a.bits = some wa)
    (hwb : b.bits = some wb) (hf : ∀ x y m, (f x y).getLsbD m = op (x.getLsbD m) (y.getLsbD m))
    (hop : op false false = false) :
    (fromVecWithLen (List.zipWith f wa wb) a.numBits).Valid ∧
      (fromVecWithLen (List.zipWith f wa wb) a.numBits).bools =
        List.zipWith op a.bools b.bools := by
  have hla := ha.wordsOf hwa
  have hlb : WordsOf a.numBits wb := hn ▸ hb.wordsOf hwb
  have hwords := hla.zipWith hlb hf hop
  refine ⟨fromVecWithLen_valid hwords h32, ?_⟩
  rw [fromVecWithLen_bools hwords h32, bools_of_some hwa, bools_of_some hwb, ← hn,
    toBools_zipWith (hla.length_eq.trans hlb.length_eq.symm) hf hop]

/-- `!bitmap`: a valid bitmap with every bit flipped. -/
theorem not_spec (ha : a.Valid) :
    ∃ c, a.not = some c ∧ c.Valid ∧ c.bools = a.bools.map (!·) := by
  cases hbits : a.bits with
  | none =>
    rw [not, hbits]
    by_cases h0 : a.countOnes = 0
    · refine ⟨_, by rw [if_pos h0], ones_valid _, ?_⟩
      rw [bools_ones, (ha.bools_of_count).1 h0]
      simp
    · refine ⟨_, by rw [if_neg h0], zeros_valid _, ?_⟩
      rw [bools_zeros, (ha.bools_of_count).2 (ha.countOnes_of_none hbits h0)]
      simp
  | some ws =>
    have hw := ha.wordsOf hbits
    obtain ⟨hc0, hcn⟩ : a.countOnes ≠ 0 ∧ a.countOnes ≠ a.numBits := by
      have := ha.bits_eq_none
      simp [hbits] at this
      exact this
    have hcle : a.countOnes ≤ a.numBits := by
      rw [ha.countOnes_eq, ← length_bools]
      exact List.count_le_length
    -- the negated words, with the bits past the length cleared again when it ends mid-word
    let ws' := if a.numBits % 64 ≠ 0 then
      (ws.map (~~~ ·)).modify (a.numBits / 64) (· &&& lowMask (a.numBits % 64)) else ws.map (~~~ ·)
    have hbit : ∀ i, bit ws' i = (decide (i < a.numBits) && !bit ws i) := by
      intro i
      have hlen := hw.length_eq
      rw [vecLen_eq] at hlen
      by_cases hm : a.numBits % 64 = 0
      · simp only [ws', hm, ne_eq, not_true_eq_false, if_false, bit_map_not]
        rw [hlen, show 64 * ((a.numBits + 63) / 64) = a.numBits by omega]
      · simp only [ws', hm, ne_eq, not_false_eq_true, if_true, bit_modify, List.length_map,
          bit_map_not]
        by_cases hi : i / 64 = a.numBits / 64
        · -- the last word: its bits below the length flipped, the rest cleared
          have hj : a.numBits / 64 < ws.length := by omega
          have hword : bit ws i = (word ws (a.numBits / 64)).getLsbD (i % 64) := by rw [bit, hi]
          have hword' : word (ws.map (~~~ ·)) (a.numBits / 64) = ~~~ word ws (a.numBits / 64) := by
            simp [word, List.getElem?_eq_getElem hj]
          rw [if_pos ⟨hi, by simpa using hj⟩, hword', hword, BitVec.getLsbD_and,
            getLsbD_lowMask (Nat.mod_lt _ (by norm_num)), BitVec.getLsbD_not]
          simp [Nat.mod_lt, show i % 64 < a.numBits % 64 ↔ i < a.numBits by omega, Bool.and_comm]
        · rw [if_neg (fun h => hi h.1)]
          by_cases hin : i < a.numBits
          · simp [hin, show i < 64 * ws.length by omega]
          · simp [hin, show ¬ i < 64 * ws.length by omega]
    have hwords : WordsOf a.numBits ws' :=
      ⟨by simp only [ws']; split_ifs <;> simp [hw.length_eq],
        fun i hi => by rw [hbit]; simp [show ¬ i < a.numBits by omega]⟩
    have hbools : toBools ws' a.numBits = a.bools.map (!·) := by
      rw [bools_of_some hbits]
      apply List.ext_getElem (by simp)
      intro i h _
      simp at h
      simp [getElem_toBools, hbit, h]
    refine ⟨⟨a.numBits, a.numBits - a.countOnes, some ws'⟩, ?_, ⟨?_, ?_, ?_⟩, ?_⟩
    · rw [not, hbits]
      simp only [ws', BITS_eq]
      by_cases hm : a.numBits % 64 = 0
      · simp [hm]
      · have hlt : a.numBits / 64 < ws.length := by
          rw [hw.length_eq, vecLen_eq]
          omega
        simp [hm, hlt]
    · -- the flipped count is the count of the flipped bits
      rw [bools_of_some rfl, hbools]
      have hflip := List.count_map_of_injective a.bools (!·) (fun x y h => by simpa using h) false
      simp only [Bool.not_false] at hflip
      have htotal := List.count_false_add_count_true a.bools
      rw [length_bools] at htotal
      rw [hflip, ha.countOnes_eq]
      dsimp only
      omega
    · simp only [reduceCtorEq, false_iff]
      omega
    · intro ws'' h
      cases h
      exact ⟨hwords.length_eq, hwords.zeroFrom⟩
    · rw [bools_of_some rfl, hbools]

/-- `&`: a valid bitmap with the bits of both. -/
theorem bitand_spec (ha : a.Valid) (hb : b.Valid) (hn : a.numBits = b.numBits)
    (h32 : a.numBits < 2 ^ 32) :
    ∃ c, a.bitand b = some c ∧ c.Valid ∧ c.bools = List.zipWith (· && ·) a.bools b.bools := by
  have hlen : a.bools.length = b.bools.length := by simp [hn]
  rw [bitand, if_neg (not_not.mpr hn)]
  by_cases hz : a.countOnes = 0 ∨ b.countOnes = 0
  · -- a side with no set bit: all clear
    refine ⟨_, by rw [if_pos hz], zeros_valid _, ?_⟩
    apply List.ext_getElem (by simp [hn])
    intro i h _
    rcases hz with hz | hz
    · simp [(ha.bools_of_count).1 hz]
    · simp [(hb.bools_of_count).1 hz]
  · rw [if_neg hz]
    obtain ⟨hza, hzb⟩ := not_or.mp hz
    cases hwb : b.bits with
    | none =>
      -- the right side has every bit set
      refine ⟨a, rfl, ha, ?_⟩
      apply List.ext_getElem (by simp [hn])
      intro i h _
      simp [(hb.bools_of_count).2 (hb.countOnes_of_none hwb hzb)]
    | some wb =>
      cases hwa : a.bits with
      | none =>
        refine ⟨b, rfl, hb, ?_⟩
        apply List.ext_getElem (by simp [hn])
        intro i h _
        simp [(ha.bools_of_count).2 (ha.countOnes_of_none hwa hza)]
      | some wa =>
        exact ⟨_, rfl, fromVecWithLen_zipWith_spec ha hb hn h32 hwa hwb
          (fun _ _ _ => BitVec.getLsbD_and) rfl⟩

/-- `|`: a valid bitmap with the bits of either. -/
theorem bitor_spec (ha : a.Valid) (hb : b.Valid) (hn : a.numBits = b.numBits)
    (h32 : a.numBits < 2 ^ 32) :
    ∃ c, a.bitor b = some c ∧ c.Valid ∧ c.bools = List.zipWith (· || ·) a.bools b.bools := by
  rw [bitor, if_neg (not_not.mpr hn)]
  by_cases hz : a.countOnes = a.numBits ∨ b.countOnes = a.numBits
  · -- a side with every bit set: all set
    refine ⟨_, by rw [if_pos hz], ones_valid _, ?_⟩
    apply List.ext_getElem (by simp [hn])
    intro i h _
    rcases hz with hz | hz
    · simp [(ha.bools_of_count).2 hz]
    · simp [(hb.bools_of_count).2 (hz.trans hn)]
  · rw [if_neg hz]
    obtain ⟨hza, hzb⟩ := not_or.mp hz
    cases hwb : b.bits with
    | none =>
      -- the right side has no set bit
      have h0 : b.countOnes = 0 := (hb.bits_eq_none.mp hwb).resolve_right (hn ▸ hzb)
      refine ⟨a, rfl, ha, ?_⟩
      apply List.ext_getElem (by simp [hn])
      intro i h _
      simp [(hb.bools_of_count).1 h0]
    | some wb =>
      cases hwa : a.bits with
      | none =>
        have h0 : a.countOnes = 0 := (ha.bits_eq_none.mp hwa).resolve_right hza
        refine ⟨b, rfl, hb, ?_⟩
        apply List.ext_getElem (by simp [hn])
        intro i h _
        simp [(ha.bools_of_count).1 h0]
      | some wa =>
        exact ⟨_, rfl, fromVecWithLen_zipWith_spec ha hb hn h32 hwa hwb
          (fun _ _ _ => BitVec.getLsbD_or) rfl⟩

/-- `^`: a valid bitmap with the bits set on one side only. -/
theorem bitxor_spec (ha : a.Valid) (hb : b.Valid) (hn : a.numBits = b.numBits)
    (h32 : a.numBits < 2 ^ 32) :
    ∃ c, a.bitxor b = some c ∧ c.Valid ∧ c.bools = List.zipWith (· ^^ ·) a.bools b.bools := by
  rw [bitxor, if_neg (not_not.mpr hn)]
  cases hwb : b.bits with
  | none =>
    by_cases h0 : b.countOnes = 0
    · refine ⟨a, by simp [h0], ha, ?_⟩
      apply List.ext_getElem (by simp [hn])
      intro i h _
      simp [(hb.bools_of_count).1 h0]
    · -- the right side has every bit set: the left one flipped
      obtain ⟨c, hc, hcv, hcb⟩ := not_spec ha
      refine ⟨c, by simp [h0, hc], hcv, ?_⟩
      rw [hcb]
      apply List.ext_getElem (by simp [hn])
      intro i h _
      simp [(hb.bools_of_count).2 (hb.countOnes_of_none hwb h0)]
  | some wb =>
    cases hwa : a.bits with
    | none =>
      by_cases h0 : a.countOnes = 0
      · refine ⟨b, by simp [h0], hb, ?_⟩
        apply List.ext_getElem (by simp [hn])
        intro i h _
        simp [(ha.bools_of_count).1 h0]
      · obtain ⟨c, hc, hcv, hcb⟩ := not_spec hb
        refine ⟨c, by simp [h0, hc], hcv, ?_⟩
        rw [hcb]
        apply List.ext_getElem (by simp [hn])
        intro i h _
        simp [(ha.bools_of_count).2 (ha.countOnes_of_none hwa h0)]
    | some wa =>
      exact ⟨_, rfl, fromVecWithLen_zipWith_spec ha hb hn h32 hwa hwb
        (fun _ _ _ => BitVec.getLsbD_xor) rfl⟩

theorem bitxor_spec_two_words :
    ∃ c, (fromBoolSlice [true, false, true]).bitxor (fromBoolSlice [true, true, false]) = some c ∧
      c.Valid ∧ c.bools = List.zipWith (· ^^ ·) (fromBoolSlice [true, false, true]).bools
        (fromBoolSlice [true, true, false]).bools :=
  bitxor_spec (fromBoolSlice_valid (by norm_num)) (fromBoolSlice_valid (by norm_num)) rfl
    (by norm_num [fromBoolSlice])

end Operators

end Bitmap

end RisingWave.Common.Buffer
