import Mathlib
import RisingWave.Lib.ByteCodec

/-!
# Bits packed into machine words

An array of bits kept in 64-bit words: bit `i` is bit `i % 64` of word `i / 64`, least
significant first, and in memory the words are their little-endian bytes. `bit ws i` reads
bit `i`, a missing word reading as zero, and `toBools ws n` is the array of the first `n`
bits. This file says how the word operations act on the bits: the bitwise operations word by
word, writing one word, appending and cutting words, counting the set bits; and how a byte
array and the words made of it share their bits. Arrays of words of one length with the same
bits are equal (`ext_of_bit`).
-/

namespace PackedBits

open ByteCodec

/-- Word `j`, zero past the end. -/
def word (ws : List (BitVec 64)) (j : ℕ) : BitVec 64 := ws[j]?.getD 0

/-- Bit `i`. -/
def bit (ws : List (BitVec 64)) (i : ℕ) : Bool := (word ws (i / 64)).getLsbD (i % 64)

/-- The first `n` bits. -/
def toBools (ws : List (BitVec 64)) (n : ℕ) : List Bool := (List.range n).map (bit ws)

/-- No bit is set from `n` on. -/
def ZeroFrom (n : ℕ) (ws : List (BitVec 64)) : Prop := ∀ i, n ≤ i → bit ws i = false

/-- The number of set bits, word by word. -/
def countSet (ws : List (BitVec 64)) : ℕ := (ws.map fun x => x.cpop.toNat).sum

/-- The mask of the bits below `k`: `(1 << k) - 1`. -/
def lowMask (k : ℕ) : BitVec 64 := (1#64 <<< k) - 1

section Bits

variable {ws l r : List (BitVec 64)} {i j k n : ℕ}

theorem bit_eq_false_of_le (h : 64 * ws.length ≤ i) : bit ws i = false := by
  have hnone : ws[i / 64]? = none := List.getElem?_eq_none (by omega)
  simp [bit, word, hnone]

theorem bit_eq_getLsbD (h : i / 64 < ws.length) : bit ws i = ws[i / 64].getLsbD (i % 64) := by
  simp [bit, word, List.getElem?_eq_getElem h]

@[simp] theorem length_toBools : (toBools ws n).length = n := by simp [toBools]

theorem getElem?_toBools (h : i < n) : (toBools ws n)[i]? = some (bit ws i) := by
  simp [toBools, h]

theorem getElem_toBools (h : i < (toBools ws n).length) :
    (toBools ws n)[i] = bit ws i := by
  simp [toBools]

/-- The first bits of words, given bit by bit. -/
theorem toBools_eq_of_bit {d : List (BitVec 64)} {l : List Bool}
    (h : ∀ i, i < l.length → bit d i = l.getD i false) : toBools d l.length = l := by
  apply List.ext_getElem (by simp)
  intro i hi _
  simp only [length_toBools] at hi
  rw [getElem_toBools, h i hi]
  simp [hi]

/-- Word arrays of one length are equal when their bits are. -/
theorem ext_of_bit (hlen : l.length = r.length) (h : ∀ i, bit l i = bit r i) : l = r := by
  apply List.ext_getElem hlen
  intro j hl hr
  apply BitVec.eq_of_getLsbD_eq
  intro m hm
  have hbit := h (64 * j + m)
  have hdiv : (64 * j + m) / 64 = j := by omega
  have hmod : (64 * j + m) % 64 = m := by omega
  rwa [bit_eq_getLsbD (by omega), bit_eq_getLsbD (by omega), getElem_congr_idx hdiv,
    getElem_congr_idx hdiv, hmod] at hbit

/-- A word operation that acts bit by bit, with `op false false = false`, acts on every bit of
two arrays of one length. -/
theorem bit_zipWith {f : BitVec 64 → BitVec 64 → BitVec 64} {op : Bool → Bool → Bool}
    (hf : ∀ x y m, (f x y).getLsbD m = op (x.getLsbD m) (y.getLsbD m))
    (hop : op false false = false) (hlen : l.length = r.length) (i : ℕ) :
    bit (List.zipWith f l r) i = op (bit l i) (bit r i) := by
  by_cases hi : i / 64 < l.length
  · have hi' : i / 64 < r.length := hlen ▸ hi
    rw [bit_eq_getLsbD (by simp [hi, hi']), bit_eq_getLsbD hi, bit_eq_getLsbD hi',
      List.getElem_zipWith, hf]
  · rw [bit_eq_false_of_le (by simp; omega), bit_eq_false_of_le (by omega),
      bit_eq_false_of_le (by omega), hop]

theorem bit_zipWith_and (hlen : l.length = r.length) (i : ℕ) :
    bit (List.zipWith (· &&& ·) l r) i = (bit l i && bit r i) :=
  bit_zipWith (fun _ _ _ => BitVec.getLsbD_and) rfl hlen i

theorem bit_zipWith_or (hlen : l.length = r.length) (i : ℕ) :
    bit (List.zipWith (· ||| ·) l r) i = (bit l i || bit r i) :=
  bit_zipWith (fun _ _ _ => BitVec.getLsbD_or) rfl hlen i

theorem bit_zipWith_xor (hlen : l.length = r.length) (i : ℕ) :
    bit (List.zipWith (· ^^^ ·) l r) i = (bit l i ^^ bit r i) :=
  bit_zipWith (fun _ _ _ => BitVec.getLsbD_xor) rfl hlen i

theorem bit_map_not (i : ℕ) :
    bit (ws.map (~~~ ·)) i = (decide (i < 64 * ws.length) && !bit ws i) := by
  by_cases hi : i / 64 < ws.length
  · rw [bit_eq_getLsbD (by simpa using hi), bit_eq_getLsbD hi, List.getElem_map,
      BitVec.getLsbD_not]
    simp [Nat.mod_lt, show i < 64 * ws.length by omega]
  · rw [bit_eq_false_of_le (by simp; omega), bit_eq_false_of_le (by omega)]
    simp [show ¬ i < 64 * ws.length by omega]

/-- Writing word `j` changes the bits of word `j` only. -/
theorem bit_modify (f : BitVec 64 → BitVec 64) (i : ℕ) :
    bit (ws.modify j f) i =
      if i / 64 = j ∧ j < ws.length then (f (word ws j)).getLsbD (i % 64) else bit ws i := by
  simp only [bit, word, List.getElem?_modify]
  by_cases hj : i / 64 = j
  · subst hj
    by_cases hlt : i / 64 < ws.length
    · simp [hlt]
    · simp [hlt]
  · rcases h : ws[i / 64]? with _ | x <;> simp [hj, Ne.symm hj]

theorem bit_append (i : ℕ) :
    bit (l ++ r) i = if i < 64 * l.length then bit l i else bit r (i - 64 * l.length) := by
  split_ifs with hi
  · rw [bit_eq_getLsbD (by simp; omega), bit_eq_getLsbD (by omega), List.getElem_append_left]
  · have hdiv : (i - 64 * l.length) / 64 = i / 64 - l.length := by omega
    have hmod : (i - 64 * l.length) % 64 = i % 64 := by omega
    simp only [bit, word, hdiv, hmod, List.getElem?_append_right (show l.length ≤ i / 64 by omega)]

theorem bit_take (i : ℕ) : bit (ws.take k) i = (decide (i < 64 * k) && bit ws i) := by
  by_cases hi : i < 64 * k
  · simp only [bit, word, List.getElem?_take, show i / 64 < k by omega, if_true, hi,
      decide_true, Bool.true_and]
  · rw [bit_eq_false_of_le (by simp; omega)]
    simp [hi]

theorem bit_replicate (x : BitVec 64) (i : ℕ) :
    bit (List.replicate k x) i = (decide (i < 64 * k) && x.getLsbD (i % 64)) := by
  by_cases hi : i < 64 * k
  · rw [bit_eq_getLsbD (by simp; omega), List.getElem_replicate]
    simp [hi]
  · rw [bit_eq_false_of_le (by simp; omega)]
    simp [hi]

theorem getLsbD_one_shiftLeft (hk : k < 64) (m : ℕ) : (1#64 <<< k).getLsbD m = decide (m = k) := by
  simp only [BitVec.getLsbD_shiftLeft, BitVec.getLsbD_one]
  by_cases h : m = k
  · simp [h, hk]
  · simp [h]
    omega

theorem getLsbD_ofBool_shiftLeft (b : Bool) (hk : k < 64) (m : ℕ) :
    (BitVec.ofNat 64 b.toNat <<< k).getLsbD m = (b && decide (m = k)) := by
  cases b with
  | false => simp
  | true => simpa using getLsbD_one_shiftLeft hk m

/-- Testing a word against a one-bit mask reads that bit. -/
theorem and_one_shiftLeft_ne_zero (x : BitVec 64) (hk : k < 64) :
    ((x &&& 1#64 <<< k) != 0) = x.getLsbD k := by
  have hbits : ∀ m, (x &&& 1#64 <<< k).getLsbD m = (decide (m = k) && x.getLsbD k) := by
    intro m
    rw [BitVec.getLsbD_and, getLsbD_one_shiftLeft hk]
    by_cases h : m = k <;> simp [h]
  cases hx : x.getLsbD k with
  | false =>
    have hzero : x &&& 1#64 <<< k = 0 := BitVec.eq_of_getLsbD_eq fun m _ => by simp [hbits, hx]
    simp [hzero]
  | true =>
    have hne : x &&& 1#64 <<< k ≠ 0 := fun h => by simpa [h, hx] using hbits k
    simpa using hne

theorem getLsbD_lowMask (hk : k < 64) (m : ℕ) : (lowMask k).getLsbD m = decide (m < k) := by
  have hpow : 2 ^ k < 2 ^ 64 := Nat.pow_lt_pow_right (by norm_num) hk
  have hone : (1#64 <<< k).toNat = 2 ^ k := by
    rw [BitVec.toNat_shiftLeft, BitVec.toNat_ofNat, Nat.shiftLeft_eq]
    simpa using hpow
  have hmask : (lowMask k).toNat = 2 ^ k - 1 := by
    have hpos := Nat.two_pow_pos k
    have hone' : (1 : BitVec 64).toNat = 1 := rfl
    rw [lowMask, BitVec.toNat_sub, hone, hone']
    omega
  rw [BitVec.getLsbD, hmask, Nat.testBit_two_pow_sub_one]

end Bits

/-! ## Writing bits -/

section Write

variable {ws : List (BitVec 64)} {k n : ℕ}

/-- Setting or clearing bit `k` of a word. -/
theorem getLsbD_setBit (w : BitVec 64) (v : Bool) (hk : k < 64) (m : ℕ) :
    (if v then w ||| 1#64 <<< k else w &&& ~~~(1#64 <<< k)).getLsbD m =
      if m = k then v else w.getLsbD m := by
  cases v with
  | false =>
    simp only [Bool.false_eq_true, if_false, BitVec.getLsbD_and, BitVec.getLsbD_not,
      getLsbD_one_shiftLeft hk]
    by_cases hm : m = k
    · simp [hm]
    · by_cases hm64 : m < 64
      · simp [hm, hm64]
      · simp [hm, BitVec.getLsbD_of_ge w m (by omega)]
  | true =>
    simp only [if_true, BitVec.getLsbD_or, getLsbD_one_shiftLeft hk]
    by_cases hm : m = k <;> simp [hm]

/-- Writing bit `n` of the words. -/
theorem bit_modify_setBit (v : Bool) (h : n / 64 < ws.length) (i : ℕ) :
    bit (ws.modify (n / 64) fun w =>
        if v then w ||| 1#64 <<< (n % 64) else w &&& ~~~(1#64 <<< (n % 64))) i =
      if i = n then v else bit ws i := by
  rw [bit_modify]
  by_cases hi : i / 64 = n / 64
  · rw [if_pos ⟨hi, h⟩, getLsbD_setBit _ _ (Nat.mod_lt _ (by norm_num)), bit, hi]
    by_cases hin : i = n
    · simp [hin]
    · simp [hin, show i % 64 ≠ n % 64 by omega]
  · rw [if_neg (fun h' => hi h'.1), if_neg (by omega)]

/-- Or-ing a bit into bit `n` of the words. -/
theorem bit_modify_orBit (v : Bool) (h : n / 64 < ws.length) (i : ℕ) :
    bit (ws.modify (n / 64) (· ||| BitVec.ofNat 64 v.toNat <<< (n % 64))) i =
      (bit ws i || (v && decide (i = n))) := by
  rw [bit_modify]
  by_cases hi : i / 64 = n / 64
  · rw [if_pos ⟨hi, h⟩, BitVec.getLsbD_or, getLsbD_ofBool_shiftLeft _ (Nat.mod_lt _ (by norm_num)),
      bit, hi]
    by_cases hin : i = n
    · simp [hin]
    · simp [hin, show i % 64 ≠ n % 64 by omega]
  · rw [if_neg (fun h' => hi h'.1)]
    simp [show i ≠ n by omega]

/-- Masking the last of the words of `n` bits to its bits below `n`. -/
theorem bit_modify_lowMask (hlen : ws.length = (n + 63) / 64) (hn : n % 64 ≠ 0) (i : ℕ) :
    bit (ws.modify (n / 64) (· &&& lowMask (n % 64))) i = (decide (i < n) && bit ws i) := by
  rw [bit_modify]
  by_cases hi : i / 64 = n / 64
  · rw [if_pos ⟨hi, by omega⟩, BitVec.getLsbD_and, getLsbD_lowMask (Nat.mod_lt _ (by norm_num)),
      bit, hi, Bool.and_comm]
    simp [show i % 64 < n % 64 ↔ i < n by omega]
  · rw [if_neg (fun h' => hi h'.1)]
    by_cases hin : i < n
    · simp [hin]
    · rw [bit_eq_false_of_le (by omega)]
      simp

end Write

/-! ## The lowest set bit -/

section Lowest

/-- Clearing the lowest set bit, `x ^ (x & x.wrapping_neg())`, keeps the set bits above it. -/
theorem getLsbD_xor_and_neg {c : BitVec 64} (hc : c ≠ 0) (m : ℕ) :
    (c ^^^ (c &&& -c)).getLsbD m = (c.getLsbD m && decide (c.ctz.toNat < m)) := by
  have hbelow : (∃ j < m, c.getLsbD j = true) ↔ c.ctz.toNat < m := by
    constructor
    · rintro ⟨j, hj, hcj⟩
      by_contra hle
      rw [BitVec.getLsbD_false_of_lt_ctz (by omega)] at hcj
      exact Bool.false_ne_true hcj
    · intro h
      exact ⟨_, h, BitVec.getLsbD_true_ctz_of_ne_zero hc⟩
  rw [BitVec.getLsbD_xor, BitVec.getLsbD_and, BitVec.getLsbD_neg]
  cases hcm : c.getLsbD m with
  | false => simp
  | true =>
    have hm : m < 64 := by
      by_contra h
      rw [BitVec.getLsbD_of_ge c m (by omega)] at hcm
      exact Bool.false_ne_true hcm
    simp [hm, hbelow]

/-- The set bits of a nonzero word: its trailing zeros, then the set bits of the word with the
lowest one cleared. -/
theorem filter_range_getLsbD {c : BitVec 64} (hc : c ≠ 0) :
    (List.range 64).filter c.getLsbD =
      c.ctz.toNat :: (List.range 64).filter (c ^^^ (c &&& -c)).getLsbD := by
  have ht : c.ctz.toNat < 64 := by
    have := BitVec.ctz_lt_iff_ne_zero.mpr hc
    simpa [BitVec.lt_def] using this
  set t := c.ctz.toNat with ht_def
  have hsplit : List.range 64 = List.range t ++ t :: List.range' (t + 1) (63 - t) := by
    rw [List.range_eq_range', List.range_eq_range', show (64 : ℕ) = t + ((63 - t) + 1) by omega,
      ← List.range'_append_1, List.range'_succ]
    simp
  have hlow : ∀ m ∈ List.range t, c.getLsbD m = false := fun m hm =>
    BitVec.getLsbD_false_of_lt_ctz (List.mem_range.mp hm)
  have hc_low : (List.range t).filter c.getLsbD = [] :=
    List.filter_eq_nil_iff.mpr fun m hm => by simp [hlow m hm]
  have hc'_low : (List.range t).filter (c ^^^ (c &&& -c)).getLsbD = [] :=
    List.filter_eq_nil_iff.mpr fun m hm => by simp [getLsbD_xor_and_neg hc, hlow m hm]
  -- above the lowest set bit the two words agree
  have hhigh : (List.range' (t + 1) (63 - t)).filter c.getLsbD =
      (List.range' (t + 1) (63 - t)).filter (c ^^^ (c &&& -c)).getLsbD :=
    List.filter_congr fun m hm => by
      rw [getLsbD_xor_and_neg hc, ← ht_def]
      simp at hm
      simp [show t < m by omega]
  rw [hsplit, List.filter_append, List.filter_append, List.filter_cons, List.filter_cons, hc_low,
    hc'_low, if_pos (BitVec.getLsbD_true_ctz_of_ne_zero hc),
    if_neg (by simp [getLsbD_xor_and_neg hc, ← ht_def]), hhigh]
  simp

end Lowest

/-! ## Counting set bits -/

section Count

variable {ws : List (BitVec 64)} {n : ℕ}

theorem cpopNatRec_eq_count {w : ℕ} (x : BitVec w) (m acc : ℕ) :
    x.cpopNatRec m acc = acc + ((List.range m).map x.getLsbD).count true := by
  induction m generalizing acc with
  | zero => simp [BitVec.cpopNatRec]
  | succ m ih =>
    rw [BitVec.cpopNatRec_succ, ih, List.range_succ, List.map_append, List.count_append]
    cases hb : x.getLsbD m with
    | false => simp [hb]
    | true => simp [hb]; omega

theorem toNat_cpop_eq_count (x : BitVec 64) :
    x.cpop.toNat = ((List.range 64).map x.getLsbD).count true := by
  rw [BitVec.toNat_cpop, cpopNatRec_eq_count, Nat.zero_add]

/-- The words' count is the number of set bits among all their bits. -/
theorem countSet_eq (ws : List (BitVec 64)) :
    countSet ws = (toBools ws (64 * ws.length)).count true := by
  induction ws with
  | nil => rfl
  | cons x ws ih =>
    -- the bits of `x :: ws` are those of `x`, then those of `ws` shifted by a word
    have hfirst : ∀ m, m < 64 → bit (x :: ws) m = x.getLsbD m := fun m hm => by
      simp [bit, word, Nat.div_eq_of_lt hm, Nat.mod_eq_of_lt hm]
    have hrest : ∀ m, bit (x :: ws) (64 + m) = bit ws m := fun m => by
      simp [bit, word, show (64 + m) / 64 = m / 64 + 1 by omega,
        show (64 + m) % 64 = m % 64 by omega]
    have hsplit : toBools (x :: ws) (64 * (ws.length + 1)) =
        (List.range 64).map x.getLsbD ++ toBools ws (64 * ws.length) := by
      rw [toBools, show 64 * (ws.length + 1) = 64 + 64 * ws.length by ring, List.range_add,
        List.map_append, List.map_map, toBools]
      exact congrArg₂ (· ++ ·) (List.map_congr_left fun m hm => hfirst m (List.mem_range.mp hm))
        (List.map_congr_left fun m _ => hrest m)
    rw [countSet, List.map_cons, List.sum_cons, ← countSet, ih, toNat_cpop_eq_count,
      List.length_cons, hsplit, List.count_append]

/-- With no bit set from `n` on, and the words holding `n` bits, the count is the number of
set bits among the first `n`. -/
theorem countSet_eq_count_toBools (hz : ZeroFrom n ws) (hlen : n ≤ 64 * ws.length) :
    countSet ws = (toBools ws n).count true := by
  obtain ⟨d, hd⟩ := Nat.exists_eq_add_of_le hlen
  have hsplit : toBools ws (64 * ws.length) =
      toBools ws n ++ (List.range d).map fun m => bit ws (n + m) := by
    rw [hd, toBools, List.range_add, List.map_append, List.map_map]
    rfl
  have hzero : ((List.range d).map fun m => bit ws (n + m)).count true = 0 :=
    List.count_eq_zero.mpr fun hmem => by
      obtain ⟨m, -, hm⟩ := List.mem_map.mp hmem
      rw [hz (n + m) (by omega)] at hm
      exact Bool.false_ne_true hm
  rw [countSet_eq, hsplit, List.count_append, hzero, Nat.add_zero]

end Count

/-! ## Bytes -/

/-- Bit `i` of a byte array, least significant first in each byte, zero past the end. -/
def byteBit (bs : List UInt8) (i : ℕ) : Bool := (bs[i / 8]?.getD 0).toNat.testBit (i % 8)

/-- `k` words read from a byte array, eight little-endian bytes to a word, the bytes past
the array zero. -/
def wordsOfBytes (bs : List UInt8) (k : ℕ) : List (BitVec 64) :=
  (List.range k).map fun j => BitVec.ofNat 64 (decodeLE ((bs.drop (8 * j)).take 8))

/-- The little-endian bytes of the words. -/
def bytesOfWords (ws : List (BitVec 64)) : List UInt8 := ws.flatMap fun x => encodeLE 8 x.toNat

section Bytes

variable {bs : List UInt8} {ws : List (BitVec 64)} {i k : ℕ}

theorem decodeLE_cons (b : UInt8) (bs : List UInt8) :
    decodeLE (b :: bs) = b.toNat + 256 * decodeLE bs := by
  have happ : ∀ l : List UInt8, decodeBE (l ++ [b]) = decodeBE l * 256 + b.toNat := by
    intro l
    induction l with
    | nil => simp [decodeBE]
    | cons c l ih =>
      simp only [List.cons_append, decodeBE, List.length_append, List.length_singleton, ih,
        pow_succ]
      ring
  rw [decodeLE, List.reverse_cons, happ, ← decodeLE]
  ring

/-- Bit `i` of the number a little-endian byte string denotes. -/
theorem testBit_decodeLE (bs : List UInt8) (i : ℕ) : (decodeLE bs).testBit i = byteBit bs i := by
  induction bs generalizing i with
  | nil => simp [decodeLE, decodeBE, byteBit]
  | cons b bs ih =>
    have hb : b.toNat < 2 ^ 8 := b.toNat_lt
    rw [decodeLE_cons, show b.toNat + 256 * decodeLE bs = 2 ^ 8 * decodeLE bs + b.toNat by ring,
      Nat.testBit_two_pow_mul_add _ hb]
    split_ifs with hi
    · simp [byteBit, Nat.div_eq_of_lt hi, Nat.mod_eq_of_lt hi]
    · rw [ih, byteBit, byteBit, show i / 8 = (i - 8) / 8 + 1 by omega,
        show i % 8 = (i - 8) % 8 by omega]
      rfl

theorem byteBit_take (m i : ℕ) : byteBit (bs.take m) i = (decide (i < 8 * m) && byteBit bs i) := by
  by_cases hi : i < 8 * m
  · simp [byteBit, show i / 8 < m by omega, hi]
  · simp [byteBit, show ¬ i / 8 < m by omega, hi]

theorem byteBit_drop (m i : ℕ) : byteBit (bs.drop m) i = byteBit bs (8 * m + i) := by
  simp only [byteBit, List.getElem?_drop, show (8 * m + i) / 8 = m + i / 8 by omega,
    show (8 * m + i) % 8 = i % 8 by omega]

theorem byteBit_eq_false_of_le (h : 8 * bs.length ≤ i) : byteBit bs i = false := by
  simp [byteBit, List.getElem?_eq_none (show bs.length ≤ i / 8 by omega)]

/-- The words read from bytes have the bytes' bits, up to the words' end. -/
theorem bit_wordsOfBytes (i : ℕ) :
    bit (wordsOfBytes bs k) i = (decide (i < 64 * k) && byteBit bs i) := by
  by_cases hi : i < 64 * k
  · have hj : i / 64 < k := by omega
    rw [bit_eq_getLsbD (by simpa [wordsOfBytes] using hj)]
    simp only [wordsOfBytes, List.getElem_map, List.getElem_range, BitVec.getLsbD_ofNat,
      testBit_decodeLE, byteBit_take, byteBit_drop]
    simp [hi, show 8 * (8 * (i / 64)) + i % 64 = i by omega,
      show i % 64 < 8 * 8 by omega]
  · rw [bit_eq_false_of_le (by simp [wordsOfBytes]; omega)]
    simp [hi]

@[simp] theorem length_wordsOfBytes : (wordsOfBytes bs k).length = k := by simp [wordsOfBytes]

@[simp] theorem length_bytesOfWords : (bytesOfWords ws).length = 8 * ws.length := by
  induction ws with
  | nil => rfl
  | cons x ws ih =>
    rw [bytesOfWords, List.flatMap_cons, ← bytesOfWords, List.length_append, encodeLE_length, ih,
      List.length_cons]
    ring

/-- The bytes of words have the words' bits. -/
theorem byteBit_bytesOfWords (i : ℕ) : byteBit (bytesOfWords ws) i = bit ws i := by
  induction ws generalizing i with
  | nil => simp [bytesOfWords, byteBit, bit, word]
  | cons x ws ih =>
    rw [bytesOfWords, List.flatMap_cons, ← bytesOfWords]
    by_cases hi : i < 64
    · -- a bit of the first word, read from its eight bytes
      have hbyte : byteBit (encodeLE 8 x.toNat ++ bytesOfWords ws) i =
          byteBit (encodeLE 8 x.toNat) i := by
        simp [byteBit, List.getElem?_append_left (show i / 8 < (encodeLE 8 x.toNat).length by
          simp; omega)]
      rw [hbyte, ← testBit_decodeLE, decodeLE_encodeLE, show (256 : ℕ) ^ 8 = 2 ^ 64 by norm_num,
        Nat.testBit_mod_two_pow]
      simp [bit, word, Nat.div_eq_of_lt hi, Nat.mod_eq_of_lt hi, BitVec.getLsbD, hi]
    · have hbyte : byteBit (encodeLE 8 x.toNat ++ bytesOfWords ws) i =
          byteBit (bytesOfWords ws) (i - 64) := by
        simp only [byteBit, List.getElem?_append_right (show (encodeLE 8 x.toNat).length ≤ i / 8 by
          simp; omega), encodeLE_length, show i / 8 - 8 = (i - 64) / 8 by omega,
          show i % 8 = (i - 64) % 8 by omega]
      rw [hbyte, ih]
      simp [bit, word, show i / 64 = (i - 64) / 64 + 1 by omega,
        show i % 64 = (i - 64) % 64 by omega]

end Bytes

end PackedBits
