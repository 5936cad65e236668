import Mathlib
import RisingWave.Common.Buffer.BitmapIter
import RisingWave.Common.VnodeMapping

/-!
# Building a bitmap

A builder means its bits, `bools`; it is valid when its words are the words of its length.
Every call keeps a builder valid and does to its bits what its name says: `set` writes a bit,
`append` and `append_n` add bits at the end, `pop` removes the last, `append_bitmap` adds the
bits of a bitmap, by whole words when the length is a multiple of `BITS` and one at a time
otherwise. A run of calls from a valid builder panics exactly when a `set` is past the length,
and otherwise ends in a builder whose `finish` is the valid bitmap of the bits the calls build.
-/

namespace RisingWave.Common.Buffer

open PackedBits RisingWave.Common.Buffer.Bitmap

namespace BitmapBuilder

/-- The bits of a builder. -/
def bools (self : BitmapBuilder) : List Bool := toBools self.data self.len

/-- A valid builder: its words are those of its length. -/
def Valid (self : BitmapBuilder) : Prop := WordsOf self.len self.data

variable {b : BitmapBuilder} {n : ℕ} {v : Bool}

@[simp] theorem length_bools (b : BitmapBuilder) : b.bools.length = b.len := by simp [bools]

theorem resize_eq {α : Type*} (l : List α) (k : ℕ) (a : α) :
    resize l k a = l.take k ++ List.replicate (k - l.length) a := rfl

/-- The bits of words cut or filled to `k` words. -/
theorem bit_resize (ws : List (BitVec 64)) (k : ℕ) (x : BitVec 64) (i : ℕ) :
    bit (resize ws k x) i =
      if i < 64 * min k ws.length then bit ws i else (decide (i < 64 * k) && x.getLsbD (i % 64)) := by
  rw [resize_eq, bit_append, List.length_take, bit_take, bit_replicate]
  split_ifs with hi
  · simp [show i < 64 * k by omega]
  · congr 1
    · by_cases hk : k ≤ ws.length
      · simp [show ¬ i - 64 * min k ws.length < 64 * (k - ws.length) by omega,
          show ¬ i < 64 * k by omega]
      · simp only [show min k ws.length = ws.length by omega]
        apply decide_eq_decide.mpr
        omega
    · congr 1
      omega

theorem withCapacity_valid (capacity : ℕ) : (withCapacity capacity).Valid :=
  ⟨by simp [withCapacity, vecLen_eq], fun i _ => by simp [withCapacity, bit, word]⟩

@[simp] theorem bools_withCapacity (capacity : ℕ) : (withCapacity capacity).bools = [] := rfl

theorem zeroed_valid (len : ℕ) : (zeroed len).Valid :=
  ⟨List.length_replicate, fun i _ => by simp [zeroed, bit_replicate]⟩

@[simp] theorem bools_zeroed (len : ℕ) : (zeroed len).bools = List.replicate len false := by
  apply List.ext_getElem (by simp [zeroed])
  intro i _ _
  simp [bools, zeroed, getElem_toBools, bit_replicate]

/-- `set` below the length: a valid builder with that bit written. -/
theorem set_spec (hb : b.Valid) (hn : n < b.len) :
    ∃ b', b.set n v = some b' ∧ b'.Valid ∧ b'.bools = b.bools.set n v := by
  have hword : n / 64 < b.data.length := hb.length_eq ▸ div_lt_vecLen hn
  have hbit := bit_modify_setBit v hword
  refine ⟨_, by rw [set, if_pos ⟨hn, hword⟩], ⟨by simp [hb.length_eq], fun i hi => ?_⟩, ?_⟩
  · dsimp only at hi ⊢
    simp only [BITS_eq]
    rw [hbit, if_neg (show i ≠ n by omega)]
    exact hb.zeroFrom i hi
  · apply List.ext_getElem (by simp)
    intro i hi _
    simp only [length_bools] at hi
    simp only [bools, BITS_eq, getElem_toBools, hbit, List.getElem_set]
    by_cases hin : i = n
    · simp [hin]
    · simp [hin, Ne.symm hin]

/-- `set` at or past the length panics. -/
theorem set_of_le (hn : b.len ≤ n) : b.set n v = none := by
  rw [set, if_neg (fun h => by omega)]

/-- `is_set` reads the bits, and panics past them. -/
theorem isSet_eq (hb : b.Valid) (n : ℕ) : b.isSet n = b.bools[n]? := by
  unfold isSet
  split_ifs with hn
  · have hword : n / 64 < b.data.length := hb.length_eq ▸ div_lt_vecLen hn
    simp only [BITS_eq]
    rw [List.getElem?_eq_getElem hword, Option.map_some,
      and_one_shiftLeft_ne_zero _ (Nat.mod_lt _ (by norm_num)), ← bit_eq_getLsbD hword]
    simp [bools, getElem?_toBools hn]
  · simp [bools, hn]

theorem append_eq (b : BitmapBuilder) (v : Bool) :
    b.append v =
      if b.len / 64 < (if b.len % 64 = 0 then b.data ++ [0] else b.data).length then
        some ⟨b.len + 1, (if b.len % 64 = 0 then b.data ++ [0] else b.data).modify (b.len / 64)
          (· ||| BitVec.ofNat 64 v.toNat <<< (b.len % 64))⟩
      else none := rfl

theorem bit_singleton_zero (i : ℕ) : bit [(0 : BitVec 64)] i = false := by
  simpa using @bit_replicate 1 0 i

/-- `append`: a valid builder with one more bit. -/
theorem append_spec (hb : b.Valid) :
    ∃ b', b.append v = some b' ∧ b'.Valid ∧ b'.bools = b.bools ++ [v] := by
  -- a new zero word when the length is a multiple of `BITS`; the bits stay those of `data`
  obtain ⟨data, hdata⟩ : ∃ data, data = if b.len % 64 = 0 then b.data ++ [0] else b.data :=
    ⟨_, rfl⟩
  have hlen0 := hb.length_eq
  rw [vecLen_eq] at hlen0
  have hlen : data.length = (b.len + 1 + 63) / 64 := by
    rw [hdata]
    split_ifs with h
    · simp only [List.length_append, List.length_singleton, hlen0]
      omega
    · rw [hlen0]
      omega
  have hbits : ∀ i, bit data i = bit b.data i := fun i => by
    rw [hdata]
    split_ifs
    · rw [bit_append]
      split_ifs with hi
      · rfl
      · rw [bit_singleton_zero, bit_eq_false_of_le (by omega)]
    · rfl
  have hword : b.len / 64 < data.length := by
    rw [hlen]
    omega
  have hbit := bit_modify_orBit v hword
  refine ⟨⟨b.len + 1, data.modify (b.len / 64) (· ||| BitVec.ofNat 64 v.toNat <<< (b.len % 64))⟩,
    by rw [append_eq, ← hdata, if_pos hword], ⟨?_, fun i hi => ?_⟩, ?_⟩
  · simp [hlen, vecLen_eq]
  · dsimp only at hi ⊢
    rw [hbit, hbits, hb.zeroFrom i (by omega)]
    simp [show i ≠ b.len by omega]
  · apply List.ext_getElem (by simp)
    intro i hi _
    simp only [length_bools] at hi
    simp only [bools, getElem_toBools, hbit, hbits, List.getElem_append]
    by_cases hin : i < b.len
    · simp [hin, Nat.ne_of_lt hin]
    · simp [show i = b.len by omega, hb.zeroFrom b.len le_rfl]

/-- The loop of `append_n` appends bits one at a time until the length is a multiple of `BITS`
or nothing is left, and ends with a valid builder. -/
theorem appendNLoop_spec (v : Bool) (n : ℕ) : ∀ b : BitmapBuilder, b.Valid →
    ∃ m b', appendNLoop v n b = some (m, b') ∧ b'.Valid ∧
      b'.bools = b.bools ++ List.replicate (n - m) v ∧ m ≤ n ∧ (m = 0 ∨ b'.len % 64 = 0) := by
  induction n with
  | zero => exact fun b hb => ⟨0, b, rfl, hb, by simp, le_rfl, .inl rfl⟩
  | succ n ih =>
    intro b hb
    by_cases hal : b.len % 64 = 0
    · exact ⟨n + 1, b, by simp [appendNLoop, hal], hb, by simp, le_rfl, .inr hal⟩
    · obtain ⟨b1, hb1, hv1, hbools1⟩ := @append_spec b v hb
      obtain ⟨m, b', hloop, hv', hbools', hmn, hm⟩ := ih b1 hv1
      refine ⟨m, b', by simp [appendNLoop, hal, hb1, hloop], hv', ?_, by omega, hm⟩
      rw [hbools', hbools1, List.append_assoc, List.singleton_append, ← List.replicate_succ,
        show n - m + 1 = n + 1 - m by omega]

/-- `finish` on a valid builder below `2 ^ 32` bits: the valid bitmap of its bits. -/
theorem finish_spec (hb : b.Valid) (h32 : b.len < 2 ^ 32) :
    b.finish.Valid ∧ b.finish.bools = b.bools :=
  ⟨fromVecWithLen_valid hb h32, fromVecWithLen_bools hb h32⟩

/-- `append_n`: a valid builder with `n` more bits. -/
theorem appendN_spec (hb : b.Valid) :
    ∃ b', b.appendN n v = some b' ∧ b'.Valid ∧ b'.bools = b.bools ++ List.replicate n v := by
  obtain ⟨m, b1, hloop, hb1, hbools1, hmn, hm⟩ := appendNLoop_spec v n b hb
  -- whole words of the bit after the loop: the words of the new length
  obtain ⟨data, hdata⟩ : ∃ data, data =
      resize b1.data (vecLen (b1.len + m)) (if v then BitVec.allOnes 64 else 0) := ⟨_, rfl⟩
  have hlen1 := hb1.length_eq
  have hdlen : data.length = vecLen (b1.len + m) := by rw [hdata, resize_length]
  have hmin : min (vecLen (b1.len + m)) b1.data.length = vecLen b1.len := by
    rw [hlen1]
    exact min_eq_right (vecLen_mono (by omega))
  have hfill : ∀ (w : Bool) i, (if w then BitVec.allOnes 64 else 0).getLsbD (i % 64) = w :=
    fun w i => by
      cases w
      · simp
      · simp only [if_true, BitVec.getLsbD_allOnes]
        simp [Nat.mod_lt]
  have hdbit : ∀ i, i < b1.len + m →
      bit data i = if i < b1.len then bit b1.data i else v := fun i hi => by
    rw [hdata, bit_resize, hmin, hfill v]
    split_ifs with h1 h2 h2
    · rfl
    · -- past the old length the old words hold no bit; the old length is a multiple of `BITS`
      rcases hm with rfl | hm
      · omega
      · rw [vecLen_eq] at h1
        omega
    · have := le_mul_vecLen b1.len
      omega
    · have := le_mul_vecLen (b1.len + m)
      simp [show i < 64 * vecLen (b1.len + m) by omega]
  have hlist : b.bools ++ List.replicate n v = b1.bools ++ List.replicate m v := by
    rw [hbools1, List.append_assoc, ← List.replicate_add, show n - m + m = n by omega]
  have hbools : ∀ d : List (BitVec 64), (∀ i, bit d i =
      (decide (i < b1.len + m) && if i < b1.len then bit b1.data i else v)) →
      toBools d (b1.len + m) = b.bools ++ List.replicate n v := fun d hd => by
    have hl : (b1.bools ++ List.replicate m v).length = b1.len + m := by simp
    rw [hlist, ← hl]
    apply toBools_eq_of_bit
    intro i hi
    rw [hl] at hi
    rw [hd, decide_eq_true hi, Bool.true_and]
    rw [List.getD_eq_getElem?_getD]
    by_cases h1 : i < b1.len
    · rw [if_pos h1, List.getElem?_append_left (by simpa using h1), bools, getElem?_toBools h1,
        Option.getD_some]
    · rw [if_neg h1, List.getElem?_append_right (by simp; omega), List.getElem?_replicate,
        if_pos (by simp; omega), Option.getD_some]
  suffices h : ∃ d, b.appendN n v = some ⟨b1.len + m, d⟩ ∧ d.length = vecLen (b1.len + m) ∧
      ∀ i, bit d i = (decide (i < b1.len + m) && if i < b1.len then bit b1.data i else v) by
    obtain ⟨d, hd, hlen, hbit⟩ := h
    refine ⟨_, hd, ⟨hlen, fun i hi => ?_⟩, hbools d hbit⟩
    dsimp only at hi ⊢
    rw [hbit, decide_eq_false (by omega), Bool.false_and]
  rw [appendN, hloop]
  simp only [Option.bind_eq_bind, Option.bind_some, BITS_eq, ← hdata]
  split_ifs with hmask hnil
  · -- a last word to mask, so there are words
    have hpos : 0 < data.length := by
      rw [hdlen, vecLen_eq]
      omega
    rw [hnil] at hpos
    exact absurd hpos (by simp)
  · -- the words past the new length cleared from the last one
    have hlast : data.length - 1 = (b1.len + m) / 64 := by
      rw [hdlen, vecLen_eq]
      omega
    refine ⟨_, rfl, by simp [hdlen], fun i => ?_⟩
    rw [hlast, bit_modify_lowMask (by rw [hdlen, vecLen_eq]) hmask.2]
    by_cases hi : i < b1.len + m
    · simp [hi, hdbit i hi]
    · simp [hi]
  · refine ⟨data, rfl, hdlen, fun i => ?_⟩
    by_cases hi : i < b1.len + m
    · simp [hi, hdbit i hi]
    · -- past the new length: the old words have no bit there, and whole words of a set bit
      -- end at the new length
      rw [decide_eq_false hi, Bool.false_and, hdata, bit_resize, hmin, hfill v]
      split_ifs with h1
      · exact hb1.zeroFrom i (by omega)
      · cases v
        · simp
        · have hal : (b1.len + m) % 64 = 0 := by simpa using hmask
          have : ¬ i < 64 * vecLen (b1.len + m) := by
            rw [vecLen_eq]
            omega
          simp [this]

/-- `pop`: `None` on an empty builder, else a valid builder with the last bit removed. -/
theorem pop_spec (hb : b.Valid) :
    ∃ b', b.pop = some (if b.len = 0 then none else some (), b') ∧ b'.Valid ∧
      b'.bools = b.bools.dropLast := by
  by_cases h0 : b.len = 0
  · refine ⟨b, by simp [pop, h0], hb, ?_⟩
    have : b.bools = [] := List.eq_nil_of_length_eq_zero (by simp [h0])
    simp [this]
  · -- the words of the shorter length, the bit past it cleared from the last one
    obtain ⟨data, hdata⟩ : ∃ data, data = b.data.take (vecLen (b.len - 1)) := ⟨_, rfl⟩
    have hdlen : data.length = vecLen (b.len - 1) := by
      rw [hdata, List.length_take, hb.length_eq]
      exact min_eq_left (vecLen_mono (by omega))
    have hdbit : ∀ i, i < b.len - 1 → bit data i = bit b.data i := fun i hi => by
      have := le_mul_vecLen (b.len - 1)
      rw [hdata, bit_take, decide_eq_true (by omega), Bool.true_and]
    have hbools : ∀ d : List (BitVec 64), (∀ i, bit d i = (decide (i < b.len - 1) && bit b.data i)) →
        toBools d (b.len - 1) = b.bools.dropLast := fun d hd => by
      have hl : b.bools.dropLast.length = b.len - 1 := by simp
      rw [← hl]
      apply toBools_eq_of_bit
      intro i hi
      rw [hl] at hi
      rw [hd, decide_eq_true hi, Bool.true_and, List.getD_eq_getElem?_getD, List.getElem?_dropLast,
        if_pos (by simpa using hi), bools, getElem?_toBools (by omega), Option.getD_some]
    suffices h : ∃ d, b.pop = some (some (), ⟨b.len - 1, d⟩) ∧ d.length = vecLen (b.len - 1) ∧
        ∀ i, bit d i = (decide (i < b.len - 1) && bit b.data i) by
      obtain ⟨d, hd, hlen, hbit⟩ := h
      refine ⟨⟨b.len - 1, d⟩, by rw [hd, if_neg h0], ⟨hlen, fun i hi => ?_⟩, hbools d hbit⟩
      dsimp only at hi ⊢
      rw [hbit, decide_eq_false (by omega), Bool.false_and]
    rw [pop, if_neg h0]
    simp only [BITS_eq, ← hdata]
    split_ifs with hmask hnil
    · have hpos : 0 < data.length := by
        rw [hdlen, vecLen_eq]
        omega
      rw [hnil] at hpos
      exact absurd hpos (by simp)
    · have hlast : data.length - 1 = (b.len - 1) / 64 := by
        rw [hdlen, vecLen_eq]
        omega
      refine ⟨_, rfl, by simp [hdlen], fun i => ?_⟩
      rw [hlast, bit_modify_lowMask (by rw [hdlen, vecLen_eq]) hmask]
      by_cases hi : i < b.len - 1
      · simp [hi, hdbit i hi]
      · simp [hi]
    · refine ⟨data, rfl, hdlen, fun i => ?_⟩
      by_cases hi : i < b.len - 1
      · simp [hi, hdbit i hi]
      · have : ¬ i < 64 * vecLen (b.len - 1) := by
          rw [vecLen_eq]
          omega
        rw [hdata, bit_take, decide_eq_false this, decide_eq_false hi]

/-- Appending bits one at a time, as the slow path of `append_bitmap` does. -/
theorem foldlM_append_spec (l : List Bool) : ∀ b : BitmapBuilder, b.Valid →
    ∃ b', l.foldlM (fun b bit => b.append bit) b = some b' ∧ b'.Valid ∧ b'.bools = b.bools ++ l := by
  induction l with
  | nil => exact fun b hb => ⟨b, rfl, hb, by simp⟩
  | cons x l ih =>
    intro b hb
    obtain ⟨b1, hb1, hv1, hbools1⟩ := @append_spec b x hb
    obtain ⟨b', hfold, hv', hbools'⟩ := ih b1 hv1
    refine ⟨b', by simp [hb1, hfold], hv', by rw [hbools', hbools1]; simp⟩

/-- `append_bitmap`: a valid builder with the bits of a valid bitmap after its own. -/
theorem appendBitmap_spec {other : Bitmap} (hb : b.Valid) (ho : other.Valid) :
    ∃ b', b.appendBitmap other = some b' ∧ b'.Valid ∧ b'.bools = b.bools ++ other.bools := by
  by_cases hal : b.len % 64 = 0
  · -- whole words: the other bitmap's words, or words of its one bit
    have hlen := hb.length_eq
    rw [vecLen_eq] at hlen
    have hlist : ∀ d : List (BitVec 64), (∀ i, bit d i =
        if i < b.len then bit b.data i else (decide (i < b.len + other.numBits) &&
          other.isSetUnchecked (i - b.len))) →
        toBools d (b.len + other.numBits) = b.bools ++ other.bools := fun d hd => by
      have hl : (b.bools ++ other.bools).length = b.len + other.numBits := by simp
      rw [← hl]
      apply toBools_eq_of_bit
      intro i hi
      rw [hl] at hi
      rw [hd, List.getD_eq_getElem?_getD]
      by_cases h1 : i < b.len
      · rw [if_pos h1, List.getElem?_append_left (by simpa using h1), bools,
          getElem?_toBools h1, Option.getD_some]
      · rw [if_neg h1, decide_eq_true hi, Bool.true_and,
          List.getElem?_append_right (by simp; omega), length_bools, getElem?_bools,
          if_pos (by omega), Option.getD_some]
    suffices h : ∃ d, b.appendBitmap other = some ⟨b.len + other.numBits, d⟩ ∧
        d.length = vecLen (b.len + other.numBits) ∧ ∀ i, bit d i =
          if i < b.len then bit b.data i else (decide (i < b.len + other.numBits) &&
            other.isSetUnchecked (i - b.len)) by
      obtain ⟨d, hd, hdlen, hbit⟩ := h
      refine ⟨⟨b.len + other.numBits, d⟩, hd, ⟨hdlen, fun i hi => ?_⟩, hlist d hbit⟩
      dsimp only at hi ⊢
      rw [hbit, if_neg (by omega), decide_eq_false (by omega), Bool.false_and]
    rw [appendBitmap, if_pos (by simpa using hal)]
    simp only [Bitmap.len, BITS_eq]
    cases hbits : other.bits with
    | some ws =>
      have hw := ho.wordsOf hbits
      refine ⟨_, rfl, ?_, fun i => ?_⟩
      · rw [List.length_append, hw.length_eq, hlen, vecLen_eq, vecLen_eq]
        omega
      · rw [bit_append, isSetUnchecked_of_some hbits, hlen, show 64 * ((b.len + 63) / 64) = b.len by
          omega]
        split_ifs with h1
        · rfl
        · by_cases h2 : i < b.len + other.numBits
          · simp [h2]
          · rw [hw.zeroFrom _ (by omega)]
            simp [h2]
    | none =>
      -- no words: whole words of the bitmap's one bit, the bits past the new length cleared
      have hmin : min (vecLen (b.len + other.numBits)) b.data.length = b.len / 64 := by
        rw [hlen, vecLen_eq]
        omega
      have hfill : ∀ i, (BitVec.allOnes 64).getLsbD (i % 64) = true := fun i => by
        simp only [BitVec.getLsbD_allOnes]
        simp [Nat.mod_lt]
      simp only
      by_cases h0 : other.countOnes = 0
      · rw [if_pos h0]
        refine ⟨_, rfl, resize_length _ _ _, fun i => ?_⟩
        rw [bit_resize, hmin, isSetUnchecked_of_none hbits, h0]
        split_ifs with h1 h2 h2
        · rfl
        · omega
        · omega
        · simp
      · have hn := ho.countOnes_of_none hbits h0
        rw [if_neg h0]
        have hdlen := resize_length b.data (vecLen (b.len + other.numBits)) (BitVec.allOnes 64)
        by_cases hmask : (b.len + other.numBits) % 64 = 0
        · -- the new length ends a word: whole words of set bits
          simp only [hmask, ne_eq, not_true_eq_false, if_false]
          refine ⟨_, rfl, hdlen, fun i => ?_⟩
          rw [bit_resize, hmin, hfill, isSetUnchecked_of_none hbits]
          split_ifs with h1 h2 h2
          · rfl
          · omega
          · omega
          · rw [vecLen_eq]
            simp [h0, show i < 64 * ((b.len + other.numBits + 63) / 64) ↔
              i < b.len + other.numBits by omega]
        · -- the last word is set to the mask of the bits below the new length
          have hne : resize b.data (vecLen (b.len + other.numBits)) (BitVec.allOnes 64) ≠ [] :=
            fun h => by
              have hzero := congrArg List.length h
              rw [hdlen, vecLen_eq] at hzero
              simp at hzero
              omega
          simp only [hmask, ne_eq, not_false_eq_true, if_true, hne, if_false]
          refine ⟨_, rfl, by rw [List.length_modify, hdlen], fun i => ?_⟩
          rw [hdlen, bit_modify, hdlen, bit_resize, hmin, hfill, isSetUnchecked_of_none hbits,
            show vecLen (b.len + other.numBits) - 1 = (b.len + other.numBits) / 64 by
              rw [vecLen_eq]; omega]
          by_cases h1 : i / 64 = (b.len + other.numBits) / 64
          · rw [if_pos ⟨h1, by rw [vecLen_eq]; omega⟩, getLsbD_lowMask (Nat.mod_lt _ (by norm_num)),
              if_neg (by omega)]
            simp [h0, show i % 64 < (b.len + other.numBits) % 64 ↔ i < b.len + other.numBits by
              omega]
          · rw [if_neg (fun h => h1 h.1)]
            split_ifs with h2 h3
            · rfl
            · omega
            · omega
            · rw [vecLen_eq]
              simp [h0, show i < 64 * ((b.len + other.numBits + 63) / 64) ↔
                i < b.len + other.numBits by omega]
  · -- one bit at a time
    rw [appendBitmap, if_neg (by simpa using hal), iterList_eq_bools ho]
    exact foldlM_append_spec other.bools b hb

/-! ## Runs of calls -/

/-- A call on a builder. -/
inductive Call where
  | set (n : ℕ) (val : Bool)
  | append (bitSet : Bool)
  | appendN (n : ℕ) (bitSet : Bool)
  | pop
  | appendBitmap (other : Bitmap)

/-- One call; the result of `pop` is dropped. -/
def Call.apply : Call → BitmapBuilder → Option BitmapBuilder
  | .set n val, b => b.set n val
  | .append bitSet, b => b.append bitSet
  | .appendN n bitSet, b => b.appendN n bitSet
  | .pop, b => b.pop.map Prod.snd
  | .appendBitmap other, b => b.appendBitmap other

/-- Calls one after the other; a panic ends the run. -/
def runCalls (calls : List Call) (b : BitmapBuilder) : Option BitmapBuilder :=
  calls.foldlM (fun b c => c.apply b) b

/-- What a call does to the bits: `set` past them panics. -/
def Call.applyBools : Call → List Bool → Option (List Bool)
  | .set n val, l => if n < l.length then some (l.set n val) else none
  | .append bitSet, l => some (l ++ [bitSet])
  | .appendN n bitSet, l => some (l ++ List.replicate n bitSet)
  | .pop, l => some l.dropLast
  | .appendBitmap other, l => some (l ++ other.bools)

/-- What calls one after the other do to the bits. -/
def runBools (calls : List Call) (l : List Bool) : Option (List Bool) :=
  calls.foldlM (fun l c => c.applyBools l) l

/-- The bitmaps a call appends are valid. -/
def Call.Wf : Call → Prop
  | .appendBitmap other => other.Valid
  | _ => True

/-- A builder holds the bits. -/
def Holds (b : BitmapBuilder) (l : List Bool) : Prop := b.Valid ∧ b.bools = l

theorem holds_of_spec {o : Option BitmapBuilder} {l : List Bool}
    (h : ∃ b', o = some b' ∧ b'.Valid ∧ b'.bools = l) : Option.Rel Holds o (some l) := by
  obtain ⟨b', rfl, hv, hbools⟩ := h
  exact .some ⟨hv, hbools⟩

/-- One call on a valid builder panics exactly when it does on the bits, and otherwise gives a
valid builder with the bits it gives. -/
theorem Call.apply_refines (c : Call) (hc : c.Wf) (hb : b.Valid) :
    Option.Rel Holds (c.apply b) (c.applyBools b.bools) := by
  cases c with
  | set n val =>
    by_cases hn : n < b.len
    · rw [applyBools, if_pos (by simpa using hn)]
      exact holds_of_spec (set_spec hb hn)
    · rw [applyBools, if_neg (by simpa using hn), apply, set_of_le (by omega)]
      exact .none
  | append bitSet => exact holds_of_spec (append_spec hb)
  | appendN n bitSet => exact holds_of_spec (appendN_spec hb)
  | pop =>
    obtain ⟨b', hpop, hv, hbools⟩ := pop_spec hb
    rw [apply, hpop]
    exact .some ⟨hv, hbools⟩
  | appendBitmap other => exact holds_of_spec (appendBitmap_spec hb hc)

/-- A run of calls from a valid builder panics exactly when it does on the bits, and otherwise
ends in a valid builder with the bits the calls build. -/
theorem runCalls_refines (calls : List Call) (hcalls : ∀ c ∈ calls, c.Wf) :
    ∀ b : BitmapBuilder, b.Valid → Option.Rel Holds (runCalls calls b) (runBools calls b.bools) := by
  induction calls with
  | nil => exact fun b hb => .some ⟨hb, rfl⟩
  | cons c calls ih =>
    intro b hb
    have hstep := c.apply_refines (hcalls c List.mem_cons_self) hb
    rw [runCalls, runBools, List.foldlM_cons, List.foldlM_cons]
    rcases h1 : c.apply b with _ | b1 <;> rcases h2 : c.applyBools b.bools with _ | l1 <;>
      rw [h1, h2] at hstep
    · exact .none
    · cases hstep
    · cases hstep
    · -- the call went through on both sides: the rest of the run from there
      obtain ⟨hv, rfl⟩ : Holds b1 l1 := by cases hstep; assumption
      exact ih (fun c hc => hcalls c (List.mem_cons_of_mem _ hc)) _ hv

theorem runCalls_refines_three_calls :
    Option.Rel Holds
      (runCalls [.append true, .appendBitmap (Bitmap.ones 3), .pop] (withCapacity 0))
      (runBools [.append true, .appendBitmap (Bitmap.ones 3), .pop] (withCapacity 0).bools) :=
  runCalls_refines _ (fun c hc => by
    simp only [List.mem_cons, List.not_mem_nil, or_false] at hc
    rcases hc with rfl | rfl | rfl
    · trivial
    · exact Bitmap.ones_valid 3
    · trivial) _ (withCapacity_valid 0)

end BitmapBuilder

/-! ## The bitmaps of the vnode mapping -/

/-- A bitmap as the vnode mapping's list of bits. -/
def Bitmap.toCommon (a : Bitmap) : Common.Bitmap := ⟨a.bools⟩

/-- A builder as the vnode mapping's list of bits. -/
def BitmapBuilder.toCommon (b : BitmapBuilder) : Common.BitmapBuilder := ⟨b.bools⟩

/-- The vnode mapping's bitmaps are the packed ones read as their bits: `zeroed`, `set`,
`finish`, `len` and `iter_ones` agree. -/
theorem toCommon_refines :
    (∀ n, (BitmapBuilder.zeroed n).toCommon = Common.BitmapBuilder.zeroed n) ∧
    (∀ b : BitmapBuilder, b.Valid → ∀ n v,
      (b.set n v).map BitmapBuilder.toCommon = b.toCommon.set n v) ∧
    (∀ b : BitmapBuilder, b.Valid → b.len < 2 ^ 32 → b.finish.toCommon = b.toCommon.finish) ∧
    (∀ a : Bitmap, a.toCommon.len = a.len) ∧
    (∀ a : Bitmap, a.Valid →
      Iter.collect BitmapOnesIter.next a.numBits a.iterOnes = a.toCommon.iterOnes) := by
  refine ⟨fun n => ?_, fun b hb n v => ?_, fun b hb h32 => ?_, fun a => ?_, fun a ha => ?_⟩
  · simp [BitmapBuilder.toCommon, Common.BitmapBuilder.zeroed]
  · by_cases hn : n < b.len
    · obtain ⟨b', hset, -, hbools⟩ := @BitmapBuilder.set_spec b n v hb hn
      rw [hset, Common.BitmapBuilder.set, if_pos (by simpa [BitmapBuilder.toCommon] using hn)]
      simp [BitmapBuilder.toCommon, hbools]
    · rw [BitmapBuilder.set_of_le (by omega), Common.BitmapBuilder.set,
        if_neg (by simpa [BitmapBuilder.toCommon] using hn)]
      rfl
  · simp [Bitmap.toCommon, BitmapBuilder.toCommon, Common.BitmapBuilder.finish,
      (BitmapBuilder.finish_spec hb h32).2]
  · simp [Bitmap.toCommon, Common.Bitmap.len, Bitmap.len]
  · rw [Bitmap.collect_iterOnes ha]
    rfl

theorem toCommon_refines_finish_zeroed :
    (BitmapBuilder.zeroed 3).finish.toCommon = (BitmapBuilder.zeroed 3).toCommon.finish :=
  toCommon_refines.2.2.1 _ (BitmapBuilder.zeroed_valid 3) (by norm_num [BitmapBuilder.zeroed])

end RisingWave.Common.Buffer
