import Mathlib
import RisingWave.Common.Buffer.BitmapValid

/-!
# Iterating over a bitmap

`iter` gives the bits one at a time, loading a word when it reaches its first bit; `nth` and
`next_always_load_usize` load the word at every call, and from any state the iterator reaches the
two agree. `iter_ones` gives the indices of the set bits: over the words it skips the words with
no bit left, then takes the lowest set bit of the current word, `trailing_zeros`, and clears it
with `x & x.wrapping_neg()`. Each iterator is described by the items it has left (`Iter`); on a
valid bitmap `iter` gives its bits and `iter_ones` the indices of its set bits. `high_ranges` cuts
the set bits into maximal runs, and `next_set_bit` finds the first set bit from an index on.
-/

namespace RisingWave.Common.Buffer

open PackedBits

namespace BitmapIter

/-- The bit at index `i`, as the iterator reads it. -/
def bitAt (self : BitmapIter) (i : ℕ) : Bool :=
  match self.bits with
  | none => self.allOnes
  | some ws => bit ws i

/-- The bits the iterator has left. -/
def rem (self : BitmapIter) : List Bool :=
  (List.range' self.idx (self.numBits - self.idx)).map self.bitAt

/-- The loaded word is the word of the index, unless the index is at a word's first bit. -/
def Loaded (self : BitmapIter) : Prop :=
  ∀ ws, self.bits = some ws → self.idx % 64 ≠ 0 → self.currentUsize = word ws (self.idx / 64)

variable {it : BitmapIter}

/-- In a state the iterator reaches, loading the word at every call changes nothing. -/
theorem next_eq_nextAlwaysLoadUsize (h : it.Loaded) : it.next = it.nextAlwaysLoadUsize := by
  unfold next nextAlwaysLoadUsize
  split_ifs with hidx
  · rfl
  · cases hbits : it.bits with
    | none => rfl
    | some ws =>
      simp only [BITS_eq]
      by_cases h0 : it.idx % 64 = 0
      · simp [h0]
      · simp [h0, h ws hbits h0]

theorem nextAlwaysLoadUsize_spec :
    it.nextAlwaysLoadUsize =
      if it.idx < it.numBits then
        (some (it.bitAt it.idx),
          { it with idx := it.idx + 1,
                    currentUsize := match it.bits with
                      | none => it.currentUsize
                      | some ws => word ws (it.idx / 64) })
      else (none, it) := by
  unfold nextAlwaysLoadUsize
  by_cases hidx : it.idx < it.numBits
  · rw [if_neg (by omega), if_pos hidx]
    cases hbits : it.bits with
    | none => simp [bitAt, hbits]
    | some ws =>
      simp only [bitAt, hbits, BITS_eq]
      rw [and_one_shiftLeft_ne_zero _ (Nat.mod_lt _ (by norm_num))]
      rfl
  · rw [if_pos (by omega), if_neg hidx]

theorem rem_of_le (h : it.numBits ≤ it.idx) : it.rem = [] := by
  simp [rem, Nat.sub_eq_zero_of_le h]

/-- The bit at the index, then the bits from the next index on; the loaded word is not read. -/
theorem rem_of_lt (h : it.idx < it.numBits) (c : BitVec 64) :
    it.rem = it.bitAt it.idx :: ({ it with idx := it.idx + 1, currentUsize := c } : BitmapIter).rem := by
  rw [rem, show it.numBits - it.idx = (it.numBits - (it.idx + 1)) + 1 by omega, List.range'_succ,
    List.map_cons]
  rfl

theorem rem_eq_nil_iff : it.rem = [] ↔ it.numBits ≤ it.idx := by
  simp [rem]
  omega

/-- `next` gives the bits left one at a time, and keeps the loaded word right. -/
theorem simulates : Iter.Simulates next rem Loaded where
  nil s _ h := by
    simp [next, rem_eq_nil_iff.mp h]
  cons s a l hs h := by
    have hidx : s.idx < s.numBits := by
      by_contra hc
      rw [rem_of_le (by omega)] at h
      exact List.cons_ne_nil a l h.symm
    rw [next_eq_nextAlwaysLoadUsize hs, nextAlwaysLoadUsize_spec, if_pos hidx]
    rw [rem_of_lt hidx (match s.bits with | none => s.currentUsize | some ws => word ws (s.idx / 64))] at h
    obtain ⟨rfl, rfl⟩ := List.cons.inj h
    refine ⟨rfl, rfl, ?_⟩
    -- the word loaded is the one of the next index, unless that one starts a new word
    intro ws hws hmod
    dsimp only at hws hmod ⊢
    cases hbits : s.bits with
    | none => simp [hbits] at hws
    | some ws' =>
      simp only [hbits, Option.some.injEq] at hws ⊢
      subst hws
      congr 1
      omega

/-- `next_always_load_usize` gives the bits left from any state. -/
theorem simulates_nextAlwaysLoadUsize : Iter.Simulates nextAlwaysLoadUsize rem fun _ => True where
  nil s _ h := by
    rw [nextAlwaysLoadUsize_spec, if_neg (by rw [rem_eq_nil_iff] at h; omega)]
  cons s a l _ h := by
    have hidx : s.idx < s.numBits := by
      by_contra hc
      rw [rem_of_le (by omega)] at h
      exact List.cons_ne_nil a l h.symm
    rw [nextAlwaysLoadUsize_spec, if_pos hidx]
    rw [rem_of_lt hidx (match s.bits with | none => s.currentUsize | some ws => word ws (s.idx / 64))] at h
    obtain ⟨rfl, rfl⟩ := List.cons.inj h
    exact ⟨rfl, rfl, trivial⟩

/-- From a state the iterator reaches, the optimised `next`, which loads a word only at its
first bit, gives the same bits over the whole run as loading the word at every call. -/
theorem collect_next_eq_collect_nextAlwaysLoadUsize (h : it.Loaded) (fuel : ℕ) :
    Iter.collect next fuel it = Iter.collect nextAlwaysLoadUsize fuel it :=
  simulates.collect_congr simulates_nextAlwaysLoadUsize fuel h trivial

theorem collect_next_eq_collect_nextAlwaysLoadUsize_iter :
    Iter.collect next 3 (Bitmap.fromBoolSlice [true, false, true]).iter =
      Iter.collect nextAlwaysLoadUsize 3 (Bitmap.fromBoolSlice [true, false, true]).iter :=
  collect_next_eq_collect_nextAlwaysLoadUsize (fun _ _ h => by simp [Bitmap.iter] at h) 3

end BitmapIter


namespace BitmapOnesIter

/-- The indices of the set bits of `ws` from word `j` on. -/
def onesFrom (ws : List (BitVec 64)) (j : ℕ) : List ℕ :=
  (List.range' (64 * j) (64 * (ws.length - j))).filter (bit ws)

/-- The indices the iterator has left: those of the words from the current one on, of the
current word the bits it has left. -/
def rem : BitmapOnesIter → List ℕ
  | .range start end_ => List.range' start (end_ - start)
  | .buffer _ _ none => []
  | .buffer bits curIdx (some c) => onesFrom (bits.set curIdx c) curIdx

/-- The current word is one of the buffer's. -/
def InBounds : BitmapOnesIter → Prop
  | .range _ _ => True
  | .buffer bits curIdx curBits => curBits ≠ none → curIdx < bits.length

variable {ws : List (BitVec 64)} {j : ℕ}

theorem onesFrom_of_le (h : ws.length ≤ j) : onesFrom ws j = [] := by
  simp [onesFrom, show ws.length - j = 0 by omega]

/-- The set bits of word `j`, then those of the words after it. -/
theorem onesFrom_eq (h : j < ws.length) :
    onesFrom ws j = ((List.range 64).filter (word ws j).getLsbD).map (64 * j + ·) ++
      onesFrom ws (j + 1) := by
  have hrange : List.range' (64 * j) (64 * (ws.length - j)) =
      List.range' (64 * j) 64 ++ List.range' (64 * (j + 1)) (64 * (ws.length - (j + 1))) := by
    rw [show 64 * (j + 1) = 64 * j + 64 by ring, List.range'_append_1]
    congr 1
    omega
  rw [onesFrom, hrange, List.filter_append, ← onesFrom]
  congr 1
  rw [List.range'_eq_map_range, List.filter_map]
  congr 1
  refine List.filter_congr fun m hm => ?_
  have hm : m < 64 := List.mem_range.mp hm
  simp [bit, show (64 * j + m) / 64 = j by omega, show (64 * j + m) % 64 = m by omega]

/-- Writing word `k` leaves the set bits of the words after it. -/
theorem onesFrom_set_succ (k : ℕ) (c : BitVec 64) : onesFrom (ws.set k c) (k + 1) = onesFrom ws (k + 1) := by
  rw [onesFrom, onesFrom, List.length_set]
  refine List.filter_congr fun i hi => ?_
  simp at hi
  simp [bit, word, show k ≠ i / 64 by omega]

theorem word_set_self {k : ℕ} (c : BitVec 64) (h : k < ws.length) : word (ws.set k c) k = c := by
  simp [word, h]

/-- The set bits from word `k` on, with word `k` written. -/
theorem onesFrom_set {k : ℕ} (c : BitVec 64) (h : k < ws.length) :
    onesFrom (ws.set k c) k =
      ((List.range 64).filter c.getLsbD).map (64 * k + ·) ++ onesFrom ws (k + 1) := by
  rw [onesFrom_eq (by simpa using h), word_set_self _ h, onesFrom_set_succ]

/-- A word with no bit left: on to the next word, or to the end. -/
theorem rem_buffer_zero {k : ℕ} (h : k < ws.length) :
    rem (.buffer ws k (some 0)) =
      rem (.buffer ws (k + 1) (if k + 1 ≥ ws.length then none else some (word ws (k + 1)))) := by
  have hleft : rem (.buffer ws k (some 0)) = onesFrom ws (k + 1) := by
    rw [rem, onesFrom_set _ h]
    simp
  rw [hleft]
  split_ifs with hk
  · rw [rem, onesFrom_of_le hk]
  · rw [rem, word, List.getElem?_eq_getElem (by omega), Option.getD_some, List.set_getElem_self]

/-- The lowest set bit of the current word, then the rest. -/
theorem rem_buffer_some {k : ℕ} {c : BitVec 64} (h : k < ws.length) (hc : c ≠ 0) :
    rem (.buffer ws k (some c)) =
      (k * 64 + c.ctz.toNat) :: rem (.buffer ws k (some (c ^^^ (c &&& -c)))) := by
  rw [rem, rem, onesFrom_set _ h, onesFrom_set _ h, filter_range_getLsbD hc]
  simp [mul_comm]

/-- The loop that skips the words with no bit left keeps what is left, and stops at a word
with a bit left or at the end. It has fuel enough when it starts within the buffer. -/
theorem skipZeros_spec (fuel : ℕ) : ∀ k cb, (cb ≠ none → k < ws.length) → ws.length - k ≤ fuel →
    rem (.buffer ws (skipZeros ws fuel k cb).1 (skipZeros ws fuel k cb).2) = rem (.buffer ws k cb) ∧
      (skipZeros ws fuel k cb).2 ≠ some 0 ∧
      ((skipZeros ws fuel k cb).2 ≠ none → (skipZeros ws fuel k cb).1 < ws.length) := by
  induction fuel with
  | zero =>
    intro k cb hin hfuel
    -- no fuel: the loop is already past the last word, with nothing current
    have hnone : cb = none := by
      by_contra h
      have := hin h
      omega
    subst hnone
    simp [skipZeros]
  | succ fuel ih =>
    intro k cb hin hfuel
    by_cases h0 : cb = some 0
    · subst h0
      have hk : k < ws.length := hin (by simp)
      have hin' : (if k + 1 ≥ ws.length then none else some (word ws (k + 1))) ≠ none →
          k + 1 < ws.length := by
        split_ifs with h <;> simp
        omega
      obtain ⟨hrem, hne, hlt⟩ := ih (k + 1) _ hin' (by omega)
      rw [skipZeros, if_pos rfl]
      exact ⟨hrem.trans (rem_buffer_zero hk).symm, hne, hlt⟩
    · rw [skipZeros, if_neg h0]
      exact ⟨rfl, h0, hin⟩

theorem next_buffer (k : ℕ) (cb : Option (BitVec 64)) :
    next (.buffer ws k cb) =
      match skipZeros ws ws.length k cb with
      | (k', none) => (none, .buffer ws k' none)
      | (k', some c) => (some (k' * 64 + c.ctz.toNat), .buffer ws k' (some (c ^^^ (c &&& -c)))) := by
  rw [next, BITS_eq]
  rcases skipZeros ws ws.length k cb with ⟨k', _ | c⟩ <;> rfl

/-- One call of `next`: the end when nothing is left, else the first index left, with the rest
left after it. -/
theorem step_cases {s : BitmapOnesIter} (hs : s.InBounds) :
    (s.rem = [] ∧ s.next.1 = none) ∨
      ∃ a, s.next.1 = some a ∧ s.rem = a :: s.next.2.rem ∧ s.next.2.InBounds := by
  cases s with
  | range start end_ =>
    by_cases h : start ≥ end_
    · left
      simp [rem, next, h, show end_ - start = 0 by omega]
    · right
      refine ⟨start, by simp [next, h], ?_, by simp [next, h, InBounds]⟩
      simp only [next, if_neg h, rem]
      rw [show end_ - start = (end_ - (start + 1)) + 1 by omega, List.range'_succ]
  | buffer ws k cb =>
    obtain ⟨hrem, hne, hlt⟩ := skipZeros_spec ws.length k cb hs (by omega)
    rw [next_buffer]
    rcases hr : skipZeros ws ws.length k cb with ⟨k', _ | c⟩
    · left
      rw [hr] at hrem
      exact ⟨hrem.symm.trans rfl, rfl⟩
    · right
      rw [hr] at hrem hne hlt
      have hc : c ≠ 0 := fun h => hne (by rw [h])
      have hk' : k' < ws.length := hlt (by simp)
      refine ⟨_, rfl, ?_, fun _ => hk'⟩
      rw [← hrem, rem_buffer_some hk' hc]

/-- `next` gives the indices left one at a time. -/
theorem simulates : Iter.Simulates next rem InBounds where
  nil s hs h := by
    rcases step_cases hs with ⟨-, hnone⟩ | ⟨a, -, hrem, -⟩
    · exact hnone
    · rw [h] at hrem
      exact absurd hrem (List.cons_ne_nil _ _).symm
  cons s a l hs h := by
    rcases step_cases hs with ⟨hnil, -⟩ | ⟨a', hnext, hrem, hin⟩
    · rw [h] at hnil
      exact absurd hnil (List.cons_ne_nil _ _)
    · rw [h] at hrem
      obtain ⟨rfl, hl⟩ := List.cons.inj hrem
      exact ⟨hnext, hl.symm, hin⟩

end BitmapOnesIter

namespace Bitmap

/-- The indices of the set bits of a list of bits. -/
def onesOf (l : List Bool) : List ℕ := (List.range l.length).filter fun j => l[j]?.getD false

/-- The indices in ranges `s..=e`. -/
def indicesOf (rs : List (ℕ × ℕ)) : List ℕ := rs.flatMap fun r => List.range' r.1 (r.2 + 1 - r.1)

theorem onesOf_cons (b : Bool) (l : List Bool) :
    onesOf (b :: l) = (if b then [0] else []) ++ (onesOf l).map (· + 1) := by
  rw [onesOf, onesOf, List.length_cons, List.range_succ_eq_map, List.filter_cons, List.filter_map]
  cases b <;> simp [Function.comp_def]

theorem onesOf_append_false (l : List Bool) : onesOf (l ++ [false]) = onesOf l := by
  rw [onesOf, onesOf, List.length_append, List.length_singleton, List.range_succ,
    List.filter_append]
  simp only [List.filter_singleton, List.getElem?_concat_length, Option.getD_some, cond_false,
    List.append_nil]
  refine List.filter_congr fun j hj => ?_
  rw [List.getElem?_append_left (List.mem_range.mp hj)]

theorem highRangesFrom_true_some (rest : List Bool) (i s : ℕ) :
    highRangesFrom (true :: rest) i (some s) = highRangesFrom rest (i + 1) (some s) := rfl

theorem highRangesFrom_false_none (rest : List Bool) (i : ℕ) :
    highRangesFrom (false :: rest) i none = highRangesFrom rest (i + 1) none := rfl

/-- The ranges from index `i` on, `start` the first index of an open range: they cover the set
bits, each begins at or after the open one, and two ranges have a clear bit between them. It
needs the bits to end clear, which closes the last range. -/
theorem highRangesFrom_spec : ∀ (l : List Bool) (i : ℕ) (start : Option ℕ),
    (l ≠ [] → l.getLast? = some false) → (∀ s, start = some s → s < i ∧ l ≠ []) →
    indicesOf (highRangesFrom l i start) =
        (start.elim [] fun s => List.range' s (i - s)) ++ (onesOf l).map (i + ·) ∧
      (∀ r ∈ highRangesFrom l i start, start.getD i ≤ r.1 ∧ r.1 ≤ r.2) ∧
      (highRangesFrom l i start).IsChain fun r r' => r.2 + 1 < r'.1
  | [], i, start, _, hstart => by
    cases start with
    | none => simp [highRangesFrom, indicesOf, onesOf]
    | some s => exact absurd rfl (hstart s rfl).2
  | bit :: rest, i, start, hlast, hstart => by
    have hlast' : rest ≠ [] → rest.getLast? = some false := fun h => by
      obtain ⟨x, xs, rfl⟩ := List.exists_cons_of_ne_nil h
      rw [← hlast (List.cons_ne_nil _ _), List.getLast?_cons_cons]
    cases bit with
    | true =>
      -- a set bit: it opens a range, or the open one goes on
      have hrest : rest ≠ [] := by
        rintro rfl
        simp at hlast
      have hones : (onesOf (true :: rest)).map (i + ·) = i :: (onesOf rest).map (i + 1 + ·) := by
        simp [onesOf_cons, Function.comp_def, Nat.add_assoc, Nat.add_comm 1]
      cases start with
      | none =>
        obtain ⟨hcov, hbound, hchain⟩ := highRangesFrom_spec rest (i + 1) (some i) hlast'
          (fun s hs => by cases hs; exact ⟨by omega, hrest⟩)
        refine ⟨?_, fun r hr => ?_, hchain⟩
        · rw [highRangesFrom, hcov, hones]
          simp
        · simpa using hbound r hr
      | some s =>
        have hs := (hstart s rfl).1
        obtain ⟨hcov, hbound, hchain⟩ := highRangesFrom_spec rest (i + 1) (some s) hlast'
          (fun s' hs' => by cases hs'; exact ⟨by omega, hrest⟩)
        refine ⟨?_, hbound, hchain⟩
        rw [highRangesFrom_true_some, hcov, hones]
        simp only [Option.elim]
        rw [show i + 1 - s = (i - s) + 1 by omega, List.range'_concat]
        simp [show s + (i - s) = i by omega]
    | false =>
      have hones : (onesOf (false :: rest)).map (i + ·) = (onesOf rest).map (i + 1 + ·) := by
        simp [onesOf_cons, Function.comp_def, Nat.add_assoc, Nat.add_comm 1]
      obtain ⟨hcov, hbound, hchain⟩ := highRangesFrom_spec rest (i + 1) none hlast'
        (fun _ hs => by cases hs)
      cases start with
      | none =>
        refine ⟨?_, fun r hr => ?_, hchain⟩
        · rw [highRangesFrom_false_none, hcov, hones]
          simp
        · have := hbound r hr
          simp at this ⊢
          omega
      | some s =>
        -- a clear bit closes the open range `s..=i-1`
        have hs := (hstart s rfl).1
        refine ⟨?_, fun r hr => ?_, ?_⟩
        · rw [highRangesFrom, indicesOf, List.flatMap_cons, ← indicesOf, hcov, hones]
          simp [show i - 1 + 1 - s = i - s by omega]
        · rw [highRangesFrom, List.mem_cons] at hr
          rcases hr with rfl | hr
          · simp
            omega
          · have := hbound r hr
            simp at this ⊢
            omega
        · rw [highRangesFrom, List.isChain_cons]
          refine ⟨fun r hr => ?_, hchain⟩
          have := hbound r (List.mem_of_mem_head? hr)
          simp at this ⊢
          omega

variable {a : Bitmap}

theorem iter_loaded (a : Bitmap) : a.iter.Loaded := fun _ _ h => by simp [iter] at h

/-- `iter` gives one bit per index, as `is_set` reads them when the bitmap has words. -/
theorem iterList_eq_rem (a : Bitmap) : a.iterList = a.iter.rem :=
  BitmapIter.simulates.collect_eq _ _ a.iter_loaded (by simp [BitmapIter.rem, iter])

/-- On a valid bitmap `iter` gives its bits. -/
theorem iterList_eq_bools (ha : a.Valid) : a.iterList = a.bools := by
  rw [iterList_eq_rem, BitmapIter.rem]
  cases hbits : a.bits with
  | some ws =>
    rw [bools_of_some hbits, toBools, List.range'_eq_map_range]
    simp [BitmapIter.bitAt, iter, hbits]
  | none =>
    -- no words: the iterator reads `all_ones` at every index
    have hbit : ∀ i, a.iter.bitAt i = (a.countOnes == a.numBits) := fun i => by
      simp [BitmapIter.bitAt, iter, hbits]
    rw [bools_of_none hbits, List.map_congr_left fun i _ => hbit i, List.map_const']
    simp only [iter, Nat.sub_zero, List.length_range']
    by_cases h0 : a.countOnes = 0
    · by_cases hn : a.numBits = 0
      · simp [hn]
      · simp [h0, Ne.symm hn]
    · rw [ha.countOnes_of_none hbits h0, beq_self_eq_true]
      by_cases hn : a.numBits = 0 <;> simp [hn]


/-- The indices of the set bits of a bitmap with words: those of its words. -/
theorem ones_of_some {ws : List (BitVec 64)} (ha : a.Valid) (h : a.bits = some ws) :
    onesOf a.bools = BitmapOnesIter.onesFrom ws 0 := by
  rw [onesOf, length_bools]
  have hw := ha.wordsOf h
  have hle := le_mul_vecLen a.numBits
  rw [← hw.length_eq] at hle
  have hsplit : List.range' (64 * 0) (64 * (ws.length - 0)) =
      List.range a.numBits ++ List.range' a.numBits (64 * ws.length - a.numBits) := by
    have h := @List.range'_append_1 0 a.numBits (64 * ws.length - a.numBits)
    rw [Nat.zero_add, Nat.add_sub_cancel' hle] at h
    simpa [List.range_eq_range'] using h.symm
  -- past the length no bit is set
  have hzero : (List.range' a.numBits (64 * ws.length - a.numBits)).filter (bit ws) = [] :=
    List.filter_eq_nil_iff.mpr fun i hi => by
      rw [List.mem_range'_1] at hi
      simp [hw.zeroFrom i hi.1]
  rw [BitmapOnesIter.onesFrom, hsplit, List.filter_append, hzero, List.append_nil]
  refine List.filter_congr fun i hi => ?_
  have hi : i < a.numBits := List.mem_range.mp hi
  rw [getElem?_bools, if_pos hi, Option.getD_some, isSetUnchecked_of_some h]

/-- `iter_ones` on a valid bitmap gives the indices of its set bits, in order. -/
theorem collect_iterOnes (ha : a.Valid) :
    Iter.collect BitmapOnesIter.next a.numBits a.iterOnes = onesOf a.bools := by
  have hrem : a.iterOnes.rem = onesOf a.bools := by
    cases hbits : a.bits with
    | some ws =>
      rw [ones_of_some ha hbits, iterOnes, hbits]
      cases ws with
      | nil => simp [BitmapOnesIter.rem, BitmapOnesIter.onesFrom]
      | cons w ws => simp [BitmapOnesIter.rem]
    | none =>
      rw [iterOnes, hbits, BitmapOnesIter.rem, Nat.sub_zero, onesOf, length_bools]
      by_cases h0 : a.countOnes = 0
      · rw [h0, (ha.bools_of_count).1 h0]
        simp
      · have hn := ha.countOnes_of_none hbits h0
        rw [(ha.bools_of_count).2 hn, hn, ← List.range_eq_range']
        refine (List.filter_eq_self.mpr fun i hi => ?_).symm
        simp [List.mem_range.mp hi]
  have hin : a.iterOnes.InBounds := by
    unfold iterOnes
    split
    · intro h
      cases ‹List (BitVec 64)› <;> simp_all
    · trivial
  rw [BitmapOnesIter.simulates.collect_eq _ _ hin (by rw [hrem, onesOf]; exact (List.length_filter_le _ _).trans (by simp)), hrem]

/-- `high_ranges` on a valid bitmap: the ranges cover exactly the set bits, and any two have a
clear bit between them, so each is a maximal run of set bits. -/
theorem highRanges_spec (ha : a.Valid) :
    indicesOf a.highRanges = onesOf a.bools ∧ (∀ r ∈ a.highRanges, r.1 ≤ r.2) ∧
      a.highRanges.IsChain fun r r' => r.2 + 1 < r'.1 := by
  obtain ⟨hcov, hbound, hchain⟩ := highRangesFrom_spec (a.iterList ++ [false]) 0 none
    (fun _ => by simp) (fun _ h => by cases h)
  refine ⟨?_, fun r hr => (hbound r hr).2, hchain⟩
  rw [highRanges, hcov, onesOf_append_false, iterList_eq_bools ha]
  simp

theorem highRanges_spec_one_word :
    indicesOf (fromBoolSlice [false, true, true, false, true]).highRanges =
        onesOf (fromBoolSlice [false, true, true, false, true]).bools ∧
      (∀ r ∈ (fromBoolSlice [false, true, true, false, true]).highRanges, r.1 ≤ r.2) ∧
      (fromBoolSlice [false, true, true, false, true]).highRanges.IsChain
        fun r r' => r.2 + 1 < r'.1 :=
  highRanges_spec (fromBoolSlice_valid (by norm_num))

end Bitmap
end RisingWave.Common.Buffer
