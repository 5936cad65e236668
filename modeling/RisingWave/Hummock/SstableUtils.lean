import Mathlib
import RisingWave.Hummock.Block

/-!
# The word-at-a-time common prefix

`sstable/utils.rs`. `bytes_diff_below_max_key_length` finds where `target` stops sharing the
bytes of `base`, looking at most `MAX_KEY_LEN` bytes in: eight bytes at a time while eight more
fit below the bound and agree, then four more once if they fit and agree, then byte by byte.
The eight and four bytes are read unaligned in the machine's byte order; only the equality of
two reads is used, so they are read little-endian here.

The result is `target` without its first `min (lcp base target) MAX_KEY_LEN` bytes
(`wordwise_diff_eq_bytewise`), the byte-wise function the block builder of `Block` is
modelled with. The proof carries one invariant through the three loops: every byte before the
index agrees, that is, the index is at most the common prefix length, which is the length of
the longest common prefix (`le_commonPrefixLength_iff`).
-/

namespace RisingWave.Hummock.SstableUtils

open ByteCodec

/-- `u64(ptr.add(i))`: the eight bytes at `i`, read unaligned. -/
def u64 (bytes : List UInt8) (i : ℕ) : UInt64 := UInt64.ofNat (decodeLE ((bytes.drop i).take 8))

/-- `u32(ptr.add(i))`: the four bytes at `i`, read unaligned. -/
def u32 (bytes : List UInt8) (i : ℕ) : UInt32 := UInt32.ofNat (decodeLE ((bytes.drop i).take 4))

/-- The first loop: while eight bytes from `i` fit below `stop` (the source's `end`), it moves
past them if they agree and stops if they do not. -/
def wordLoop (base target : List UInt8) (stop i : ℕ) : ℕ :=
  if i + 8 ≤ stop then
    if u64 base i ≠ u64 target i then i
    else wordLoop base target stop (i + 8)
  else i
termination_by stop - i

/-- The last loop: `target` from the first byte below `stop` where it differs from `base`, or
from `stop`. -/
def byteLoop (base target : List UInt8) (stop i : ℕ) : List UInt8 :=
  if i < stop then
    if base[i]? ≠ target[i]? then target.drop i
    else byteLoop base target stop (i + 1)
  else target.drop stop
termination_by stop - i

/-- `bytes_diff_below_max_key_length`. -/
def bytesDiffBelowMaxKeyLength (base target : List UInt8) : List UInt8 :=
  let stop := min (min base.length target.length) MAX_KEY_LEN
  let i := wordLoop base target stop 0
  let i := if i + 4 ≤ stop ∧ u32 base i = u32 target i then i + 4 else i
  byteLoop base target stop i

/-! ## The common prefix -/

/-- The common prefix length is the length of the longest common prefix. -/
theorem le_commonPrefixLength_iff {a b : List UInt8} {m : ℕ} :
    m ≤ commonPrefixLength a b ↔ m ≤ a.length ∧ m ≤ b.length ∧ a.take m = b.take m := by
  refine ⟨fun h => ⟨h.trans (commonPrefixLength_le_left a b),
    h.trans (commonPrefixLength_le_right a b), take_eq_take_of_le_commonPrefixLength h⟩, ?_⟩
  rintro ⟨ha, hb, htake⟩
  induction a generalizing b m with
  | nil => simp_all
  | cons x a ih =>
    cases b with
    | nil => simp_all
    | cons y b =>
      cases m with
      | zero => exact Nat.zero_le _
      | succ m =>
        -- one byte more of agreement is one more byte of common prefix
        simp only [List.take_succ_cons, List.cons.injEq] at htake
        simp only [commonPrefixLength, if_pos htake.1]
        exact Nat.succ_le_succ
          (ih (by simpa using ha) (by simpa using hb) htake.2)

section Prefix

variable {base target : List UInt8} {i : ℕ}

/-- Below the common prefix length the bytes agree. -/
theorem getElem?_eq_of_lt_commonPrefixLength (h : i < commonPrefixLength base target) :
    base[i]? = target[i]? := by
  have htake := (le_commonPrefixLength_iff.mp h).2.2
  have hb := congrArg (·[i]?) htake
  simpa [List.getElem?_take] using hb

/-- A byte that agrees just past an agreeing prefix extends it. -/
theorem succ_le_commonPrefixLength (h : i ≤ commonPrefixLength base target)
    (hb : i < base.length) (ht : i < target.length) (heq : base[i]? = target[i]?) :
    i + 1 ≤ commonPrefixLength base target := by
  obtain ⟨-, -, htake⟩ := le_commonPrefixLength_iff.mp h
  refine le_commonPrefixLength_iff.mpr ⟨hb, ht, ?_⟩
  rw [List.take_add_one, List.take_add_one, htake, heq]

/-- A block of `n` bytes that agrees just past an agreeing prefix extends it. -/
theorem add_le_commonPrefixLength {n : ℕ} (h : i ≤ commonPrefixLength base target)
    (hb : i + n ≤ base.length) (ht : i + n ≤ target.length)
    (heq : (base.drop i).take n = (target.drop i).take n) :
    i + n ≤ commonPrefixLength base target := by
  obtain ⟨-, -, htake⟩ := le_commonPrefixLength_iff.mp h
  refine le_commonPrefixLength_iff.mpr ⟨hb, ht, ?_⟩
  rw [List.take_add, List.take_add, htake, heq]

/-- Two little-endian reads of `n` bytes in range are equal only when the bytes are. -/
theorem drop_take_eq_of_decodeLE_eq {n : ℕ} (hb : i + n ≤ base.length)
    (ht : i + n ≤ target.length)
    (h : decodeLE ((base.drop i).take n) = decodeLE ((target.drop i).take n)) :
    (base.drop i).take n = (target.drop i).take n := by
  refine decodeLE_injective ?_ h
  simp only [List.length_take, List.length_drop]
  omega

theorem drop_take_eq_of_u64_eq (hb : i + 8 ≤ base.length) (ht : i + 8 ≤ target.length)
    (h : u64 base i = u64 target i) : (base.drop i).take 8 = (target.drop i).take 8 := by
  have hlt : ∀ l : List UInt8, decodeLE ((l.drop i).take 8) < UInt64.size := fun l =>
    calc decodeLE ((l.drop i).take 8) < 256 ^ ((l.drop i).take 8).length := decodeLE_lt _
      _ ≤ 256 ^ 8 := Nat.pow_le_pow_right (by norm_num) (List.length_take_le _ _)
      _ = UInt64.size := rfl
  refine drop_take_eq_of_decodeLE_eq hb ht ?_
  have h' := congrArg UInt64.toNat h
  rwa [u64, u64, UInt64.toNat_ofNat_of_lt' (hlt base),
    UInt64.toNat_ofNat_of_lt' (hlt target)] at h'

theorem drop_take_eq_of_u32_eq (hb : i + 4 ≤ base.length) (ht : i + 4 ≤ target.length)
    (h : u32 base i = u32 target i) : (base.drop i).take 4 = (target.drop i).take 4 := by
  have hlt : ∀ l : List UInt8, decodeLE ((l.drop i).take 4) < UInt32.size := fun l =>
    calc decodeLE ((l.drop i).take 4) < 256 ^ ((l.drop i).take 4).length := decodeLE_lt _
      _ ≤ 256 ^ 4 := Nat.pow_le_pow_right (by norm_num) (List.length_take_le _ _)
      _ = UInt32.size := rfl
  refine drop_take_eq_of_decodeLE_eq hb ht ?_
  have h' := congrArg UInt32.toNat h
  rwa [u32, u32, UInt32.toNat_ofNat_of_lt' (hlt base),
    UInt32.toNat_ofNat_of_lt' (hlt target)] at h'

end Prefix

/-! ## The loops -/

section Loops

variable {base target : List UInt8} {stop : ℕ}

/-- The eight-byte loop stops inside the common prefix and below the bound. -/
theorem wordLoop_le (hsb : stop ≤ base.length) (hst : stop ≤ target.length) (i : ℕ) :
    i ≤ commonPrefixLength base target → i ≤ stop →
      wordLoop base target stop i ≤ commonPrefixLength base target ∧
        wordLoop base target stop i ≤ stop := by
  fun_induction wordLoop base target stop i with
  | case1 i hfit hne => exact fun h hi => ⟨h, hi⟩
  | case2 i hfit heq ih =>
    intro h _
    -- the eight bytes agree, so the common prefix reaches past them
    have hword := drop_take_eq_of_u64_eq (by omega) (by omega) (not_not.mp heq)
    exact ih (add_le_commonPrefixLength h (by omega) (by omega) hword) hfit
  | case3 i _ => exact fun h hi => ⟨h, hi⟩

/-- From inside the common prefix and below the bound, the byte loop gives `target` after the
common prefix, cut at the bound. -/
theorem byteLoop_eq (hsb : stop ≤ base.length) (hst : stop ≤ target.length) (i : ℕ) :
    i ≤ commonPrefixLength base target → i ≤ stop →
      byteLoop base target stop i = target.drop (min (commonPrefixLength base target) stop) := by
  fun_induction byteLoop base target stop i with
  | case1 i hlt hne =>
    intro h _
    -- the first difference is the end of the common prefix
    have hi : i = commonPrefixLength base target := by
      by_contra hne'
      exact hne (getElem?_eq_of_lt_commonPrefixLength (by omega))
    rw [← hi, Nat.min_eq_left hlt.le]
  | case2 i hlt heq ih =>
    intro h _
    exact ih (succ_le_commonPrefixLength h (by omega) (by omega) (not_not.mp heq)) hlt
  | case3 i hge =>
    intro h hi
    rw [Nat.min_eq_right (by omega)]

end Loops

/-- The word-at-a-time scan agrees with the byte-wise definition: `target` without its first
`min (lcp base target) MAX_KEY_LEN` bytes. -/
theorem wordwise_diff_eq_bytewise (base target : List UInt8) :
    bytesDiffBelowMaxKeyLength base target =
      target.drop (min (commonPrefixLength base target) MAX_KEY_LEN) := by
  have hlb := commonPrefixLength_le_left base target
  have hlt := commonPrefixLength_le_right base target
  set stop := min (min base.length target.length) MAX_KEY_LEN with hstop
  have hsb : stop ≤ base.length := by omega
  have hst : stop ≤ target.length := by omega
  -- after the eight-byte loop and the four-byte step the index is still in the prefix
  obtain ⟨hw, hws⟩ := wordLoop_le hsb hst 0 (Nat.zero_le _) (Nat.zero_le _)
  set w := wordLoop base target stop 0
  have hstep : (if w + 4 ≤ stop ∧ u32 base w = u32 target w then w + 4 else w) ≤
      commonPrefixLength base target ∧
      (if w + 4 ≤ stop ∧ u32 base w = u32 target w then w + 4 else w) ≤ stop := by
    split_ifs with h4
    · have hword := drop_take_eq_of_u32_eq (by omega) (by omega) h4.2
      exact ⟨add_le_commonPrefixLength hw (by omega) (by omega) hword, h4.1⟩
    · exact ⟨hw, hws⟩
  rw [bytesDiffBelowMaxKeyLength, byteLoop_eq hsb hst _ hstep.1 hstep.2]
  congr 1
  omega

end RisingWave.Hummock.SstableUtils
