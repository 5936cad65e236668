import Mathlib.Tactic.Linarith
import Mathlib.Tactic.Positivity
import RisingWave.Lib.Lex

/-!
# Fixed-width integers as bytes

The `w` bytes of a number, most significant first (`encodeBE`), and the number
a byte string denotes (`decodeBE`). Little-endian is the reverse. The two facts
every codec built on them needs are the round trip `decodeBE_encodeBE` and that,
between byte strings of one length, the lexicographic order is the order of the
numbers they denote (`lt_iff_decodeBE_lt`).
-/

namespace ByteCodec

/-- The `w` bytes of `n`, most significant first; `n` is read modulo `256 ^ w`. -/
def encodeBE : ℕ → ℕ → List UInt8
  | 0, _ => []
  | w + 1, n => UInt8.ofNat (n / 256 ^ w) :: encodeBE w n

/-- The number denoted by a byte string, most significant byte first. -/
def decodeBE : List UInt8 → ℕ
  | [] => 0
  | b :: bs => b.toNat * 256 ^ bs.length + decodeBE bs

/-- The `w` bytes of `n`, least significant first. -/
def encodeLE (w n : ℕ) : List UInt8 := (encodeBE w n).reverse

/-- The number denoted by a byte string, least significant byte first. -/
def decodeLE (bs : List UInt8) : ℕ := decodeBE bs.reverse

attribute [local simp] encodeBE in
@[simp] theorem encodeBE_length (w n : ℕ) : (encodeBE w n).length = w := by
  induction w with
  | zero => rfl
  | succ w ih => simp [encodeBE, ih]

attribute [local simp] encodeLE in
@[simp] theorem encodeLE_length (w n : ℕ) : (encodeLE w n).length = w := by
  simp [encodeLE]

attribute [local simp] decodeBE in
theorem decodeBE_lt (bs : List UInt8) : decodeBE bs < 256 ^ bs.length := by
  induction bs with
  | nil => simp [decodeBE]
  | cons b bs ih =>
    have hb : b.toNat ≤ 255 := by have := b.toNat_lt; omega
    simp only [decodeBE, List.length_cons, pow_succ]
    nlinarith [Nat.zero_le (decodeBE bs)]

theorem decodeBE_encodeBE (w n : ℕ) : decodeBE (encodeBE w n) = n % 256 ^ w := by
  induction w with
  | zero => simp [encodeBE, decodeBE, Nat.mod_one]
  | succ w ih =>
    have hbyte : (UInt8.ofNat (n / 256 ^ w)).toNat = n / 256 ^ w % 256 := by simp
    simp only [encodeBE, decodeBE, encodeBE_length, ih, hbyte]
    rw [pow_succ, Nat.mod_mul, Nat.add_comm, Nat.mul_comm]

attribute [local simp] decodeLE in
theorem decodeLE_encodeLE (w n : ℕ) : decodeLE (encodeLE w n) = n % 256 ^ w := by
  simp [decodeLE, encodeLE, decodeBE_encodeBE]

/-- Between byte strings of one length, the lexicographic order is the order of
the numbers they denote. -/
theorem lt_iff_decodeBE_lt {l r : List UInt8} (h : l.length = r.length) :
    l < r ↔ decodeBE l < decodeBE r := by
  induction l generalizing r with
  | nil =>
    cases r with
    | nil => simp [decodeBE]
    | cons => simp at h
  | cons a l ih =>
    cases r with
    | nil => simp at h
    | cons b r =>
      simp only [List.length_cons, Nat.add_right_cancel_iff] at h
      have hl := decodeBE_lt l
      have hr := decodeBE_lt r
      rw [h] at hl
      simp only [List.cons_lt_cons_iff', decodeBE, h, ih h]
      rcases lt_trichotomy a b with hab | rfl | hab
      · have : a.toNat + 1 ≤ b.toNat := UInt8.lt_iff_toNat_lt.mp hab
        simp only [hab, true_or, true_iff]
        nlinarith [Nat.zero_le (decodeBE r)]
      · simp
      · have : b.toNat + 1 ≤ a.toNat := UInt8.lt_iff_toNat_lt.mp hab
        simp only [not_lt_of_gt hab, hab.ne', false_and, or_self, false_iff, not_lt]
        nlinarith [Nat.zero_le (decodeBE l)]

/-- A byte string is the encoding of the number it denotes. -/
theorem encodeBE_decodeBE (bs : List UInt8) : encodeBE bs.length (decodeBE bs) = bs := by
  have hlen : (encodeBE bs.length (decodeBE bs)).length = bs.length := encodeBE_length _ _
  have hval : decodeBE (encodeBE bs.length (decodeBE bs)) = decodeBE bs := by
    rw [decodeBE_encodeBE, Nat.mod_eq_of_lt (decodeBE_lt bs)]
  -- Strings of one length that denote one number are neither below the other.
  refine le_antisymm (not_lt.mp fun h => ?_) (not_lt.mp fun h => ?_)
  · exact absurd ((lt_iff_decodeBE_lt hlen.symm).mp h) (by rw [hval]; exact lt_irrefl _)
  · exact absurd ((lt_iff_decodeBE_lt hlen).mp h) (by rw [hval]; exact lt_irrefl _)

theorem encodeLE_decodeLE (bs : List UInt8) : encodeLE bs.length (decodeLE bs) = bs := by
  have h := encodeBE_decodeBE bs.reverse
  rw [List.length_reverse] at h
  rw [encodeLE, decodeLE, h, List.reverse_reverse]

theorem decodeLE_lt (bs : List UInt8) : decodeLE bs < 256 ^ bs.length := by
  simpa [decodeLE] using decodeBE_lt bs.reverse

/-- Byte strings of one length that denote one number, least significant byte first, are
equal. -/
theorem decodeLE_injective {x y : List UInt8} (hlen : x.length = y.length)
    (h : decodeLE x = decodeLE y) : x = y := by
  rw [← encodeLE_decodeLE x, ← encodeLE_decodeLE y, hlen, h]

theorem compare_encodeBE {w n m : ℕ} (hn : n < 256 ^ w) (hm : m < 256 ^ w) :
    compare (encodeBE w n) (encodeBE w m) = compare n m := by
  have hlen : (encodeBE w n).length = (encodeBE w m).length := by simp
  have hlt {a b : ℕ} (ha : a < 256 ^ w) (hb : b < 256 ^ w) :
      encodeBE w a < encodeBE w b ↔ a < b := by
    rw [lt_iff_decodeBE_lt (by simp), decodeBE_encodeBE, decodeBE_encodeBE,
      Nat.mod_eq_of_lt ha, Nat.mod_eq_of_lt hb]
  rcases lt_trichotomy n m with h | rfl | h
  · rw [compare_lt_iff_lt.mpr h, List.compare_lex_eq_lt, hlt hn hm]
    exact h
  · simp
  · rw [compare_gt_iff_gt.mpr h, List.compare_lex_eq_gt, hlt hm hn]
    exact h

end ByteCodec
