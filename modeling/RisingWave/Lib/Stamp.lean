import Mathlib

/-!
# Stamped outputs and packed words

A generator of identifiers stamps each output with a value of a linear order that only grows
from one output to the next, and packs the stamp into the bits of a word. `Between tag lo hi xs`
says that the outputs `xs` carry stamps in `[lo, hi)`, each above the stamps of the outputs
before it; such runs compose (`Between.append`), and when an output determines its stamp the
outputs are distinct (`Between.nodup`). The second section reads the fields of a word made by
shifts and disjunctions back as numbers.
-/

namespace Stamp

section Between

variable {α β : Type*} [LinearOrder β] {tag : β → α → Prop}

/-- The outputs `xs` carry stamps by `tag` in `[lo, hi)`, in increasing order. -/
structure Between (tag : β → α → Prop) (lo hi : β) (xs : List α) : Prop where
  mem : ∀ x ∈ xs, ∃ b, tag b x ∧ lo ≤ b ∧ b < hi
  pairwise : xs.Pairwise fun x y => ∃ b c, tag b x ∧ tag c y ∧ b < c

theorem Between.nil (lo hi : β) : Between tag lo hi [] :=
  ⟨by simp, List.Pairwise.nil⟩

theorem Between.singleton {lo hi b : β} {x : α} (hx : tag b x) (hlo : lo ≤ b) (hhi : b < hi) :
    Between tag lo hi [x] :=
  ⟨by simpa using ⟨b, hx, hlo, hhi⟩, List.pairwise_singleton _ _⟩

theorem Between.mono {lo lo' hi hi' : β} {xs : List α} (h : Between tag lo hi xs)
    (hlo : lo' ≤ lo) (hhi : hi ≤ hi') : Between tag lo' hi' xs := by
  refine ⟨fun x hx => ?_, h.pairwise⟩
  obtain ⟨b, hb, hlb, hbh⟩ := h.mem x hx
  exact ⟨b, hb, hlo.trans hlb, hbh.trans_le hhi⟩

/-- Two runs, the second starting at the stamp where the first stopped, make one run. -/
theorem Between.append {lo mid hi : β} {xs ys : List α} (hx : Between tag lo mid xs)
    (hy : Between tag mid hi ys) (hle : lo ≤ mid) (hle' : mid ≤ hi) :
    Between tag lo hi (xs ++ ys) := by
  refine ⟨fun z hz => ?_, List.pairwise_append.mpr ⟨hx.pairwise, hy.pairwise, ?_⟩⟩
  · rcases List.mem_append.mp hz with hz | hz
    · exact (hx.mono le_rfl hle').mem z hz
    · exact (hy.mono hle le_rfl).mem z hz
  · -- every stamp of the first run is below `mid`, every stamp of the second at least `mid`
    intro x hx' y hy'
    obtain ⟨b, hb, -, hbm⟩ := hx.mem x hx'
    obtain ⟨c, hc, hmc, -⟩ := hy.mem y hy'
    exact ⟨b, c, hb, hc, hbm.trans_le hmc⟩

/-- When an output has one stamp only, stamped outputs are distinct. -/
theorem Between.nodup {lo hi : β} {xs : List α} (h : Between tag lo hi xs)
    (hfun : ∀ x b c, tag b x → tag c x → b = c) : xs.Nodup := by
  refine h.pairwise.imp fun {x y} ⟨b, c, hb, hc, hbc⟩ hxy => ?_
  subst hxy
  exact hbc.ne (hfun x b c hb hc)

end Between

section Fields

variable {w : ℕ}

/-- A disjunction of a word whose low `k` bits are clear with one below `2 ^ k` is their sum. -/
theorem toNat_or_of_dvd_of_lt {k : ℕ} {x y : BitVec w} (hx : 2 ^ k ∣ x.toNat)
    (hy : y.toNat < 2 ^ k) : (x ||| y).toNat = x.toNat + y.toNat := by
  obtain ⟨q, hq⟩ := hx
  rw [BitVec.toNat_or, hq, Nat.two_pow_add_eq_or_of_lt hy]

/-- The field of `width` bits at `shift`, read by an arithmetic shift and a mask; below the
sign bit the arithmetic shift reads what the logical one does. -/
theorem toNat_sshiftRight_and {shift width : ℕ} (x : BitVec w) (h : shift + width < w) :
    (x.sshiftRight shift &&& BitVec.ofNat w (2 ^ width - 1)).toNat =
      x.toNat / 2 ^ shift % 2 ^ width := by
  have hlogical : x.sshiftRight shift &&& BitVec.ofNat w (2 ^ width - 1) =
      x >>> shift &&& BitVec.ofNat w (2 ^ width - 1) := by
    ext i hi
    rw [BitVec.getElem_and, BitVec.getElem_and, BitVec.getElem_ushiftRight,
      ← BitVec.getLsbD_eq_getElem, ← BitVec.getLsbD_eq_getElem, BitVec.getLsbD_sshiftRight,
      BitVec.getLsbD_ofNat, Nat.testBit_two_pow_sub_one]
    -- the mask keeps the bits below `width`, which lie below the sign bit
    by_cases hiw : i < width
    · simp [hiw, show shift + i < w by omega, show ¬ w ≤ i by omega]
    · simp [hiw]
  have hmask : (BitVec.ofNat w (2 ^ width - 1)).toNat = 2 ^ width - 1 := by
    have hlt : 2 ^ width < 2 ^ w := Nat.pow_lt_pow_right (by norm_num) (by omega)
    have hpos := Nat.two_pow_pos width
    rw [BitVec.toNat_ofNat, Nat.mod_eq_of_lt (by omega)]
  rw [hlogical, BitVec.toNat_and, BitVec.toNat_ushiftRight, hmask,
    Nat.and_two_pow_sub_one_eq_mod, Nat.shiftRight_eq_div_pow]

end Fields

end Stamp
