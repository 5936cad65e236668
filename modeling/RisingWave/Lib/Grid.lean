import Mathlib.Data.Int.ModEq
import Mathlib.Data.List.Nodup
import Mathlib.Tactic.Linarith
import Mathlib.Tactic.Ring

/-!
# Windows on a grid

Windows of a fixed length that start on the grid `off + size * ℤ`. `alignDown t size off` is the
start of the one window of length `size` that holds `t`; the windows of length `k * slide` on
the grid of step `slide` that hold `t` are `k`, one slide apart, from the one that
`alignDown (t - (k * slide - slide)) slide off` starts (`mem_hopStarts_iff`). A truncating
remainder with the sign fixed up is the floor remainder (`emod_eq_tmod_fixup`).
-/

namespace Grid

/-- The start of the window of length `size` on the grid `off + size * ℤ` that holds `t`. -/
def alignDown (t size off : ℤ) : ℤ := t - (t - off) % size

section Align

variable {t size off s : ℤ}

attribute [local simp] alignDown in
theorem alignDown_le (hsize : 0 < size) : alignDown t size off ≤ t := by
  have := Int.emod_nonneg (t - off) hsize.ne'
  unfold alignDown
  omega

theorem lt_alignDown_add (hsize : 0 < size) : t < alignDown t size off + size := by
  have := Int.emod_lt_of_pos (t - off) hsize
  unfold alignDown
  omega

theorem alignDown_modEq : alignDown t size off ≡ off [ZMOD size] := by
  -- `t - off` and its remainder differ by a multiple of `size`
  have h : size ∣ t - off - (t - off) % size := Int.dvd_self_sub_emod
  refine (Int.modEq_iff_dvd.mpr ?_).symm
  unfold alignDown
  rwa [show t - (t - off) % size - off = t - off - (t - off) % size by ring]

/-- Two points of one grid less than a step apart are the same. -/
theorem eq_of_modEq_of_lt {a b n : ℤ} (h : a ≡ b [ZMOD n]) (hab : a - b < n) (hba : b - a < n) :
    a = b := by
  obtain ⟨j, hj⟩ := Int.ModEq.dvd h
  -- `b - a = n * j` with `|n * j| < n`, so `j = 0`
  have hn : 0 < n := by omega
  have hj0 : j = 0 := by
    by_contra hne
    rcases lt_or_gt_of_ne hne with hlt | hgt
    · have : n * j ≤ n * (-1) := mul_le_mul_of_nonneg_left (by omega) hn.le
      omega
    · have : n * 1 ≤ n * j := mul_le_mul_of_nonneg_left (by omega) hn.le
      omega
  rw [hj0, mul_zero] at hj
  omega

/-- The window that holds `t` is the only one. -/
theorem eq_alignDown_iff (hsize : 0 < size) :
    (s ≡ off [ZMOD size] ∧ s ≤ t ∧ t < s + size) ↔ s = alignDown t size off := by
  constructor
  · rintro ⟨hmod, hle, hlt⟩
    have hle' : alignDown t size off ≤ t := alignDown_le hsize
    have hlt' : t < alignDown t size off + size := lt_alignDown_add hsize
    exact eq_of_modEq_of_lt (hmod.trans alignDown_modEq.symm) (by omega) (by omega)
  · rintro rfl
    exact ⟨alignDown_modEq, alignDown_le hsize, lt_alignDown_add hsize⟩

/-- A remainder that truncates toward zero, plus the divisor when it is negative, is the floor
remainder. -/
theorem emod_eq_tmod_fixup (hsize : 0 < size) (a : ℤ) :
    a % size = if a.tmod size < 0 then a.tmod size + size else a.tmod size := by
  have h0 := Int.emod_nonneg a hsize.ne'
  have h1 := Int.emod_lt_of_pos a hsize
  have hn : ((size.natAbs : ℕ) : ℤ) = size := Int.natAbs_of_nonneg hsize.le
  rw [Int.tmod_eq_emod]
  split_ifs <;> omega

end Align

/-! ## Hopping windows -/

/-- The starts of the windows of length `k * slide` on the grid `off + slide * ℤ` that hold
`t`, earliest first. -/
def hopStarts (t slide : ℤ) (k : ℕ) (off : ℤ) : List ℤ :=
  (List.range k).map fun i : ℕ => alignDown (t - (k * slide - slide)) slide off + i * slide

section Hop

variable {t slide off s : ℤ} {k : ℕ}

attribute [local simp] hopStarts in
theorem length_hopStarts : (hopStarts t slide k off).length = k := by
  simp [hopStarts]

theorem hopStarts_nodup (hslide : 0 < slide) : (hopStarts t slide k off).Nodup := by
  refine List.Nodup.map (fun i j hij => ?_) List.nodup_range
  have : (i : ℤ) * slide = j * slide := by simpa using hij
  exact_mod_cast mul_right_cancel₀ hslide.ne' this

/-- The windows of length `k * slide` that hold `t` are exactly the `k` hop windows. -/
theorem mem_hopStarts_iff (hslide : 0 < slide) :
    s ∈ hopStarts t slide k off ↔ s ≡ off [ZMOD slide] ∧ s ≤ t ∧ t < s + k * slide := by
  set h := alignDown (t - (k * slide - slide)) slide off
  have hle : h ≤ t - (k * slide - slide) := alignDown_le hslide
  have hlt : t - (k * slide - slide) < h + slide := lt_alignDown_add hslide
  have hmod : h ≡ off [ZMOD slide] := alignDown_modEq
  simp only [hopStarts, List.mem_map, List.mem_range]
  constructor
  · rintro ⟨i, hi, rfl⟩
    -- the `i`-th window starts `i` slides after the first, and ends at or after `t`
    have hik : (i : ℤ) * slide ≤ (k - 1) * slide :=
      mul_le_mul_of_nonneg_right (by omega) hslide.le
    refine ⟨?_, by linarith, by nlinarith⟩
    calc h + i * slide ≡ h + 0 [ZMOD slide] :=
          Int.ModEq.add_left _ (Int.modEq_zero_iff_dvd.mpr (dvd_mul_left _ _))
      _ = h := add_zero h
      _ ≡ off [ZMOD slide] := hmod
  · rintro ⟨hsmod, hst, hts⟩
    -- `s` is on the grid of `h`, some `j` slides after it, with `0 ≤ j < k`
    obtain ⟨j, hj⟩ := Int.ModEq.dvd (hmod.trans hsmod.symm)
    have hj0 : 0 ≤ j := by
      by_contra hneg
      have : slide * j ≤ slide * (-1) := mul_le_mul_of_nonneg_left (by omega) hslide.le
      nlinarith
    have hjk : j < k := by
      by_contra hge
      have : slide * k ≤ slide * j := mul_le_mul_of_nonneg_left (by omega) hslide.le
      nlinarith
    refine ⟨j.toNat, by omega, ?_⟩
    rw [Int.toNat_of_nonneg hj0]
    linarith

end Hop

end Grid
