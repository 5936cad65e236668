import Mathlib
import RisingWave.Lib.RunLength

/-!
# Compressing repeated data

`util/compress.rs`. `compress_data` keeps, for each run of equal elements, the index of its
last element as a `u32` and the element; `decompress_data` resizes a vector up to one past
each last index. Both are the run-length code of `RunLength` over the maximal runs of the
data: `compressData_eq` says so, and the round trip follows.
-/

namespace RisingWave.Common

open RunLength

variable {T : Type}

/-- The loop of `compress_data` from index `i`, `prev` being `original_data[i - 1]` and the
list the data from `i` on: where the element changes, the run ending at `i - 1` is pushed. -/
def compressLoop [DecidableEq T] (i : ℕ) (prev : T) :
    List T → List UInt32 × List T → List UInt32 × List T
  | [], acc => acc
  | cur :: rest, (originalIndices, data) =>
    compressLoop (i + 1) cur rest
      (if prev ≠ cur then (originalIndices ++ [UInt32.ofNat i - 1], data ++ [prev])
      else (originalIndices, data))

/-- `compress_data`: the loop over `1..len`, then the last run. -/
def compressData [DecidableEq T] (originalData : List T) : List UInt32 × List T :=
  let (originalIndices, data) := match originalData with
    | [] => ([], [])
    | first :: rest => compressLoop 1 first rest ([], [])
  match originalData.getLast? with
  | some last => (originalIndices ++ [UInt32.ofNat originalData.length - 1], data ++ [last])
  | none => (originalIndices, data)

/-- `decompress_data`; `zip_eq_fast` panics on lists of different lengths. -/
def decompressData (originalIndices : List UInt32) (data : List T) : Option (List T) :=
  match originalIndices.getLast? with
  | some _ =>
    if originalIndices.length ≠ data.length then none
    else some ((originalIndices.zip data).foldl
      (fun originalData p => resize originalData (p.1.toNat + 1) p.2) [])
  | none => some []

theorem UInt32.ofNat_sub_one {i : ℕ} (hi : 1 ≤ i) : UInt32.ofNat i - 1 = UInt32.ofNat (i - 1) := by
  conv_lhs => rw [show i = i - 1 + 1 by omega]
  rw [UInt32.ofNat_add, UInt32.ofNat_one, UInt32.add_sub_cancel]

section Compress

variable [DecidableEq T]

/-- The loop, finished by the last run, pushes the last indices and the items of the runs of
the data from `i - 1` on. -/
theorem compressLoop_spec (prev : T) (rest : List T) :
    ∀ (i : ℕ), 1 ≤ i → ∀ acc : List UInt32 × List T,
      (compressLoop i prev rest acc).1 ++ [UInt32.ofNat (i + rest.length) - 1] =
          acc.1 ++ (lastIndices (i - 1) (runs (prev :: rest))).map UInt32.ofNat ∧
        (compressLoop i prev rest acc).2 ++ [(prev :: rest).getLast (List.cons_ne_nil _ _)] =
          acc.2 ++ (runs (prev :: rest)).map Prod.fst := by
  induction rest generalizing prev with
  | nil =>
    intro i hi acc
    simp [compressLoop, runs, UInt32.ofNat_sub_one hi, show i - 1 + 1 - 1 = i - 1 by omega]
  | cons cur rest ih =>
    intro i hi acc
    obtain ⟨idx, data⟩ := acc
    obtain ⟨n, rs, hcur⟩ := runs_cons cur rest
    have hlen : i + (rest.length + 1) = i + 1 + rest.length := by omega
    by_cases hne : prev = cur
    · -- the run goes on: the rest's first run, one longer
      subst hne
      obtain ⟨h1, h2⟩ := ih prev (i + 1) (by omega) (idx, data)
      have hstep : compressLoop i prev (prev :: rest) (idx, data) =
          compressLoop (i + 1) prev rest (idx, data) := by
        simp [compressLoop]
      rw [hcur, show i + 1 - 1 = i by omega] at h1
      rw [hcur] at h2
      rw [runs_cons_cons_self hcur, lastIndices_succ, show i - 1 + 1 = i by omega, hstep,
        List.length_cons, hlen, List.getLast_cons (List.cons_ne_nil _ _)]
      exact ⟨h1, h2⟩
    · -- the run of `prev` ends at `i - 1`
      obtain ⟨h1, h2⟩ := ih cur (i + 1) (by omega) (idx ++ [UInt32.ofNat i - 1], data ++ [prev])
      rw [runs_cons_cons_of_ne hne]
      simp only [compressLoop, ne_eq, hne, not_false_eq_true, if_true, List.length_cons, hlen,
        List.getLast_cons (List.cons_ne_nil _ _)] at h1 h2 ⊢
      refine ⟨?_, ?_⟩
      · rw [h1]
        simp [UInt32.ofNat_sub_one hi, show i - 1 + 1 = i by omega]
      · rw [h2]
        simp

/-- `compress_data` is the run-length code of the data's maximal runs. -/
theorem compressData_eq (x : List T) :
    compressData x = ((lastIndices 0 (runs x)).map UInt32.ofNat, (runs x).map Prod.fst) := by
  cases x with
  | nil => rfl
  | cons first rest =>
    obtain ⟨h1, h2⟩ := compressLoop_spec first rest 1 le_rfl ([], [])
    simp only [compressData, List.getLast?_eq_some_getLast (List.cons_ne_nil first rest),
      List.length_cons, Nat.add_comm rest.length 1]
    rw [h1, h2]
    simp

-- the example of `test_compress`
example : compressData [3, 3, 3, 3, 3, 4, 4, 5, 5, 6, 7, 8, 8, 8, 9] =
    ([4, 6, 8, 9, 10, 13, 14], [3, 4, 5, 6, 7, 8, 9]) := by decide

end Compress

/-- `decompress_data` of a run-length code whose last indices fit a `u32`. -/
theorem decompressData_lastIndices {rs : List (T × ℕ)} (hpos : ∀ r ∈ rs, 0 < r.2)
    (hfit : (expand rs).length ≤ 2 ^ 32) :
    decompressData ((lastIndices 0 rs).map UInt32.ofNat) (rs.map Prod.fst) = some (expand rs) := by
  cases rs with
  | nil => rfl
  | cons r rs =>
    have hlast : ((lastIndices 0 (r :: rs)).map UInt32.ofNat).getLast? ≠ none := by simp
    -- every last index is below the length, so a `u32` keeps it
    have htoNat : ((lastIndices 0 (r :: rs)).map UInt32.ofNat).map UInt32.toNat =
        lastIndices 0 (r :: rs) := by
      rw [List.map_map, List.map_congr_left fun e he => ?_, List.map_id]
      have := lt_of_mem_lastIndices hpos he
      simp only [Function.comp_apply, id_eq]
      exact Nat.mod_eq_of_lt (by omega)
    obtain ⟨idx, hidx⟩ := Option.ne_none_iff_exists'.mp hlast
    have hfold := foldl_resize_lastIndices hpos 0 [] rfl
    rw [List.nil_append, ← htoNat, List.zip_map_left, List.foldl_map] at hfold
    simp only [decompressData, hidx, List.length_map, length_lastIndices, ne_eq,
      not_true_eq_false, if_false]
    exact congrArg some hfold

/-- The data back from its compression. -/
theorem decompressData_compressData [DecidableEq T] (x : List T) (hx : x.length ≤ 2 ^ 32) :
    decompressData (compressData x).1 (compressData x).2 = some x := by
  rw [compressData_eq]
  have h := decompressData_lastIndices (pos_of_mem_runs (l := x)) (by simpa using hx)
  simpa using h

end RisingWave.Common
