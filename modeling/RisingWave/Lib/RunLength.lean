import Mathlib
import RisingWave.Lib.Prefix

/-!
# Run-length codes

A list as runs `(item, length)`: `expand` repeats each item its run's length. `runs` cuts a
list into its maximal runs, and `lastIndices` lays the runs out one after another and gives
the index of each run's last element. Three ways of reading a list back from the last indices
and the items of its runs follow: the run lengths as the gaps between consecutive last
indices, `Vec::resize` up to each last index, and the item at a position as the one at the
partition point of the last indices below it.
-/

namespace RunLength

variable {α : Type*}

/-- The list a run-length code stands for. -/
def expand (rs : List (α × ℕ)) : List α := rs.flatMap fun r => List.replicate r.2 r.1

@[simp] theorem expand_nil : expand ([] : List (α × ℕ)) = [] := rfl

@[simp] theorem expand_cons (r : α × ℕ) (rs : List (α × ℕ)) :
    expand (r :: rs) = List.replicate r.2 r.1 ++ expand rs := rfl

theorem length_expand (rs : List (α × ℕ)) : (expand rs).length = (rs.map Prod.snd).sum := by
  induction rs with
  | nil => rfl
  | cons r rs ih => simp [ih]

/-- The `k`-th position of the `j`-th run, laid out after the runs before it, holds the run's
item. -/
theorem getElem?_expand_of_lt {rs : List (α × ℕ)} {j : ℕ} (hj : j < rs.length) {k : ℕ}
    (hk : k < rs[j].2) : (expand rs)[((rs.take j).map Prod.snd).sum + k]? = some rs[j].1 := by
  induction rs generalizing j with
  | nil => simp at hj
  | cons r rs ih =>
    cases j with
    | zero =>
      simp only [List.getElem_cons_zero] at hk
      rw [expand_cons, List.take_zero, List.map_nil, List.sum_nil, Nat.zero_add,
        List.getElem?_append_left (by simpa using hk)]
      simp [hk]
    | succ j =>
      have hrest := ih (Nat.lt_of_succ_lt_succ hj) hk
      rw [expand_cons, List.take_succ_cons, List.map_cons, List.sum_cons, Nat.add_assoc,
        List.getElem?_append_right (by simp)]
      simpa using hrest

/-- Every position of the expansion lies in one run. -/
theorem exists_run_of_lt_length {rs : List (α × ℕ)} {k : ℕ} (hk : k < (expand rs).length) :
    ∃ j, ∃ hj : j < rs.length, ∃ i < rs[j].2, k = ((rs.take j).map Prod.snd).sum + i := by
  induction rs generalizing k with
  | nil => simp at hk
  | cons r rs ih =>
    by_cases hr : k < r.2
    · exact ⟨0, by simp, k, hr, by simp⟩
    · -- past the first run: a position of the rest, shifted by the first run's length
      have hk' : k - r.2 < (expand rs).length := by
        simp only [length_expand, List.map_cons, List.sum_cons] at hk ⊢
        omega
      obtain ⟨j, hj, i, hi, hki⟩ := ih hk'
      refine ⟨j + 1, by simpa using hj, i, hi, ?_⟩
      simp only [List.take_succ_cons, List.map_cons, List.sum_cons]
      omega

/-- Over runs of distinct items, an item occurs in the expansion its run's length of times. -/
theorem count_expand_of_nodup [BEq α] [LawfulBEq α] {rs : List (α × ℕ)}
    (hnodup : (rs.map Prod.fst).Nodup) {j : ℕ} (hj : j < rs.length) :
    (expand rs).count rs[j].1 = rs[j].2 := by
  induction rs generalizing j with
  | nil => simp at hj
  | cons r rs ih =>
    rw [List.map_cons, List.nodup_cons] at hnodup
    cases j with
    | zero =>
      -- the first item is none of the others, so it is not in the rest's expansion
      have hnot : r.1 ∉ expand rs := by
        simp only [expand, List.mem_flatMap, List.mem_replicate, not_exists, not_and]
        intro q hq _ hqr
        exact hnodup.1 (List.mem_map.mpr ⟨q, hq, hqr.symm⟩)
      simp [List.count_replicate_self, List.count_eq_zero_of_not_mem hnot]
    | succ j =>
      have hj' : j < rs.length := Nat.lt_of_succ_lt_succ hj
      have hne : r.1 ≠ rs[j].1 := fun h =>
        hnodup.1 (h ▸ List.mem_map.mpr ⟨rs[j], List.getElem_mem _, rfl⟩)
      simp [List.count_replicate, hne, ih hnodup.2 hj']

/-- The index of each run's last element, the runs laid out from index `o`. -/
def lastIndices (o : ℕ) : List (α × ℕ) → List ℕ
  | [] => []
  | r :: rs => (o + r.2 - 1) :: lastIndices (o + r.2) rs

@[simp] theorem lastIndices_nil (o : ℕ) : lastIndices o ([] : List (α × ℕ)) = [] := rfl

@[simp] theorem lastIndices_cons (o : ℕ) (r : α × ℕ) (rs : List (α × ℕ)) :
    lastIndices o (r :: rs) = (o + r.2 - 1) :: lastIndices (o + r.2) rs := rfl

@[simp] theorem length_lastIndices (o : ℕ) (rs : List (α × ℕ)) :
    (lastIndices o rs).length = rs.length := by
  induction rs generalizing o with
  | nil => rfl
  | cons r rs ih => simp [ih]

/-- One more element at the head of the first run moves the layout back by one. -/
theorem lastIndices_succ (o : ℕ) (a : α) (n : ℕ) (rs : List (α × ℕ)) :
    lastIndices o ((a, n + 1) :: rs) = lastIndices (o + 1) ((a, n) :: rs) := by
  simp only [lastIndices_cons]
  rw [show o + (n + 1) = o + 1 + n by omega]

section Positive

variable {rs : List (α × ℕ)} (hpos : ∀ r ∈ rs, 0 < r.2)
include hpos

/-- Every last index lies inside the expansion laid out from `o`. -/
theorem lt_of_mem_lastIndices {o e : ℕ} (he : e ∈ lastIndices o rs) :
    e < o + (expand rs).length := by
  induction rs generalizing o with
  | nil => simp at he
  | cons r rs ih =>
    have hr := hpos r List.mem_cons_self
    rw [lastIndices_cons, List.mem_cons] at he
    rcases he with rfl | he
    · simp; omega
    · have := ih (fun r' hr' => hpos r' (List.mem_cons_of_mem r hr')) he
      simp; omega

/-- The last of the last indices is that of the whole expansion. -/
theorem getLast?_lastIndices (o : ℕ) (hne : rs ≠ []) :
    (lastIndices o rs).getLast? = some (o + (expand rs).length - 1) := by
  induction rs generalizing o with
  | nil => exact absurd rfl hne
  | cons r rs ih =>
    cases rs with
    | nil => simp
    | cons r' rs' =>
      have hr := hpos r List.mem_cons_self
      have hr' := hpos r' (List.mem_cons_of_mem r List.mem_cons_self)
      rw [lastIndices_cons, lastIndices_cons, List.getLast?_cons_cons, ← lastIndices_cons,
        ih (fun q hq => hpos q (List.mem_cons_of_mem r hq)) (o + r.2) (List.cons_ne_nil _ _)]
      simp only [expand_cons, List.length_append, List.length_replicate, Option.some.injEq]
      omega

/-- The gaps between consecutive elements of a list. -/
def gaps (l : List ℕ) : List ℕ := (l.zip l.tail).map fun p => p.2 - p.1

/-- The run lengths are the gaps between the start and one past each last index. -/
theorem gaps_lastIndices (o : ℕ) :
    gaps (o :: (lastIndices o rs).map (· + 1)) = rs.map Prod.snd := by
  induction rs generalizing o with
  | nil => rfl
  | cons r rs ih =>
    have hr := hpos r List.mem_cons_self
    have hnext : o + r.2 - 1 + 1 = o + r.2 := by omega
    have htail := ih (fun q hq => hpos q (List.mem_cons_of_mem r hq)) (o + r.2)
    simp only [gaps, lastIndices_cons, List.map_cons, List.tail_cons, List.zip_cons_cons,
      hnext] at htail ⊢
    rw [htail]
    simp

/-- The start and one past each last index ascend. -/
theorem isChain_lastIndices (o : ℕ) :
    List.IsChain (· ≤ ·) (o :: (lastIndices o rs).map (· + 1)) := by
  induction rs generalizing o with
  | nil => exact List.isChain_singleton o
  | cons r rs ih =>
    have hr := hpos r List.mem_cons_self
    have hnext : o + r.2 - 1 + 1 = o + r.2 := by omega
    rw [lastIndices_cons, List.map_cons, hnext]
    exact List.IsChain.cons_cons (by omega) (ih (fun q hq => hpos q (List.mem_cons_of_mem r hq)) _)

/-- `Vec::resize`: truncated to `n`, or filled up to `n` with `x`. -/
def resize (l : List α) (n : ℕ) (x : α) : List α :=
  if n ≤ l.length then l.take n else l ++ List.replicate (n - l.length) x

/-- Resizing up to one past each last index, with the run's item, appends the expansion. -/
theorem foldl_resize_lastIndices (o : ℕ) (acc : List α) (hacc : acc.length = o) :
    ((lastIndices o rs).zip (rs.map Prod.fst)).foldl (fun l p => resize l (p.1 + 1) p.2) acc =
      acc ++ expand rs := by
  induction rs generalizing o acc with
  | nil => simp
  | cons r rs ih =>
    have hr := hpos r List.mem_cons_self
    -- the run's last index is past what was written, so `resize` appends the whole run
    have hstep : resize acc (o + r.2 - 1 + 1) r.1 = acc ++ List.replicate r.2 r.1 := by
      rw [resize, if_neg (by omega), show o + r.2 - 1 + 1 - acc.length = r.2 by omega]
    simp only [lastIndices_cons, List.map_cons, List.zip_cons_cons, List.foldl_cons, hstep]
    rw [ih (fun q hq => hpos q (List.mem_cons_of_mem r hq)) (o + r.2) _ (by simp [hacc])]
    simp

/-- The item at a position is the item of the run at the partition point of the last indices
below the position. -/
theorem getElem?_partitionPoint_lastIndices (o v : ℕ) :
    (rs.map Prod.fst)[List.partitionPoint (fun e => decide (e < v)) (lastIndices o rs)]? =
      (expand rs)[v - o]? := by
  induction rs generalizing o with
  | nil => simp
  | cons r rs ih =>
    have hr := hpos r List.mem_cons_self
    rw [lastIndices_cons, List.partitionPoint_cons]
    by_cases hv : v < o + r.2
    · -- the position is in this run
      have hlt : v - o < r.2 := by omega
      simp [show ¬ o + r.2 - 1 < v by omega, List.getElem?_append_left
        (show v - o < (List.replicate r.2 r.1).length by simpa using hlt), hlt]
    · have hle : r.2 ≤ v - o := by omega
      simp only [show o + r.2 - 1 < v by omega, decide_true, if_true, List.map_cons,
        List.getElem?_cons_succ, expand_cons]
      rw [ih (fun q hq => hpos q (List.mem_cons_of_mem r hq)) (o + r.2),
        List.getElem?_append_right (by simpa using hle)]
      simp only [List.length_replicate]
      rw [show v - o - r.2 = v - (o + r.2) by omega]

end Positive

section Runs

variable [DecidableEq α]

/-- The maximal runs of equal elements. -/
def runs : List α → List (α × ℕ)
  | [] => []
  | a :: l =>
    match runs l with
    | r :: rs => if a = r.1 then (a, r.2 + 1) :: rs else (a, 1) :: r :: rs
    | [] => [(a, 1)]

@[simp] theorem runs_nil : runs ([] : List α) = [] := rfl

attribute [local simp] runs in
theorem runs_cons (a : α) (l : List α) : ∃ n rs, runs (a :: l) = (a, n + 1) :: rs := by
  cases l with
  | nil => exact ⟨0, [], rfl⟩
  | cons b l =>
    obtain ⟨m, rs, hb⟩ := runs_cons b l
    by_cases hab : a = b
    · exact ⟨m + 1, rs, by rw [runs, hb]; simp [hab]⟩
    · exact ⟨0, (b, m + 1) :: rs, by rw [runs, hb]; simp [hab]⟩

theorem runs_cons_cons_of_ne {a b : α} (hab : a ≠ b) (l : List α) :
    runs (a :: b :: l) = (a, 1) :: runs (b :: l) := by
  obtain ⟨m, rs, hb⟩ := runs_cons b l
  rw [runs, hb]
  simp [hab]

theorem runs_cons_cons_self {a : α} {l : List α} {n : ℕ} {rs : List (α × ℕ)}
    (h : runs (a :: l) = (a, n) :: rs) : runs (a :: a :: l) = (a, n + 1) :: rs := by
  rw [runs, h]
  simp

theorem pos_of_mem_runs {l : List α} : ∀ r ∈ runs l, 0 < r.2 := by
  induction l with
  | nil => simp
  | cons a l ih =>
    intro r hr
    cases l with
    | nil => simp [runs] at hr; simp [hr]
    | cons b l =>
      by_cases hab : a = b
      · -- the head run grows, the others are those of the rest
        subst hab
        obtain ⟨n, rs, h⟩ := runs_cons a l
        rw [runs_cons_cons_self h, List.mem_cons] at hr
        rcases hr with rfl | hr
        · simp
        · exact ih r (by rw [h]; exact List.mem_cons_of_mem _ hr)
      · rw [runs_cons_cons_of_ne hab, List.mem_cons] at hr
        rcases hr with rfl | hr
        · simp
        · exact ih r hr

@[simp] theorem expand_runs (l : List α) : expand (runs l) = l := by
  induction l with
  | nil => rfl
  | cons a l ih =>
    cases l with
    | nil => rfl
    | cons b l =>
      by_cases hab : a = b
      · subst hab
        obtain ⟨n, rs, h⟩ := runs_cons a l
        rw [h] at ih
        rw [runs_cons_cons_self h]
        simp only [expand_cons, List.replicate_succ, List.cons_append] at ih ⊢
        rw [ih]
      · rw [runs_cons_cons_of_ne hab, expand_cons, ih]
        rfl

end Runs

end RunLength
