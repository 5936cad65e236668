import Mathlib
import RisingWave.Stream.TopNCache
import RisingWave.Lib.Lex

/-!
# Plain TopN: the caches as a window over the table

For `TopNCache<false>` the rows of `low`, `middle` and `high`, followed by the rows
no cache holds (`rest`), are the state table in key order (`Window`): `low` is
the first `offset` rows unless there are fewer, `middle` the next `limit` unless
there are fewer, and `high` a run of at most `high_capacity` rows after them.
`Shape` is the part of it the `assert!`s of the `is_*_cache_full` checks read.

An insert and an exchange with a cache's last row keep the window because an
inserted row lands in the cache whose key range it falls in
(`SortedMap.insertList_append_of_forall_lt` and `_gt`).
-/

namespace RisingWave.Stream

open SortedMap

variable {σ π ρ : Type} [LinearOrder σ] [LinearOrder π]

namespace TopNCache

/-- The rows of the caches followed by `rest`. -/
def rows {wt : Bool} (c : TopNCache wt σ π ρ) (rest : List ((σ ×ₗ π) × ρ)) :
    List ((σ ×ₗ π) × ρ) :=
  c.low.entries ++ c.middle.entries ++ c.high.entries ++ rest

/-- What the `assert!`s of the `is_*_cache_full` checks of a plain cache need. -/
structure Shape (c : TopNCache false σ π ρ) : Prop where
  low_le : c.low.len ≤ c.offset
  low_full : c.low.len < c.offset → c.middle.entries = [] ∧ c.high.entries = []
  middle_le : c.middle.len ≤ c.limit
  middle_full : c.middle.len < c.limit → c.high.entries = []
  high_le : c.high.len ≤ c.highCapacity

/-- The plain cache over the rows `c.rows rest`, sorted by key. -/
structure Window (c : TopNCache false σ π ρ) (rest : List ((σ ×ₗ π) × ρ)) : Prop
    extends c.Shape where
  sorted : (c.rows rest).Pairwise fun a b => a.1 < b.1
  low_full_rest : c.low.len < c.offset → rest = []
  middle_full_rest : c.middle.len < c.limit → rest = []

variable {c : TopNCache false σ π ρ}

theorem Shape.isLowCacheFull_eq (h : c.Shape) :
    c.isLowCacheFull = some (decide (c.low.len = c.offset)) := by
  unfold isLowCacheFull
  by_cases hfull : c.low.len = c.offset
  · simp [hfull]
  · obtain ⟨hm, hh⟩ := h.low_full (lt_of_le_of_ne h.low_le hfull)
    simp [h.low_le, hfull, isEmpty_of_entries_eq_nil hm, isEmpty_of_entries_eq_nil hh]

/-- A full `middle` has a full `low` below it. -/
theorem Shape.low_full_of_middle_full (h : c.Shape) (hfull : c.limit ≤ c.middle.len) :
    c.low.len = c.offset := by
  by_contra hne
  have hm := (h.low_full (lt_of_le_of_ne h.low_le hne)).1
  have hpos := c.limit_pos
  simp only [len_eq, hm, List.length_nil] at hfull
  omega

theorem Shape.isMiddleCacheFull_eq (h : c.Shape) :
    c.isMiddleCacheFull = some (decide (c.limit ≤ c.middle.len)) := by
  unfold isMiddleCacheFull
  by_cases hfull : c.limit ≤ c.middle.len
  · simp [h.middle_le, hfull, h.isLowCacheFull_eq, h.low_full_of_middle_full hfull]
  · simp [h.middle_le, hfull, isEmpty_of_entries_eq_nil (h.middle_full (not_le.mp hfull))]

theorem Shape.isHighCacheFull_eq (h : c.Shape) :
    c.isHighCacheFull = some (decide (c.highCapacity ≤ c.high.len)) := by
  simp [isHighCacheFull, h.high_le]

attribute [local simp] rows in
/-- The rows of a window are its caches' rows and `rest`, sorted. -/
theorem Window.rows_eq {rest} (_ : c.Window rest) :
    c.rows rest = c.low.entries ++ (c.middle.entries ++ (c.high.entries ++ rest)) := by
  simp [rows]

/-! ## Sorted splits -/

section Sorted

variable {l r : List ((σ ×ₗ π) × ρ)}

theorem lt_of_sorted_append (h : (l ++ r).Pairwise fun a b => a.1 < b.1) {a b : (σ ×ₗ π) × ρ}
    (ha : a ∈ l) (hb : b ∈ r) : a.1 < b.1 :=
  (List.pairwise_append.mp h).2.2 a ha b hb

/-- Every key of a sorted list is at most that of its last entry. -/
theorem le_of_sorted_concat {init : List ((σ ×ₗ π) × ρ)} {x : (σ ×ₗ π) × ρ}
    (h : (init ++ [x]).Pairwise fun a b => a.1 < b.1) {e : (σ ×ₗ π) × ρ} (he : e ∈ init ++ [x]) :
    e.1 ≤ x.1 := by
  rcases List.mem_append.mp he with he | he
  · exact (lt_of_sorted_append h he List.mem_cons_self).le
  · rw [List.mem_singleton.mp he]

end Sorted

/-! ## Passing a row on from `low` -/

attribute [local simp] len in
/-- `exchangeLowLast` on the rows `low ++ R`: inserting the row into `low ++ R` is
inserting it into `low`, whose length stays, and the row passed on into `R`. That row
is the new one, or `low`'s last row, which is below every row of `R`. -/
theorem exchangeLowLast_spec {R : List ((σ ×ₗ π) × ρ)} (k : σ ×ₗ π) (v : ρ)
    (hs : (c.low.entries ++ R).Pairwise fun a b => a.1 < b.1)
    (hk : ∀ e ∈ c.low.entries ++ R, e.1 ≠ k) :
    ∃ low elem, c.exchangeLowLast k v = ({ c with low }, elem) ∧ low.len = c.low.len ∧
      insertList k v (c.low.entries ++ R) = low.entries ++ insertList elem.1 elem.2 R ∧
      (∀ e ∈ low.entries, e.1 < elem.1) ∧ (∀ e ∈ R, e.1 ≠ elem.1) ∧
      (elem = (k, v) ∨ ∀ e ∈ R, elem.1 < e.1) := by
  have hR : ∀ e ∈ R, e.1 ≠ k := fun e he => hk e (List.mem_append_right _ he)
  rcases List.eq_nil_or_concat' c.low.entries with hnil | ⟨init, ll, hll⟩
  · refine ⟨c.low, (k, v), ?_, rfl, ?_, by simp [hnil], hR, .inl rfl⟩
    · simp [exchangeLowLast, popLast_of_entries_eq_nil hnil]
    · simp [hnil]
  · rw [hll] at hs hk
    have hsorted : (init ++ [ll]).Pairwise fun a b => a.1 < b.1 := by
      rw [← hll]
      exact c.low.sorted
    have hllR : ∀ e ∈ R, ll.1 < e.1 := fun e he => lt_of_sorted_append hs (by simp) he
    by_cases hle : k ≤ ll.1
    · -- The row takes the place of `low`'s last row, which is passed on.
      have hlt : k < ll.1 := lt_of_le_of_ne hle (Ne.symm (hk ll (by simp)))
      have hinit : ∀ e ∈ init, e.1 ≠ k := fun e he => hk e (by simp [he])
      refine ⟨c.low.dropLast.insert k v, ll, ?_, ?_, ?_, ?_, fun e he => (hllR e he).ne', .inr hllR⟩
      · simp [exchangeLowLast, popLast_of_entries_eq_concat hll, hle]
      · simp [len, hll, (insertList_perm v hinit).length_eq]
      · have hright : ∀ e ∈ ll :: R, k < e.1 := by
          intro e he
          rcases List.mem_cons.mp he with rfl | he
          · exact hlt
          · exact hlt.trans (hllR e he)
        rw [hll, List.append_assoc, List.singleton_append, insertList_append_of_forall_lt v _ hright,
          insertList_of_forall_lt ll.2 hllR]
        simp [hll]
      · intro e he
        simp only [insert_entries, dropLast_entries, hll, List.dropLast_concat] at he
        rcases mem_insertList he with rfl | he
        · exact hlt
        · exact lt_of_sorted_append hsorted he List.mem_cons_self
    · -- The row passes `low` by.
      have hgt : ∀ e ∈ init ++ [ll], e.1 < k :=
        fun e he => lt_of_le_of_lt (le_of_sorted_concat hsorted he) (not_le.mp hle)
      refine ⟨c.low, (k, v), ?_, rfl, ?_, by rw [hll]; exact hgt, hR, .inl rfl⟩
      · simp [exchangeLowLast, popLast_of_entries_eq_concat hll, hle]
      · rw [hll, insertList_append_of_forall_gt v _ hgt]

/-! ## Append-only TopN -/

section AppendOnly

variable {table : TopNCacheState σ π ρ} {k : σ ×ₗ π} {v : ρ}

theorem Shape.with_low {low : TopNCacheState σ π ρ} (h : c.Shape) (hlen : low.len = c.low.len) :
    ({ c with low } : TopNCache false σ π ρ).Shape :=
  ⟨hlen ▸ h.low_le, fun hl => h.low_full (hlen ▸ hl), h.middle_le, h.middle_full, h.high_le⟩

attribute [local simp] appendOnlyInsert in
/-- A row at or above a full `middle`'s last key is dropped. -/
theorem appendOnlyInsert_of_ge {ml : (σ ×ₗ π) × ρ} (h : c.Shape) (hfull : c.limit ≤ c.middle.len)
    (hml : c.middle.last? = some ml) (hge : ml.1 ≤ k) :
    c.appendOnlyInsert table k v = some (table, c, []) := by
  simp [appendOnlyInsert, h.isMiddleCacheFull_eq, hfull, hml, hge]

/-- Below a full `low`, the row goes into `low`. -/
theorem appendOnlyInsert_of_low_lt (h : c.Shape) (hlow : c.low.len < c.offset) :
    c.appendOnlyInsert table k v = some (table.insert k v, { c with low := c.low.insert k v }, []) := by
  have hnf : ¬ c.limit ≤ c.middle.len := by
    have := c.limit_pos
    simp [len, (h.low_full hlow).1]
    omega
  simp [appendOnlyInsert, h.isMiddleCacheFull_eq, hnf, h.isLowCacheFull_eq, hlow.ne]

/-- Into a `middle` that is not full, the row `low` passes on goes. -/
theorem appendOnlyInsert_of_middle_lt {low : TopNCacheState σ π ρ} {elem : (σ ×ₗ π) × ρ}
    (h : c.Shape) (hnf : c.middle.len < c.limit) (hlow : c.low.len = c.offset)
    (hex : c.exchangeLowLast k v = ({ c with low }, elem)) (hlen : low.len = c.low.len) :
    c.appendOnlyInsert table k v = some (table.insert k v,
      { c with low, middle := c.middle.insert elem.1 elem.2 }, [(.insert, elem.2)]) := by
  have h₁ := h.with_low hlen
  simp [appendOnlyInsert, h.isMiddleCacheFull_eq, not_le.mpr hnf, h.isLowCacheFull_eq, hlow, hex,
    h₁.isMiddleCacheFull_eq]

/-- Below the last key of a full `middle`, the row `low` passes on replaces that last row,
which leaves the state table. -/
theorem appendOnlyInsert_of_lt {low : TopNCacheState σ π ρ} {elem ml : (σ ×ₗ π) × ρ}
    {init : List ((σ ×ₗ π) × ρ)} (h : c.Shape) (hfull : c.limit ≤ c.middle.len)
    (hml : c.middle.entries = init ++ [ml]) (hlt : k < ml.1)
    (hex : c.exchangeLowLast k v = ({ c with low }, elem)) (hlen : low.len = c.low.len) :
    c.appendOnlyInsert table k v = some ((table.insert k v).erase ml.1,
      { c with low, middle := c.middle.dropLast.insert elem.1 elem.2 },
      [(.delete, ml.2), (.insert, elem.2)]) := by
  have h₁ := h.with_low hlen
  have hlow := h.low_full_of_middle_full hfull
  have hlast : c.middle.last? = some ml := by simp [last?, hml]
  simp [appendOnlyInsert, h.isMiddleCacheFull_eq, hfull, hlast, not_le.mpr hlt,
    h.isLowCacheFull_eq, hlow, hex, h₁.isMiddleCacheFull_eq, popLast_of_entries_eq_concat hml]

/-- One `appendOnlyInsert` keeps the window, with `high` empty and the state table
holding `low` and `middle`; the window's rows gain the row, and the changes recorded
turn `middle` into the new one. -/
theorem appendOnlyInsert_window [DecidableEq ρ] {rest : List ((σ ×ₗ π) × ρ)} (hw : c.Window rest)
    (hhigh : c.high.entries = []) (htable : table.entries = c.low.entries ++ c.middle.entries)
    (hk : ∀ e ∈ c.rows rest, e.1 ≠ k) :
    ∃ table' c' ops rest', c.appendOnlyInsert table k v = some (table', c', ops) ∧
      c'.offset = c.offset ∧ c'.limit = c.limit ∧ c'.Window rest' ∧ c'.high.entries = [] ∧
      table'.entries = c'.low.entries ++ c'.middle.entries ∧
      c'.rows rest' = insertList k v (c.rows rest) ∧
      applyChanges c.middle.values ops = c'.middle.values := by
  have hrows : c.rows rest = c.low.entries ++ (c.middle.entries ++ rest) := by
    simp [rows, hhigh]
  have hs := hw.sorted
  rw [hrows] at hk hs
  have hsm : (c.low.entries ++ c.middle.entries).Pairwise fun a b => a.1 < b.1 :=
    hs.sublist (by simp)
  have hkm : ∀ e ∈ c.low.entries ++ c.middle.entries, e.1 ≠ k :=
    fun e he => hk e (by simp only [List.mem_append] at he ⊢; tauto)
  by_cases hfull : c.limit ≤ c.middle.len
  · -- `middle` is full, so not empty, and so is `low`.
    have hlow := hw.low_full_of_middle_full hfull
    obtain ⟨init, ml, hml⟩ : ∃ init ml, c.middle.entries = init ++ [ml] := by
      rcases List.eq_nil_or_concat' c.middle.entries with h | h
      · have := c.limit_pos
        simp only [len, h, List.length_nil] at hfull
        omega
      · exact h
    have hlm : c.low.entries ++ c.middle.entries = c.low.entries ++ init ++ [ml] := by
      simp [hml]
    by_cases hge : ml.1 ≤ k
    · -- The row sorts after `middle`: it is dropped, and nothing changes.
      have hgt : ∀ e ∈ c.low.entries ++ c.middle.entries, e.1 < k := fun e he =>
        lt_of_le_of_ne ((le_of_sorted_concat (hlm ▸ hsm) (hlm ▸ he)).trans hge) (hkm e he)
      have hins : c.rows (insertList k v rest) = insertList k v (c.rows rest) := by
        rw [hrows, ← List.append_assoc, insertList_append_of_forall_gt v _ hgt]
        simp [rows, hhigh]
      refine ⟨table, c, [], insertList k v rest,
        appendOnlyInsert_of_ge hw.toShape hfull (by simp [last?, hml]) hge, rfl, rfl,
        ⟨hw.toShape, hins ▸ insertList_sorted k v hw.sorted, fun h => by omega,
          fun h => absurd hfull (not_le.mpr h)⟩, hhigh, htable, hins, rfl⟩
    · -- The row goes into `low ++ middle`, and `middle`'s last row leaves.
      obtain ⟨low, elem, hex, hlen, hins, hlow_lt, hfresh, helem⟩ :=
        exchangeLowLast_spec (R := c.middle.entries ++ rest) k v hs hk
      obtain ⟨low₂, elem₂, hex₂, -, hins₂, -, -, -⟩ :=
        exchangeLowLast_spec (R := c.middle.entries) k v hsm hkm
      obtain ⟨hl, he⟩ : low = low₂ ∧ elem = elem₂ := by
        rw [hex] at hex₂
        simpa using hex₂
      subst hl he
      have hmlR : ∀ e ∈ rest, ml.1 < e.1 := fun e he =>
        lt_of_sorted_append (l := c.low.entries ++ c.middle.entries) (by simpa using hs)
          (by simp [hml]) he
      have helt : elem.1 < ml.1 := by
        rcases helem with rfl | h
        · exact not_le.mp hge
        · exact h ml (by simp [hml])
      have hright : ∀ e ∈ ml :: rest, elem.1 < e.1 := by
        intro e he
        rcases List.mem_cons.mp he with rfl | he
        · exact helt
        · exact helt.trans (hmlR e he)
      have hinit : ∀ e ∈ init, e.1 ≠ elem.1 := fun e he => hfresh e (by simp [hml, he])
      have hnew : insertList elem.1 elem.2 init ++ [ml] = insertList elem.1 elem.2 c.middle.entries := by
        rw [hml, insertList_append_of_forall_lt elem.2 init (fun e he => by simp_all)]
      -- The new rows: `low`, `middle` without its last row and with the passed row, then the
      -- old last row followed by `rest`.
      have hrows' : low.entries ++ insertList elem.1 elem.2 init ++ (ml :: rest) =
          insertList k v (c.rows rest) := by
        rw [hrows, hins, hml, List.append_assoc init, List.singleton_append,
          insertList_append_of_forall_lt elem.2 init hright, List.append_assoc]
      have hfresh' : ∀ e ∈ c.middle.dropLast.entries, e.1 ≠ elem.1 := by simpa [hml] using hinit
      have hc'rows : ({ c with low, middle := c.middle.dropLast.insert elem.1 elem.2 } :
          TopNCache false σ π ρ).rows (ml :: rest) = insertList k v (c.rows rest) := by
        rw [← hrows']
        simp [rows, hhigh, hml]
      have hmlen : (c.middle.dropLast.insert elem.1 elem.2).len = c.middle.len := by
        rw [len_insert _ _ hfresh']
        simp [len, hml]
      refine ⟨(table.insert k v).erase ml.1,
        { c with low, middle := c.middle.dropLast.insert elem.1 elem.2 },
        [(.delete, ml.2), (.insert, elem.2)], ml :: rest,
        appendOnlyInsert_of_lt hw.toShape hfull hml (not_le.mp hge) hex hlen, rfl, rfl,
        ⟨⟨by simpa [hlen] using hw.low_le, fun h => by simp [hlen] at h; omega,
          hmlen ▸ hw.middle_le, fun h => absurd hfull (by rw [← hmlen]; exact not_le.mpr h),
          hw.high_le⟩, hc'rows ▸ insertList_sorted k v hw.sorted, fun h => by simp [hlen] at h; omega,
          fun h => absurd hfull (by rw [← hmlen]; exact not_le.mpr h)⟩, hhigh, ?_, hc'rows, ?_⟩
      · -- The table gains the row and loses `middle`'s last row.
        have hml_ne : ∀ e ∈ low.entries ++ insertList elem.1 elem.2 init, e.1 ≠ ml.1 := by
          intro e he
          rcases List.mem_append.mp he with he | he
          · exact (hlow_lt e he |>.trans helt).ne
          · rcases mem_insertList he with rfl | he
            · exact helt.ne
            · exact (lt_of_sorted_append (l := init) (by simpa [hml] using c.middle.sorted) he
                List.mem_cons_self).ne
        simp only [erase_entries, insert_entries, htable, hins₂, ← hnew, ← List.append_assoc,
          eraseList_append, eraseList_of_forall_ne hml_ne]
        simp [eraseList, hml]
      · rw [values_insert _ _ hfresh', values_dropLast hml]
        simp

  · -- `middle` is not full: nothing follows it.
    have hrest := hw.middle_full_rest (not_le.mp hfull)
    subst hrest
    rw [List.append_nil] at hk hs
    by_cases hlowlt : c.low.len < c.offset
    · -- `low` is not full either: the row goes into `low`.
      have hm := (hw.low_full hlowlt).1
      have hk' : ∀ e ∈ c.low.entries, e.1 ≠ k := by simpa [hm] using hk
      have hc'rows : ({ c with low := c.low.insert k v } : TopNCache false σ π ρ).rows [] =
          insertList k v (c.rows []) := by
        simp [rows, hm, hhigh]
      have hlen := len_insert c.low v hk'
      refine ⟨table.insert k v, { c with low := c.low.insert k v }, [], [],
        appendOnlyInsert_of_low_lt hw.toShape hlowlt, rfl, rfl,
        ⟨⟨by dsimp only; rw [hlen]; omega, fun _ => ⟨hm, hhigh⟩, hw.middle_le, fun _ => hhigh, hw.high_le⟩,
          hc'rows ▸ insertList_sorted k v hw.sorted, fun _ => rfl, fun _ => rfl⟩,
        hhigh, by simp [htable, hm], hc'rows, rfl⟩
    · -- `low` is full: the row `low` passes on goes into `middle`.
      have hlowfull : c.low.len = c.offset := le_antisymm hw.low_le (not_lt.mp hlowlt)
      obtain ⟨low, elem, hex, hlen, hins, -, hfresh, -⟩ :=
        exchangeLowLast_spec (R := c.middle.entries) k v hs hk
      have hmlen := len_insert c.middle elem.2 hfresh
      have hc'rows : ({ c with low, middle := c.middle.insert elem.1 elem.2 } :
          TopNCache false σ π ρ).rows [] = insertList k v (c.rows []) := by
        simp [rows, hhigh, hins]
      refine ⟨table.insert k v, { c with low, middle := c.middle.insert elem.1 elem.2 },
        [(.insert, elem.2)], [],
        appendOnlyInsert_of_middle_lt hw.toShape (not_le.mp hfull) hlowfull hex hlen, rfl, rfl,
        ⟨⟨by rw [hlen]; exact hw.low_le, fun h => by dsimp only at h; rw [hlen] at h; omega,
          by rw [hmlen]; exact not_le.mp hfull, fun _ => hhigh, hw.high_le⟩,
          hc'rows ▸ insertList_sorted k v hw.sorted, fun _ => rfl, fun _ => rfl⟩,
        hhigh, by simp [htable, hins], hc'rows, ?_⟩
      rw [values_insert _ _ hfresh]
      simp

/-- Without `high`, the window's first `offset + limit` rows are `low` and `middle`. -/
theorem Window.take_eq {rest : List ((σ ×ₗ π) × ρ)} (hw : c.Window rest)
    (hhigh : c.high.entries = []) :
    (c.rows rest).take (c.offset + c.limit) = c.low.entries ++ c.middle.entries := by
  have hle : c.low.len ≤ c.offset := hw.low_le
  have hmle : c.middle.len ≤ c.limit := hw.middle_le
  by_cases hfull : c.limit ≤ c.middle.len
  · have hlow := hw.low_full_of_middle_full hfull
    have hlen : (c.low.entries ++ c.middle.entries).length = c.offset + c.limit := by
      simp only [len] at hlow hfull hmle
      simp only [List.length_append]
      omega
    rw [rows, hhigh, List.append_nil, ← hlen, List.take_left]
  · have hrest := hw.middle_full_rest (not_le.mp hfull)
    have hrows : c.rows rest = c.low.entries ++ c.middle.entries := by simp [rows, hhigh, hrest]
    rw [hrows]
    apply List.take_of_length_le
    simp only [len] at hle hfull
    simp only [List.length_append]
    omega

end AppendOnly

/-! ## Deletes -/

/-- Deleting a row of `low` while `middle` holds one row and `high` none panics: `middle`'s
row moves down to `low`, and the refill of the empty `high` unwraps the last key of the
now empty `middle`. -/
theorem delete_of_mem_low_eq_none {rest : List ((σ ×ₗ π) × ρ)} (hw : c.Window rest)
    (table : List ((σ ×ₗ π) × ρ)) {k : σ ×ₗ π} {v : ρ} (hk : (k, v) ∈ c.low.entries)
    {m : (σ ×ₗ π) × ρ} (hm : c.middle.entries = [m]) (hh : c.high.entries = []) :
    c.delete table k v = none := by
  -- `middle` is not empty, so `low` is full; it holds the row, so `offset` is not 0.
  have hlow : c.low.len = c.offset := by
    by_contra hne
    have := (hw.low_full (lt_of_le_of_ne hw.low_le hne)).1
    simp [hm] at this
  have hoff : c.offset ≠ 0 := by
    have : 0 < c.low.len := by rw [len_eq]; exact List.length_pos_of_mem hk
    omega
  obtain ⟨init, l, hl⟩ : ∃ init l, c.low.entries = init ++ [l] := by
    rcases List.eq_nil_or_concat' c.low.entries with h | h
    · simp [h] at hk
    · exact h
  -- The row's key is at most `low`'s last and below `middle`'s: it is found in `low`.
  have hkl : k ≤ l.1 := le_of_sorted_concat (hl ▸ c.low.sorted) (hl ▸ hk)
  have hkm : k < m.1 := by
    have hs := hw.sorted
    rw [hw.rows_eq, hm] at hs
    exact lt_of_sorted_append hs hk List.mem_cons_self
  have hlowf : c.isLowCacheFull = some true := by simp [hw.isLowCacheFull_eq, hlow]
  have hmid : c.isMiddleCacheFull = some (decide (c.limit ≤ 1)) := by
    simp [hw.isMiddleCacheFull_eq, len_eq, hm]
  by_cases hfull : c.limit ≤ 1 <;>
  simp [delete, hmid, hlowf, hoff, last?_eq, hm, hl, not_lt.mpr hkm.le, not_lt.mpr hkl, hfull,
    popFirst_of_entries_eq_cons hm, refillHigh, isEmpty_of_entries_eq_nil hh]

/-- Offset 1 and limit 1 over the rows (1) and (2): `init_topn_cache` puts (1) in `low` and
(2) in `middle`, and deleting (1) panics. -/
theorem applyTopNChunk_delete_low_panics :
    (((TopNCache.new 1 1).bind (TopNCache.initTopNCache
        [(toLex ([1], []), ([1], [])), (toLex ([2], []), ([2], []))])).bind
      (fun c : TopNCache false (List UInt8) (List UInt8) (List UInt8 × List UInt8) =>
        applyTopNChunk TopNCache.insert TopNCache.delete toLex
          ((SortedMap.empty.insert (toLex ([1], [])) ([1], [])).insert (toLex ([2], [])) ([2], []))
          c [(.delete, ([1], []))])).isNone = true := by
  decide +kernel

/-! ## Runs -/

/-- An empty cache is a window over no rows. -/
theorem window_of_empty (hl : c.low.entries = []) (hm : c.middle.entries = [])
    (hh : c.high.entries = []) : c.Window [] where
  low_le := by simp [len, hl]
  low_full _ := ⟨hm, hh⟩
  middle_le := by simp [len, hm]
  middle_full _ := hh
  high_le := by simp [len, hh]
  sorted := by simp [rows, hl, hm, hh]
  low_full_rest _ := rfl
  middle_full_rest _ := rfl

/-- The rows seen, in key order. -/
def seenRows (cacheKey : ρ → σ ×ₗ π) (rows : List ρ) : List ((σ ×ₗ π) × ρ) :=
  rows.foldl (fun S r => insertList (cacheKey r) r S) []

theorem fresh_insertList {S : List ((σ ×ₗ π) × ρ)} {k k' : σ ×ₗ π} {v : ρ} (hne : k ≠ k')
    (h : ∀ e ∈ S, e.1 ≠ k') : ∀ e ∈ insertList k v S, e.1 ≠ k' := by
  intro e he
  rcases mem_insertList he with rfl | he
  · exact hne
  · exact h e he

/-- A run of `appendOnlyInsert`s over rows of distinct keys keeps the window over the rows
seen, with the table holding `low` and `middle`; the changes recorded along the run turn
the first `middle` into the last. -/
theorem applyAppendOnly_window [DecidableEq ρ] (cacheKey : ρ → σ ×ₗ π) (rows : List ρ)
    (hkeys : (rows.map cacheKey).Nodup) (M : Multiset ρ) :
    ∀ (table : TopNCacheState σ π ρ) (c : TopNCache false σ π ρ) rest out,
      c.Window rest → c.high.entries = [] → table.entries = c.low.entries ++ c.middle.entries →
      (∀ r ∈ rows, ∀ e ∈ c.rows rest, e.1 ≠ cacheKey r) → applyChanges M out = c.middle.values →
      ∃ table' c' rest' out', rows.foldlM (fun s row => do
          let (table, cache, ops) ← appendOnlyInsert s.1 s.2.1 (cacheKey row) row
          return (table, cache, s.2.2 ++ ops)) (table, c, out) = some (table', c', out') ∧
        c'.offset = c.offset ∧ c'.limit = c.limit ∧ c'.Window rest' ∧ c'.high.entries = [] ∧
        table'.entries = c'.low.entries ++ c'.middle.entries ∧
        c'.rows rest' = rows.foldl (fun S r => insertList (cacheKey r) r S) (c.rows rest) ∧
        applyChanges M out' = c'.middle.values := by
  induction rows with
  | nil =>
    intro table c rest out hw hhigh htable _ hout
    exact ⟨table, c, rest, out, rfl, rfl, rfl, hw, hhigh, htable, rfl, hout⟩
  | cons r rows ih =>
    intro table c rest out hw hhigh htable hfresh hout
    rw [List.map_cons, List.nodup_cons] at hkeys
    obtain ⟨table₁, c₁, ops, rest₁, hstep, hoff, hlim, hw₁, hhigh₁, htable₁, hrows₁, hops⟩ :=
      appendOnlyInsert_window (k := cacheKey r) (v := r) hw hhigh htable
        (hfresh r List.mem_cons_self)
    have hfresh₁ : ∀ r' ∈ rows, ∀ e ∈ c₁.rows rest₁, e.1 ≠ cacheKey r' := by
      intro r' hr' e he
      rw [hrows₁] at he
      exact fresh_insertList (fun h => hkeys.1 (by rw [h]; exact List.mem_map_of_mem hr'))
        (hfresh r' (List.mem_cons_of_mem _ hr')) e he
    obtain ⟨table', c', rest', out', hrun, hoff', hlim', hw', hhigh', htable', hrows', hout'⟩ :=
      ih hkeys.2 table₁ c₁ rest₁ (out ++ ops) hw₁ hhigh₁ htable₁ hfresh₁
        (by rw [applyChanges_append, hout, hops])
    refine ⟨table', c', rest', out', ?_, hoff'.trans hoff, hlim'.trans hlim, hw', hhigh', htable',
      by rw [hrows', hrows₁]; rfl, hout'⟩
    simp only [List.foldlM_cons, hstep]
    exact hrun

end TopNCache

end RisingWave.Stream
