import Mathlib
import RisingWave.Stream.TopNPlain
import RisingWave.Lib.Rank
import RisingWave.Lib.Prefix
import RisingWave.Lib.Lex

/-!
# TopN with ties

`FETCH FIRST limit ROWS WITH TIES` keeps the rows whose order-by key is at most that
of the `limit`-th row (`withTiesRows`), that is the rows with fewer than `limit`
rows of a smaller order-by key (`List.rankBy`). The append-only `TopNCache<true>`
keeps exactly those in `middle` and in its state table (`TiesWindow`): a row below
`middle`'s last order-by key pushes out that key's rows when the rows below it
already number `limit`.
-/

namespace RisingWave.Stream

open SortedMap List

variable {σ π ρ : Type} [LinearOrder σ] [LinearOrder π]

/-- The order-by columns of a row's cache key. -/
def orderBy (e : (σ ×ₗ π) × ρ) : σ := (ofLex e.1).1

theorem orderBy_le_of_le {a b : (σ ×ₗ π) × ρ} (h : a.1 ≤ b.1) : orderBy a ≤ orderBy b :=
  Prod.Lex.monotone_fst _ _ h

/-- `FETCH FIRST limit ROWS WITH TIES` over the rows `S` in key order: the rows whose
order-by key is at most that of the `limit`-th row, all of them when there are fewer. -/
def withTiesRows (limit : ℕ) (S : List ((σ ×ₗ π) × ρ)) : List ((σ ×ₗ π) × ρ) :=
  match S[limit - 1]? with
  | some e => S.filter fun x => orderBy x ≤ orderBy e
  | none => S

attribute [local simp] withTiesRows in
/-- A row is kept with ties when fewer than `limit` rows have a smaller order-by key. -/
theorem mem_withTiesRows {limit : ℕ} (hpos : 0 < limit) {S : List ((σ ×ₗ π) × ρ)}
    (hS : S.Pairwise fun a b => a.1 < b.1) (x : (σ ×ₗ π) × ρ) :
    x ∈ withTiesRows limit S ↔ x ∈ S ∧ rankBy orderBy S x < limit := by
  unfold withTiesRows
  cases h : S[limit - 1]? with
  | none =>
    have hlen := List.getElem?_eq_none_iff.mp h
    dsimp only
    exact ⟨fun hx => ⟨hx, by have := rankBy_lt_length (f := orderBy) hx; omega⟩, fun hx => hx.1⟩
  | some e =>
    obtain ⟨hlt, rfl⟩ := List.getElem?_eq_some_iff.mp h
    dsimp only
    have hS' : S.Pairwise fun a b => orderBy a ≤ orderBy b :=
      hS.imp fun hab => orderBy_le_of_le hab.le
    simp [rankBy_lt_iff hS' hpos hlt]

/-- Limit 1: after inserting (2, a), (1, a) and (2, b), deleting (1, a) leaves (2, a) alone
in `middle` and in `WITH TIES` output, though (2, b) ties with it. `insert_high_cache` kept
(2, b) out of a `high` that was not full because it sorts after `high`'s last key (2, a),
and the delete promotes `high`, not the table. -/
theorem applyTopNChunk_withTies_loses_tie :
    Option.map (fun r => (r.1.values, r.2.1.middle.values))
        (((TopNCache.new 0 1).bind (TopNCache.initTopNCache [])).bind
          (fun c : TopNCache true (List UInt8) (List UInt8) (List UInt8 × List UInt8) =>
            applyTopNChunk TopNCache.insertWithTies TopNCache.deleteWithTies toLex .empty c
              [(.insert, ([2], [97])), (.insert, ([1], [97])), (.insert, ([2], [98])),
                (.delete, ([1], [97]))])) =
      some ({([2], [97]), ([2], [98])}, {([2], [97])}) ∧
    (withTiesRows 1 [(toLex ([2], [97]), ([2], [97])), (toLex ([2], [98]), ([2], [98]))]).map
      Prod.snd = [([2], [97]), ([2], [98])] := by
  constructor <;> decide +kernel

namespace TopNCache

/-- The append-only `WITH TIES` cache over the rows seen `S`, in key order: only `middle`
is used, and it holds the rows of rank below `limit`, all the rows when it is not full. -/
structure TiesWindow (c : TopNCache true σ π ρ) (S : List ((σ ×ₗ π) × ρ)) : Prop where
  offset_eq : c.offset = 0
  low_eq : c.low.entries = []
  high_eq : c.high.entries = []
  sorted : S.Pairwise fun a b => a.1 < b.1
  mem_middle : ∀ x, x ∈ c.middle.entries ↔ x ∈ S ∧ rankBy orderBy S x < c.limit
  not_full : c.middle.len < c.limit → ∀ x ∈ S, x ∈ c.middle.entries

variable {c : TopNCache true σ π ρ} {S : List ((σ ×ₗ π) × ρ)}

theorem TiesWindow.isMiddleCacheFull_eq (h : c.TiesWindow S) :
    c.isMiddleCacheFull = some (decide (c.limit ≤ c.middle.len)) := by
  have hlow : c.low.len = c.offset := by simp [len, h.low_eq, h.offset_eq]
  unfold isMiddleCacheFull isLowCacheFull
  by_cases hfull : c.limit ≤ c.middle.len
  · simp [hfull, hlow]
  · simp [hfull, isEmpty_of_entries_eq_nil h.high_eq]

/-- In a full `middle` the rows of the table it holds are those up to its last order-by key. -/
theorem TiesWindow.mem_middle_iff_le (h : c.TiesWindow S) {ml : (σ ×ₗ π) × ρ}
    (hml : c.middle.last? = some ml) {y : (σ ×ₗ π) × ρ} (hy : y ∈ S) :
    y ∈ c.middle.entries ↔ orderBy y ≤ orderBy ml := by
  have hmem : ml ∈ c.middle.entries := List.mem_of_getLast? hml
  constructor
  · intro hy'
    obtain ⟨init, hinit⟩ : ∃ init, c.middle.entries = init ++ [ml] := by
      rw [last?, List.getLast?_eq_some_iff] at hml
      exact hml
    have hs : (init ++ [ml]).Pairwise fun a b => a.1 < b.1 := hinit ▸ c.middle.sorted
    exact orderBy_le_of_le (TopNCache.le_of_sorted_concat hs (hinit ▸ hy'))
  · intro hle
    refine (h.mem_middle y).mpr ⟨hy, lt_of_le_of_lt (rankBy_mono hle S) ?_⟩
    exact ((h.mem_middle ml).mp hmem).2

theorem TiesWindow.mem_of_mem_middle (h : c.TiesWindow S) {y : (σ ×ₗ π) × ρ}
    (hy : y ∈ c.middle.entries) : y ∈ S :=
  ((h.mem_middle y).mp hy).1

theorem TiesWindow.rank_lt_of_mem_middle (h : c.TiesWindow S) {y : (σ ×ₗ π) × ρ}
    (hy : y ∈ c.middle.entries) : rankBy orderBy S y < c.limit :=
  ((h.mem_middle y).mp hy).2

theorem TiesWindow.nodup_middle (_ : c.TiesWindow S) : c.middle.entries.Nodup :=
  c.middle.sorted.imp fun hab heq => (heq ▸ hab).false

theorem TiesWindow.low_isEmpty (h : c.TiesWindow S) : c.low.isEmpty = true :=
  isEmpty_of_entries_eq_nil h.low_eq

theorem TiesWindow.with_middle (h : c.TiesWindow S) {middle : TopNCacheState σ π ρ}
    {S' : List ((σ ×ₗ π) × ρ)} (hS' : S'.Pairwise fun a b => a.1 < b.1)
    (hmem : ∀ y, y ∈ middle.entries ↔ y ∈ S' ∧ rankBy orderBy S' y < c.limit)
    (hnf : middle.len < c.limit → ∀ y ∈ S', y ∈ middle.entries) :
    ({ c with middle } : TopNCache true σ π ρ).TiesWindow S' :=
  ⟨h.offset_eq, h.low_eq, h.high_eq, hS', hmem, hnf⟩

/-- A full `middle` holds every row below its last order-by key: the rows of it below
that key are as many as that key's rank. -/
theorem TiesWindow.countP_below (h : c.TiesWindow S) {ml : (σ ×ₗ π) × ρ}
    (hml : c.middle.last? = some ml) :
    c.middle.entries.countP (fun s => orderBy s < orderBy ml) = rankBy orderBy S ml := by
  have hnd : S.Nodup := h.sorted.imp fun hab heq => (heq ▸ hab).false
  apply le_antisymm
  · exact (List.subperm_of_subset h.nodup_middle fun y hy => h.mem_of_mem_middle hy).countP_le _
  · -- The rows of the table below the last key are all in `middle`.
    have hsub : (S.filter fun s => orderBy s < orderBy ml).Subperm c.middle.entries := by
      refine List.subperm_of_subset (hnd.filter _) fun y hy => ?_
      rw [List.mem_filter] at hy
      exact (h.mem_middle_iff_le hml hy.1).mpr (le_of_lt (by simpa using hy.2))
    unfold rankBy
    rw [List.countP_eq_length_filter]
    calc (S.filter fun s => orderBy s < orderBy ml).length
        = (S.filter fun s => orderBy s < orderBy ml).countP (fun s => orderBy s < orderBy ml) := by
          rw [List.countP_eq_length.mpr (fun s hs => (List.mem_filter.mp hs).2)]
      _ ≤ c.middle.entries.countP (fun s => orderBy s < orderBy ml) := hsub.countP_le _

theorem rankBy_insertList {S : List ((σ ×ₗ π) × ρ)} {k : σ ×ₗ π} (v : ρ) (hk : ∀ e ∈ S, e.1 ≠ k)
    (y : (σ ×ₗ π) × ρ) :
    rankBy orderBy (insertList k v S) y =
      rankBy orderBy S y + if orderBy (k, v) < orderBy y then 1 else 0 := by
  rw [rankBy_perm (insertList_perm v hk), rankBy_cons]

/-! ## Evicting a tie group -/

attribute [local simp] orderBy in
/-- `popTiesLoop` removes the trailing run of rows of order-by key `o`, last first, when
its fuel covers the run. -/
theorem popTiesLoop_eq (o : σ) (n : ℕ) :
    ∀ (m : TopNCacheState σ π ρ) (A B : List ((σ ×ₗ π) × ρ)), m.entries = A ++ B →
      (∀ b ∈ B, orderBy b = o) → (∀ a ∈ A.getLast?, orderBy a ≠ o) → B.length ≤ n →
      (popTiesLoop o n m).1.entries = A ∧ (popTiesLoop o n m).2 = B.reverse := by
  induction n with
  | zero =>
    intro m A B hm _ _ hlen
    rw [List.length_eq_zero_iff.mp (Nat.le_zero.mp hlen)] at hm ⊢
    simp [popTiesLoop, hm]
  | succ n ih =>
    intro m A B hm hB hA hlen
    rcases List.eq_nil_or_concat' B with rfl | ⟨B', b, rfl⟩
    · -- The run is empty: the loop stops at `A`'s last row, or at once.
      rw [List.append_nil] at hm
      rcases List.eq_nil_or_concat' A with rfl | ⟨A', a, rfl⟩
      · simp [popTiesLoop, popLast_of_entries_eq_nil hm, hm]
      · have ha : orderBy a ≠ o := hA a (by simp)
        simp only [orderBy] at ha
        simp [popTiesLoop, popLast_of_entries_eq_concat hm, ha, hm]
    · -- The last row is of the run: it goes, and the loop goes on with the rest.
      have hb : orderBy b = o := hB b (by simp)
      simp only [orderBy] at hb
      have hm' : m.entries = (A ++ B') ++ [b] := by simp [hm]
      have hrec := ih m.dropLast A B' (by simp [hm]) (fun b' hb' => hB b' (by simp [hb']))
        hA (by simp at hlen; omega)
      simp [popTiesLoop, popLast_of_entries_eq_concat hm', hb, hrec.1, hrec.2]

/-! ## Inserting -/

section AppendOnly

variable {table : TopNCacheState σ π ρ} {k : σ ×ₗ π} {v : ρ} [OrderBot π]

attribute [local simp] appendOnlyInsertWithTies in
/-- Into a `middle` that is not full, the row goes. -/
theorem appendOnlyInsertWithTies_of_lt_limit (h : c.TiesWindow S) (hnf : c.middle.len < c.limit) :
    c.appendOnlyInsertWithTies table k v =
      some (table.insert k v, { c with middle := c.middle.insert k v }, [(.insert, v)]) := by
  simp [appendOnlyInsertWithTies, h.low_isEmpty, h.isMiddleCacheFull_eq, not_le.mpr hnf]

/-- The rows of a full `middle` strictly below its last order-by key. -/
def belowLast (c : TopNCache true σ π ρ) (ml : (σ ×ₗ π) × ρ) : ℕ :=
  c.middle.len - c.middle.countFrom (toLex (orderBy ml, ⊥))

attribute [local simp] belowLast in
/-- Below a full `middle`'s last order-by key, with `limit - 1` rows below that key, the
last key's rows leave `middle` and the state table. -/
theorem appendOnlyInsertWithTies_of_lt_evict (h : c.TiesWindow S) {ml : (σ ×ₗ π) × ρ}
    (hfull : c.limit ≤ c.middle.len) (hml : c.middle.last? = some ml)
    (hlt : orderBy (k, v) < orderBy ml) (hevict : c.limit ≤ c.belowLast ml + 1) :
    c.appendOnlyInsertWithTies table k v =
      some (((popTies (orderBy ml) c.middle).2.foldl (fun t e => t.erase e.1) table).insert k v,
        { c with middle := (popTies (orderBy ml) c.middle).1.insert k v },
        (popTies (orderBy ml) c.middle).2.map (fun e => (.delete, e.2)) ++ [(.insert, v)]) := by
  have hcmp : compare (ofLex k).1 (ofLex ml.1).1 = .lt := compare_lt_iff_lt.mpr hlt
  simp only [belowLast, orderBy] at hevict
  simp [appendOnlyInsertWithTies, h.low_isEmpty, h.isMiddleCacheFull_eq, hfull, hml, hcmp,
    hevict, orderBy]

/-- Below a full `middle`'s last order-by key, with fewer rows below that key, the row
joins `middle`. -/
theorem appendOnlyInsertWithTies_of_lt_keep (h : c.TiesWindow S) {ml : (σ ×ₗ π) × ρ}
    (hfull : c.limit ≤ c.middle.len) (hml : c.middle.last? = some ml)
    (hlt : orderBy (k, v) < orderBy ml) (hkeep : c.belowLast ml + 1 < c.limit) :
    c.appendOnlyInsertWithTies table k v =
      some (table.insert k v, { c with middle := c.middle.insert k v }, [(.insert, v)]) := by
  have hcmp : compare (ofLex k).1 (ofLex ml.1).1 = .lt := compare_lt_iff_lt.mpr hlt
  simp only [belowLast, orderBy] at hkeep
  simp [appendOnlyInsertWithTies, h.low_isEmpty, h.isMiddleCacheFull_eq, hfull, hml, hcmp,
    not_le.mpr hkeep]

/-- A tie with a full `middle`'s last row joins `middle`. -/
theorem appendOnlyInsertWithTies_of_eq (h : c.TiesWindow S) {ml : (σ ×ₗ π) × ρ}
    (hfull : c.limit ≤ c.middle.len) (hml : c.middle.last? = some ml)
    (heq : orderBy (k, v) = orderBy ml) :
    c.appendOnlyInsertWithTies table k v =
      some (table.insert k v, { c with middle := c.middle.insert k v }, [(.insert, v)]) := by
  have hcmp : compare (ofLex k).1 (ofLex ml.1).1 = .eq := compare_eq_iff_eq.mpr heq
  simp [appendOnlyInsertWithTies, h.low_isEmpty, h.isMiddleCacheFull_eq, hfull, hml, hcmp]

/-- Above a full `middle`'s last order-by key the row is dropped. -/
theorem appendOnlyInsertWithTies_of_gt (h : c.TiesWindow S) {ml : (σ ×ₗ π) × ρ}
    (hfull : c.limit ≤ c.middle.len) (hml : c.middle.last? = some ml)
    (hgt : orderBy ml < orderBy (k, v)) :
    c.appendOnlyInsertWithTies table k v = some (table, c, []) := by
  have hcmp : compare (ofLex k).1 (ofLex ml.1).1 = .gt := compare_gt_iff_gt.mpr hgt
  simp [appendOnlyInsertWithTies, h.low_isEmpty, h.isMiddleCacheFull_eq, hfull, hml, hcmp]

/-- The count `num_ties` is taken from: `middle`'s rows below its last order-by key. -/
theorem TiesWindow.belowLast_eq (h : c.TiesWindow S) {ml : (σ ×ₗ π) × ρ}
    (hml : c.middle.last? = some ml) : c.belowLast ml = rankBy orderBy S ml := by
  rw [← h.countP_below hml, belowLast, countFrom, len,
    List.length_eq_countP_add_countP (fun e => decide (toLex (orderBy ml, (⊥ : π)) ≤ e.1))]
  have hcongr : c.middle.entries.countP (fun e => decide ¬ (decide (toLex (orderBy ml, (⊥ : π)) ≤ e.1)) = true) =
      c.middle.entries.countP (fun s => orderBy s < orderBy ml) := by
    apply List.countP_congr
    intro s _
    simp only [decide_eq_true_eq, not_le, Prod.Lex.lt_iff, ofLex_toLex, not_lt_bot, and_false,
      or_false]
    rfl
  omega

attribute [local simp] values in
/-- One `appendOnlyInsertWithTies` of a new key keeps the window over the rows seen with
the row added; the state table stays `middle`, and the changes recorded turn `middle`
into the new one. -/
theorem appendOnlyInsertWithTies_window [DecidableEq ρ] (h : c.TiesWindow S)
    (htable : table.entries = c.middle.entries) (hk : ∀ e ∈ S, e.1 ≠ k) :
    ∃ table' c' ops, c.appendOnlyInsertWithTies table k v = some (table', c', ops) ∧
      c'.limit = c.limit ∧ c'.TiesWindow (insertList k v S) ∧
      table'.entries = c'.middle.entries ∧ applyChanges c.middle.values ops = c'.middle.values := by
  have hS' := insertList_sorted k v h.sorted
  have hkm : ∀ e ∈ c.middle.entries, e.1 ≠ k := fun e he => hk e (h.mem_of_mem_middle he)
  have hrank := rankBy_insertList v hk
  have hxS : (k, v) ∉ S := fun hx => hk _ hx rfl
  have htable_ins : (table.insert k v).entries = (c.middle.insert k v).entries := by
    simp [htable]
  have hvals_ins : applyChanges c.middle.values [(.insert, v)] = (c.middle.insert k v).values := by
    rw [values_insert _ _ hkm]
    simp
  by_cases hfull : c.limit ≤ c.middle.len
  · -- A full `middle` is not empty; its last row `ml` has the largest order-by key kept.
    obtain ⟨ml, hml⟩ : ∃ ml, c.middle.last? = some ml := by
      have hne : c.middle.entries ≠ [] := by
        intro he
        have := c.limit_pos
        simp only [len, he, List.length_nil] at hfull
        omega
      exact ⟨_, List.getLast?_eq_some_getLast hne⟩
    have hmlm : ml ∈ c.middle.entries := List.mem_of_getLast? hml
    have hmlS := h.mem_of_mem_middle hmlm
    have hmlrank := h.rank_lt_of_mem_middle hmlm
    have hbelow := h.belowLast_eq hml
    -- A row of the table at or below `ml`'s order-by key has a rank at most `ml`'s.
    have hle_rank : ∀ y, orderBy y ≤ orderBy ml → rankBy orderBy S y ≤ rankBy orderBy S ml :=
      fun y hy => rankBy_mono hy S
    have hlen_S' : (insertList k v S).length = S.length + 1 := by
      rw [(insertList_perm v hk).length_eq, List.length_cons]
    rcases lt_trichotomy (orderBy (k, v)) (orderBy ml) with hlt | heq | hgt
    · by_cases hevict : c.limit ≤ c.belowLast ml + 1
      · -- Eviction: `middle` splits into the rows below `ml`'s key, `A`, and its ties, `B`.
        set A := c.middle.entries.filter fun e => !decide (orderBy e = orderBy ml) with hA
        set B := c.middle.entries.filter fun e => decide (orderBy e = orderBy ml) with hB
        have hle_o : ∀ y ∈ c.middle.entries, orderBy y ≤ orderBy ml :=
          fun y hy => (h.mem_middle_iff_le hml (h.mem_of_mem_middle hy)).mp hy
        have hsplit : A ++ B = c.middle.entries := by
          apply filter_not_append_filter_of_pairwise
          refine c.middle.sorted.imp_of_mem fun {a b} ha hb hab => ?_
          by_cases hao : orderBy a = orderBy ml
          · have hbo : orderBy b = orderBy ml :=
              le_antisymm (hle_o b hb) (hao ▸ orderBy_le_of_le hab.le)
            simp [hao, hbo]
          · simp [hao]
        have hpop := popTiesLoop_eq (orderBy ml) c.middle.len c.middle A B hsplit.symm
          (fun b hb => by simpa using (List.mem_filter.mp hb).2)
          (fun a ha => by simpa using (List.mem_filter.mp (List.mem_of_getLast? ha)).2)
          (by rw [len, ← hsplit, List.length_append]; omega)
        have hA_mid : ∀ y, y ∈ A ↔ y ∈ c.middle.entries ∧ orderBy y < orderBy ml := by
          intro y
          rw [hA, List.mem_filter]
          constructor
          · rintro ⟨hy, hne⟩
            exact ⟨hy, lt_of_le_of_ne (hle_o y hy) (by simpa using hne)⟩
          · rintro ⟨hy, hlt'⟩
            exact ⟨hy, by simpa using hlt'.ne⟩
        have hkA : ∀ e ∈ A, e.1 ≠ k := fun e he => hkm e ((hA_mid e).mp he).1
        have hlenA : A.length = rankBy orderBy S ml := by
          rw [← h.countP_below hml, List.countP_eq_length_filter]
          congr 1
          apply List.filter_congr
          intro y hy
          by_cases hyo : orderBy y = orderBy ml
          · simp [hyo]
          · simp [hyo, lt_of_le_of_ne (hle_o y hy) hyo]
        have hpop1 : (popTies (orderBy ml) c.middle).1.entries = A := hpop.1
        have hpop2 : (popTies (orderBy ml) c.middle).2 = B.reverse := hpop.2
        refine ⟨_, _, _, appendOnlyInsertWithTies_of_lt_evict h hfull hml hlt hevict, rfl,
          h.with_middle hS' (fun y => ?_) (fun hlt' => ?_), ?_, ?_⟩
        · rw [insert_entries, hpop1, mem_insertList_iff hkA, mem_insertList_iff hk, hrank]
          rcases eq_or_ne y (k, v) with rfl | hne
          · have := hle_rank (k, v) hlt.le
            simp
            omega
          · simp only [hne, false_or, hA_mid]
            constructor
            · rintro ⟨hy, hyo⟩
              have := rankBy_lt_rankBy (h.mem_of_mem_middle hy) hyo
              exact ⟨h.mem_of_mem_middle hy, by split <;> omega⟩
            · rintro ⟨hyS, hyr⟩
              refine ⟨(h.mem_middle y).mpr ⟨hyS, by split at hyr <;> omega⟩, ?_⟩
              -- A row of `ml`'s key would now have `limit` rows below it.
              by_contra hyo
              have hyo' : orderBy y = orderBy ml :=
                le_antisymm (hle_o y ((h.mem_middle y).mpr ⟨hyS, by split at hyr <;> omega⟩))
                  (not_lt.mp hyo)
              have hsame := le_antisymm (hle_rank y hyo'.le) (rankBy_mono hyo'.ge S)
              rw [if_pos (hyo' ▸ hlt)] at hyr
              omega
        · rw [len_insert _ _ (by rw [hpop1]; exact hkA), len, hpop1, hlenA] at hlt'
          omega
        · -- The table loses the evicted ties and gains the row.
          have hfold : ((popTies (orderBy ml) c.middle).2.foldl (fun t e => t.erase e.1) table).entries = A := by
            apply eq_of_mem_iff (SortedMap.sorted _) (c.middle.sorted.sublist (by rw [← hsplit]; simp))
            intro y
            rw [mem_foldl_erase, htable, hpop2, ← hsplit]
            constructor
            · rintro ⟨hy, hne⟩
              rcases List.mem_append.mp hy with hy | hy
              · exact hy
              · exact absurd rfl (hne y (List.mem_reverse.mpr hy))
            · intro hy
              refine ⟨List.mem_append_left _ hy, fun e he => ?_⟩
              have hs : (A ++ B).Pairwise fun a b => a.1 < b.1 := hsplit ▸ c.middle.sorted
              exact (lt_of_sorted_append hs hy (List.mem_reverse.mp he)).ne
          simp [hfold, hpop1]
        · rw [values_insert _ _ (by rw [hpop1]; exact hkA), hpop2,
            applyChanges_append, applyChanges_cons, applyChanges_nil, applyChange_insert]
          have hdel : (B.reverse.map fun e => ((.delete : Op), e.2)) =
              (B.reverse.map Prod.snd).map fun r => ((.delete : Op), r) := by
            simp [List.map_map, Function.comp_def]
          rw [hdel, applyChanges_deletes]
          congr 1
          rw [values, values, hpop1, ← hsplit, List.map_append, ← Multiset.coe_add, List.map_reverse,
            Multiset.coe_reverse, Multiset.add_sub_cancel_right]
      · -- No eviction: the row joins `middle`, and every row of it stays below rank `limit`.
        refine ⟨_, _, _, appendOnlyInsertWithTies_of_lt_keep h hfull hml hlt (not_le.mp hevict),
          rfl, h.with_middle hS' (fun y => ?_) (fun hlt' => ?_), htable_ins, hvals_ins⟩
        · rw [insert_entries, mem_insertList_iff hkm, mem_insertList_iff hk, hrank]
          rcases eq_or_ne y (k, v) with rfl | hne
          · have := hle_rank (k, v) hlt.le
            simp
            omega
          · simp only [hne, false_or]
            constructor
            · intro hy
              have := hle_rank y ((h.mem_middle_iff_le hml (h.mem_of_mem_middle hy)).mp hy)
              refine ⟨h.mem_of_mem_middle hy, ?_⟩
              split <;> omega
            · intro hy
              exact (h.mem_middle y).mpr ⟨hy.1, by split at hy <;> omega⟩
        · rw [len_insert _ _ hkm] at hlt'
          omega
    · -- A tie with the last row joins `middle`.
      refine ⟨_, _, _, appendOnlyInsertWithTies_of_eq h hfull hml heq, rfl,
        h.with_middle hS' (fun y => ?_) (fun hlt' => ?_), htable_ins, hvals_ins⟩
      · rw [insert_entries, mem_insertList_iff hkm, mem_insertList_iff hk, hrank]
        rcases eq_or_ne y (k, v) with rfl | hne
        · have := hle_rank (k, v) heq.le
          simp
          omega
        · simp only [hne, false_or]
          constructor
          · intro hy
            have hyle := (h.mem_middle_iff_le hml (h.mem_of_mem_middle hy)).mp hy
            have : ¬ orderBy (k, v) < orderBy y := by rw [heq]; exact not_lt.mpr hyle
            simp only [this, if_false, Nat.add_zero]
            exact (h.mem_middle y).mp hy
          · intro hy
            exact (h.mem_middle y).mpr ⟨hy.1, by split at hy <;> omega⟩
      · rw [len_insert _ _ hkm] at hlt'
        omega
    · -- Above the last row's order-by key the row is dropped: its rank is at least `limit`.
      have hxrank : c.limit ≤ rankBy orderBy S (k, v) :=
        hfull.trans (length_le_rankBy
          (List.subperm_of_subset h.nodup_middle fun y hy => h.mem_of_mem_middle hy)
          fun y hy => lt_of_le_of_lt ((h.mem_middle_iff_le hml (h.mem_of_mem_middle hy)).mp hy) hgt)
      refine ⟨_, _, _, appendOnlyInsertWithTies_of_gt h hfull hml hgt, rfl,
        ⟨h.offset_eq, h.low_eq, h.high_eq, hS', fun y => ?_, fun hlt' => absurd hfull (not_le.mpr hlt')⟩,
        htable, rfl⟩
      rw [mem_insertList_iff hk, hrank]
      rcases eq_or_ne y (k, v) with rfl | hne
      · simp only [lt_irrefl, if_false, Nat.add_zero, true_or, true_and]
        exact ⟨fun hy => absurd (hkm _ hy) (by simp), fun hy => absurd hy (not_lt.mpr hxrank)⟩
      · simp only [hne, false_or]
        constructor
        · intro hy
          have hyle := (h.mem_middle_iff_le hml (h.mem_of_mem_middle hy)).mp hy
          have : ¬ orderBy (k, v) < orderBy y := not_lt.mpr (hyle.trans hgt.le)
          simp only [this, if_false, Nat.add_zero]
          exact (h.mem_middle y).mp hy
        · intro hy
          exact (h.mem_middle y).mpr ⟨hy.1, by split at hy <;> omega⟩
  · -- `middle` is not full: it holds every row, and so does the new one.
    have hall := h.not_full (not_le.mp hfull)
    have hnd : S.Nodup := h.sorted.imp fun hab heq => (heq ▸ hab).false
    have hlenS : S.length ≤ c.middle.len := (List.subperm_of_subset hnd hall).length_le
    have hlen_S' : (insertList k v S).length = S.length + 1 := by
      rw [(insertList_perm v hk).length_eq, List.length_cons]
    have hsame : ∀ y, y ∈ insertList k v c.middle.entries ↔ y ∈ insertList k v S := by
      intro y
      rw [mem_insertList_iff hkm, mem_insertList_iff hk]
      exact or_congr_right ⟨h.mem_of_mem_middle, hall y⟩
    refine ⟨_, _, _, appendOnlyInsertWithTies_of_lt_limit h (not_le.mp hfull), rfl,
      h.with_middle hS' (fun y => ?_) (fun _ y hy => (hsame y).mpr hy), htable_ins, hvals_ins⟩
    rw [insert_entries, hsame]
    constructor
    · intro hy
      have := rankBy_lt_length (f := orderBy) hy
      exact ⟨hy, by omega⟩
    · exact fun hy => hy.1

/-- A run of `appendOnlyInsertWithTies`s over rows of distinct keys keeps `middle` at the
rows of rank below `limit` among the rows seen, with the table holding `middle`; the changes
recorded along the run turn the first `middle` into the last. -/
theorem applyAppendOnlyWithTies_window [DecidableEq ρ] (cacheKey : ρ → σ ×ₗ π) (rows : List ρ)
    (hkeys : (rows.map cacheKey).Nodup) (M : Multiset ρ) :
    ∀ (table : TopNCacheState σ π ρ) (c : TopNCache true σ π ρ) S out,
      c.TiesWindow S → table.entries = c.middle.entries →
      (∀ r ∈ rows, ∀ e ∈ S, e.1 ≠ cacheKey r) → applyChanges M out = c.middle.values →
      ∃ table' c' out', rows.foldlM (fun s row => do
          let (table, cache, ops) ← appendOnlyInsertWithTies s.1 s.2.1 (cacheKey row) row
          return (table, cache, s.2.2 ++ ops)) (table, c, out) = some (table', c', out') ∧
        c'.limit = c.limit ∧ c'.TiesWindow (rows.foldl (fun S r => insertList (cacheKey r) r S) S) ∧
        table'.entries = c'.middle.entries ∧ applyChanges M out' = c'.middle.values := by
  induction rows with
  | nil =>
    intro table c S out hw htable _ hout
    exact ⟨table, c, out, rfl, rfl, hw, htable, hout⟩
  | cons r rows ih =>
    intro table c S out hw htable hfresh hout
    rw [List.map_cons, List.nodup_cons] at hkeys
    obtain ⟨table₁, c₁, ops, hstep, hlim, hw₁, htable₁, hops⟩ :=
      appendOnlyInsertWithTies_window (k := cacheKey r) (v := r) hw htable
        (hfresh r List.mem_cons_self)
    have hfresh₁ : ∀ r' ∈ rows, ∀ e ∈ insertList (cacheKey r) r S, e.1 ≠ cacheKey r' := by
      intro r' hr'
      exact fresh_insertList (fun h => hkeys.1 (by rw [h]; exact List.mem_map_of_mem hr'))
        (hfresh r' (List.mem_cons_of_mem _ hr'))
    obtain ⟨table', c', out', hrun, hlim', hw', htable', hout'⟩ :=
      ih hkeys.2 table₁ c₁ _ (out ++ ops) hw₁ htable₁ hfresh₁
        (by rw [applyChanges_append, hout, hops])
    refine ⟨table', c', out', ?_, hlim'.trans hlim, hw', htable', hout'⟩
    simp only [List.foldlM_cons, hstep]
    exact hrun

end AppendOnly

/-- An empty cache of offset 0 holds the rows with ties among no rows. -/
theorem tiesWindow_of_empty (hoff : c.offset = 0) (hl : c.low.entries = [])
    (hm : c.middle.entries = []) (hh : c.high.entries = []) : c.TiesWindow [] where
  offset_eq := hoff
  low_eq := hl
  high_eq := hh
  sorted := List.Pairwise.nil
  mem_middle x := by simp [hm]
  not_full _ x hx := absurd hx List.not_mem_nil

/-- A `middle` that holds the rows of rank below `limit` is `withTiesRows limit`. -/
theorem TiesWindow.middle_eq (h : c.TiesWindow S) :
    c.middle.entries = withTiesRows c.limit S := by
  have hsub : (withTiesRows c.limit S).Sublist S := by
    unfold withTiesRows
    split
    · exact List.filter_sublist
    · exact List.Sublist.refl S
  apply eq_of_mem_iff c.middle.sorted (h.sorted.sublist hsub)
  intro x
  rw [mem_withTiesRows c.limit_pos h.sorted, h.mem_middle]

end TopNCache

open TopNCache

/-- Append-only TopN from an empty state table, over inserted rows of distinct keys: a plain
cache keeps the first `offset + limit` rows seen in `low` and `middle`, a `WITH TIES` cache
keeps in `middle` the rows seen up to the order-by key of the `limit`-th; the state table
holds just those rows, and the changes emitted turn the empty `middle` into the last. -/
theorem appendOnlyTopN_keeps_first_rows [DecidableEq ρ] [OrderBot π] (cacheKey : ρ → σ ×ₗ π)
    (rows : List ρ) (hkeys : (rows.map cacheKey).Nodup) (offset limit : ℕ) (hlimit : 0 < limit) :
    (∃ table c out,
      ((new offset limit).bind (initTopNCache [])).bind (fun c : TopNCache false σ π ρ =>
        applyAppendOnlyChunk appendOnlyInsert cacheKey .empty c rows) = some (table, c, out) ∧
      c.low.entries ++ c.middle.entries = (seenRows cacheKey rows).take (offset + limit) ∧
      table.entries = c.low.entries ++ c.middle.entries ∧ applyChanges 0 out = c.middle.values) ∧
    (∃ table c out,
      ((new 0 limit).bind (initTopNCache [])).bind (fun c : TopNCache true σ π ρ =>
        applyAppendOnlyChunk appendOnlyInsertWithTies cacheKey .empty c rows) = some (table, c, out) ∧
      c.middle.entries = withTiesRows limit (seenRows cacheKey rows) ∧
      table.entries = c.middle.entries ∧ applyChanges 0 out = c.middle.values) := by
  constructor
  · -- The plain cache: the window over the rows seen, with `high` never used.
    obtain ⟨c₀, hnew, hoff, hlim, hl, hm, hh⟩ :=
      @new_spec σ π ρ _ _ false offset limit hlimit (by simp)
    obtain ⟨table, c, rest, out, hrun, hoff', hlim', hw, hhigh, htable, hrows, hout⟩ :=
      applyAppendOnly_window cacheKey rows hkeys 0 .empty c₀ [] [] (window_of_empty hl hm hh) hh
        (by simp [hl, hm]) (by simp [TopNCache.rows, hl, hm, hh]) (by simp [values, hm])
    refine ⟨table, c, out, ?_, ?_, htable, hout⟩
    · simp only [hnew, initTopNCache_nil hl hm hh, Option.bind_some]
      exact hrun
    · rw [← hw.take_eq hhigh, hrows, hoff', hlim', hoff, hlim]
      simp [TopNCache.rows, hl, hm, hh, seenRows]
  · -- The `WITH TIES` cache: `middle` over the rows seen.
    obtain ⟨c₀, hnew, hoff, hlim, hl, hm, hh⟩ :=
      @new_spec σ π ρ _ _ true 0 limit hlimit (fun _ => rfl)
    obtain ⟨table, c, out, hrun, hlim', hw, htable, hout⟩ :=
      applyAppendOnlyWithTies_window cacheKey rows hkeys 0 .empty c₀ [] []
        (tiesWindow_of_empty hoff hl hm hh) (by simp [hm]) (by simp) (by simp [values, hm])
    refine ⟨table, c, out, ?_, ?_, htable, hout⟩
    · simp only [hnew, initTopNCache_nil hl hm hh, Option.bind_some]
      exact hrun
    · rw [hw.middle_eq, hlim', hlim]
      rfl

theorem appendOnlyTopN_three_rows :
    (∃ table c out,
      ((new 1 1).bind (initTopNCache [])).bind (fun c : TopNCache false (List UInt8) (List UInt8) (List UInt8 × List UInt8) =>
        applyAppendOnlyChunk appendOnlyInsert toLex .empty c [([2], [0]), ([1], [0]), ([2], [1])]) =
          some (table, c, out) ∧
      c.low.entries ++ c.middle.entries = (seenRows toLex [([2], [0]), ([1], [0]), ([2], [1])]).take (1 + 1) ∧
      table.entries = c.low.entries ++ c.middle.entries ∧ applyChanges 0 out = c.middle.values) ∧
    (∃ table c out,
      ((new 0 1).bind (initTopNCache [])).bind (fun c : TopNCache true (List UInt8) (List UInt8) (List UInt8 × List UInt8) =>
        applyAppendOnlyChunk appendOnlyInsertWithTies toLex .empty c [([2], [0]), ([1], [0]), ([2], [1])]) =
          some (table, c, out) ∧
      c.middle.entries = withTiesRows 1 (seenRows toLex [([2], [0]), ([1], [0]), ([2], [1])]) ∧
      table.entries = c.middle.entries ∧ applyChanges 0 out = c.middle.values) :=
  appendOnlyTopN_keeps_first_rows toLex [([2], [0]), ([1], [0]), ([2], [1])] (by decide) 1 1 (by decide)

end RisingWave.Stream
