import RisingWave.Lib.OrderedMap
import RisingWave.Stream.Chunk

/-!
# State caches of materialized-input aggregation

`common/cache`. A `min`, `max`, `first_value` or `last_value` over a materialized
input keeps the first rows of its state table, in key order, in a `TopNStateCache`;
`string_agg` and `array_agg` keep all of them in an `OrderedStateCache`. A cache
is told every change of the table and, while it is not synced, ignores them; it
is synced again from the table before it is read (`get_output`).

The table is a `SortedMap` of the cache keys and its changes are `Event`s. While
a `TopNStateCache` made by `new` is synced, its entries are a prefix of the table
and are empty only when the table is (`TopNStateCache.Sound`), over every run of
changes and syncs (`TopNStateCache.run_sound`), so `get_output` reads the table's
first row. A cache made by `with_table_row_count` loses that: the row count it
trusts is not updated while it is not synced.
-/

namespace RisingWave.Stream.StateCache

open SortedMap

variable {K V : Type} [LinearOrder K]

/-- `TopNCache` of `common/cache/top_n_cache.rs`. -/
structure TopNCache (K V : Type) [LinearOrder K] where
  capacity : ℕ
  entries : SortedMap K V

namespace TopNCache

/-- `TopNCache::new`. -/
def new (capacity : ℕ) : TopNCache K V := ⟨capacity, .empty⟩

/-- `TopNCache::len`. -/
def len (c : TopNCache K V) : ℕ := c.entries.len

/-- `TopNCache::is_empty`. -/
def isEmpty (c : TopNCache K V) : Bool := c.entries.isEmpty

/-- `TopNCache::clear`. -/
def clear (c : TopNCache K V) : TopNCache K V := { c with entries := .empty }

/-- `while self.entries.len() > self.capacity { pop_last }`, one pass per entry. -/
def evict (capacity : ℕ) : ℕ → SortedMap K V → SortedMap K V
  | 0, m => m
  | n + 1, m => if capacity < m.len then evict capacity n m.dropLast else m

/-- `TopNCache::insert`: the largest entries beyond `capacity` are evicted. -/
def insert (c : TopNCache K V) (key : K) (value : V) : TopNCache K V × Option V :=
  let entries := c.entries.insert key value
  ({ c with entries := evict c.capacity entries.len entries }, c.entries.get? key)

/-- `TopNCache::remove`. -/
def remove (c : TopNCache K V) (key : K) : TopNCache K V × Option V :=
  ({ c with entries := c.entries.erase key }, c.entries.get? key)

/-- `TopNCache::first_key_value`. -/
def firstKeyValue (c : TopNCache K V) : Option (K × V) := c.entries.first?

/-- `TopNCache::last_key`. -/
def lastKey (c : TopNCache K V) : Option K := c.entries.last?.map Prod.fst

theorem evict_entries (capacity n : ℕ) (m : SortedMap K V) (h : m.len ≤ capacity + n) :
    (evict capacity n m).entries = m.entries.take capacity := by
  induction n generalizing m with
  | zero => simp [evict, List.take_of_length_le (show m.entries.length ≤ capacity from h)]
  | succ n ih =>
    unfold evict
    split
    · -- One entry goes; the first `capacity` stay.
      rename_i hlt
      rw [ih _ (by simp only [len_eq, dropLast_entries, List.length_dropLast] at h ⊢; omega),
        dropLast_entries, List.dropLast_eq_take, List.take_take]
      rw [len_eq] at hlt
      congr 1
      omega
    · rename_i hle
      rw [List.take_of_length_le (by rw [len_eq] at hle; omega)]

@[simp] theorem insert_entries (c : TopNCache K V) (key : K) (value : V) :
    (c.insert key value).1.entries.entries = (insertList key value c.entries.entries).take c.capacity := by
  apply evict_entries
  simp

@[simp] theorem insert_capacity (c : TopNCache K V) (key : K) (value : V) :
    (c.insert key value).1.capacity = c.capacity := rfl

@[simp] theorem remove_entries (c : TopNCache K V) (key : K) :
    (c.remove key).1.entries.entries = eraseList key c.entries.entries := rfl

@[simp] theorem remove_capacity (c : TopNCache K V) (key : K) :
    (c.remove key).1.capacity = c.capacity := rfl

@[simp] theorem clear_entries (c : TopNCache K V) : c.clear.entries.entries = [] := rfl

@[simp] theorem clear_capacity (c : TopNCache K V) : c.clear.capacity = c.capacity := rfl

theorem isEmpty_eq (c : TopNCache K V) : c.isEmpty = c.entries.entries.isEmpty := rfl

theorem lastKey_eq (c : TopNCache K V) : c.lastKey = c.entries.entries.getLast?.map Prod.fst := rfl

/-- Rows in increasing key order, above the cached ones and fitting the capacity, are
appended. -/
theorem foldl_insert (l : List (K × V)) : ∀ (m : TopNCache K V),
    (m.entries.entries ++ l).Pairwise (fun a b => a.1 < b.1) →
    (m.entries.entries ++ l).length ≤ m.capacity →
    (l.foldl (fun m e => (m.insert e.1 e.2).1) m).entries.entries = m.entries.entries ++ l ∧
      (l.foldl (fun m e => (m.insert e.1 e.2).1) m).capacity = m.capacity := by
  induction l with
  | nil => intro m _ _; simp
  | cons e l ih =>
    intro m hs hlen
    have hgt : ∀ x ∈ m.entries.entries, x.1 < e.1 :=
      fun x hx => (List.pairwise_append.mp hs).2.2 x hx e List.mem_cons_self
    have hins : (m.insert e.1 e.2).1.entries.entries = m.entries.entries ++ [e] := by
      rw [insert_entries, insertList_of_forall_gt e.2 hgt]
      apply List.take_of_length_le
      simp only [List.length_append, List.length_cons, List.length_nil] at hlen ⊢
      omega
    rw [List.foldl_cons]
    obtain ⟨h₁, h₂⟩ := ih (m.insert e.1 e.2).1 (by rw [hins, List.append_assoc]; exact hs)
      (by rw [hins, List.append_assoc]; simpa using hlen)
    exact ⟨by rw [h₁, hins, List.append_assoc, List.singleton_append], by rw [h₂]; rfl⟩

end TopNCache

/-- `TopNStateCache`. -/
structure TopNStateCache (K V : Type) [LinearOrder K] where
  tableRowCount : Option ℕ
  cache : TopNCache K V
  synced : Bool

namespace TopNStateCache

/-- `TopNStateCache::new`. -/
def new (capacity : ℕ) : TopNStateCache K V := ⟨none, .new capacity, false⟩

/-- `TopNStateCache::with_table_row_count`. -/
def withTableRowCount (capacity tableRowCount : ℕ) : TopNStateCache K V :=
  ⟨some tableRowCount, .new capacity, false⟩

/-- `row_count_matched`: the table is known to hold just the cached rows. -/
def rowCountMatched (c : TopNStateCache K V) : Bool :=
  (c.tableRowCount.map fun n => decide (n = c.cache.len)).getD false

/-- `insert_synced`. The `unwrap` of the last key is reached only on a cache that is not
empty. -/
def insertSynced (c : TopNStateCache K V) (key : K) (value : V) : TopNStateCache K V × Option V :=
  let r :=
    if c.rowCountMatched || c.cache.isEmpty || c.cache.lastKey.any (key ≤ ·) then
      c.cache.insert key value
    else (c.cache, none)
  ({ c with cache := r.1, tableRowCount := c.tableRowCount.map (· + 1) }, r.2)

/-- `delete_synced`: a cache that becomes empty while the table may hold more rows is no
longer synced. -/
def deleteSynced (c : TopNStateCache K V) (key : K) : TopNStateCache K V × Option V :=
  let r := c.cache.remove key
  let c := { c with cache := r.1, tableRowCount := c.tableRowCount.map (· - 1) }
  if c.cache.isEmpty && !c.rowCountMatched then ({ c with synced := false }, r.2)
  else (c, r.2)

/-- `StateCache::insert`. -/
def insert (c : TopNStateCache K V) (key : K) (value : V) : TopNStateCache K V × Option V :=
  if c.synced then c.insertSynced key value else (c, none)

/-- `StateCache::delete`. -/
def delete (c : TopNStateCache K V) (key : K) : TopNStateCache K V × Option V :=
  if c.synced then c.deleteSynced key else (c, none)

/-- The loop of `apply_batch`, which stops once a delete unsyncs the cache. -/
def applyBatchLoop (c : TopNStateCache K V) : List (Op × K × V) → TopNStateCache K V
  | [] => c
  | (op, key, value) :: batch =>
    if op.isInsert then applyBatchLoop (c.insertSynced key value).1 batch
    else
      let c := (c.deleteSynced key).1
      if !c.synced then c else applyBatchLoop c batch

/-- `StateCache::apply_batch`. -/
def applyBatch (c : TopNStateCache K V) (batch : List (Op × K × V)) : TopNStateCache K V :=
  if c.synced then c.applyBatchLoop batch else c

/-- `StateCache::begin_syncing`. -/
def beginSyncing (c : TopNStateCache K V) : TopNStateCache K V :=
  { c with synced := false, cache := c.cache.clear }

/-- `StateCache::clear`. -/
def clear (c : TopNStateCache K V) : TopNStateCache K V :=
  { c with cache := c.cache.clear, synced := false }

/-- `set_table_row_count`. -/
def setTableRowCount (c : TopNStateCache K V) (tableRowCount : ℕ) : TopNStateCache K V :=
  { c with tableRowCount := some tableRowCount }

/-- `StateCacheFiller::insert_unchecked`. -/
def insertUnchecked (c : TopNStateCache K V) (key : K) (value : V) : TopNStateCache K V :=
  { c with cache := (c.cache.insert key value).1 }

/-- `StateCacheFiller::finish`. -/
def finish (c : TopNStateCache K V) : TopNStateCache K V := { c with synced := true }

/-- `StateCache::first_key_value`, which asserts the cache is synced. -/
def firstKeyValue (c : TopNStateCache K V) : Option (Option (K × V)) := do
  guard c.synced
  pure c.cache.firstKeyValue

/-- `StateCache::values`, which asserts the cache is synced. -/
def values (c : TopNStateCache K V) : Option (List V) := do
  guard c.synced
  pure (c.cache.entries.entries.map Prod.snd)

/-- A sync from the table's rows in key order: `begin_syncing`, the first `capacity` rows
through the filler, `finish`. -/
def sync (c : TopNStateCache K V) (table : List (K × V)) : TopNStateCache K V :=
  ((table.take c.cache.capacity).foldl (fun c e => c.insertUnchecked e.1 e.2) c.beginSyncing).finish

/-- `MaterializedInputState::get_output` of `min`, `max`, `first_value` and `last_value`: the
cache is synced from the table's rows if it is not, and its first value read
(`output_first`). -/
def getOutput (c : TopNStateCache K V) (table : List (K × V)) : Option (Option V) :=
  (if c.synced then c else c.sync table).values.map List.head?

end TopNStateCache

/-- `OrderedStateCache`. -/
structure OrderedStateCache (K V : Type) [LinearOrder K] where
  cache : SortedMap K V
  synced : Bool

namespace OrderedStateCache

/-- `OrderedStateCache::new`. -/
def new : OrderedStateCache K V := ⟨.empty, false⟩

/-- `StateCache::insert`. -/
def insert (c : OrderedStateCache K V) (key : K) (value : V) : OrderedStateCache K V × Option V :=
  if c.synced then ({ c with cache := c.cache.insert key value }, c.cache.get? key) else (c, none)

/-- `StateCache::delete`. -/
def delete (c : OrderedStateCache K V) (key : K) : OrderedStateCache K V × Option V :=
  if c.synced then ({ c with cache := c.cache.erase key }, c.cache.get? key) else (c, none)

/-- `StateCache::apply_batch`. -/
def applyBatch (c : OrderedStateCache K V) (batch : List (Op × K × V)) : OrderedStateCache K V :=
  if c.synced then
    batch.foldl (fun c b =>
      if b.1.isInsert then { c with cache := c.cache.insert b.2.1 b.2.2 }
      else { c with cache := c.cache.erase b.2.1 }) c
  else c

/-- `StateCache::begin_syncing`. -/
def beginSyncing (c : OrderedStateCache K V) : OrderedStateCache K V :=
  { c with synced := false, cache := .empty }

/-- `StateCacheFiller::insert_unchecked`. -/
def insertUnchecked (c : OrderedStateCache K V) (key : K) (value : V) : OrderedStateCache K V :=
  { c with cache := c.cache.insert key value }

/-- `StateCacheFiller::finish`. -/
def finish (c : OrderedStateCache K V) : OrderedStateCache K V := { c with synced := true }

/-- A sync: `begin_syncing`, every row of the table through the filler (its capacity is
`None`), `finish`. -/
def sync (c : OrderedStateCache K V) (table : List (K × V)) : OrderedStateCache K V :=
  (table.foldl (fun c e => c.insertUnchecked e.1 e.2) c.beginSyncing).finish

/-- `StateCache::values`, which asserts the cache is synced. -/
def values (c : OrderedStateCache K V) : Option (List V) := do
  guard c.synced
  pure (c.cache.entries.map Prod.snd)

/-- `MaterializedInputState::get_output` of `string_agg` and `array_agg`: the aggregate of
the cache's values in key order, after a sync if the cache is not synced. -/
def getOutput {α : Type} (agg : List V → α) (c : OrderedStateCache K V) (table : List (K × V)) :
    Option α :=
  (if c.synced then c else c.sync table).values.map agg

end OrderedStateCache

/-! ## The table and its changes -/

/-- What a cache is told: a change of the state table, or a sync from it. -/
inductive Event (K V : Type)
  | insert (key : K) (value : V)
  | delete (key : K)
  | applyBatch (batch : List (Op × K × V))
  | sync

/-- One change of a batch on the table. -/
def applyOp (T : SortedMap K V) (b : Op × K × V) : SortedMap K V :=
  if b.1.isInsert then T.insert b.2.1 b.2.2 else T.erase b.2.1

/-- A change of a batch inserts a key the table lacks, or deletes one it holds. -/
def opConsistent (T : SortedMap K V) (b : Op × K × V) : Bool :=
  if b.1.isInsert then b.2.1 ∉ T.entries.map Prod.fst else b.2.1 ∈ T.entries.map Prod.fst

/-- Every change of a batch consistent with the table before it. -/
def batchConsistent : SortedMap K V → List (Op × K × V) → Bool
  | _, [] => true
  | T, b :: batch => opConsistent T b && batchConsistent (applyOp T b) batch

namespace Event

/-- The table after the event. -/
def applyTo (T : SortedMap K V) : Event K V → SortedMap K V
  | .insert key value => T.insert key value
  | .delete key => T.erase key
  | .applyBatch batch => batch.foldl applyOp T
  | .sync => T

/-- The event changes the table consistently. -/
def consistent (T : SortedMap K V) : Event K V → Bool
  | .insert key _ => key ∉ T.entries.map Prod.fst
  | .delete key => key ∈ T.entries.map Prod.fst
  | .applyBatch batch => batchConsistent T batch
  | .sync => true

/-- Every event consistent with the table before it. -/
def consistentRun : SortedMap K V → List (Event K V) → Bool
  | _, [] => true
  | T, e :: es => e.consistent T && consistentRun (e.applyTo T) es

end Event

namespace TopNStateCache

/-- The cache told of the event on the table `T`. -/
def step (T : SortedMap K V) (c : TopNStateCache K V) : Event K V → TopNStateCache K V
  | .insert key value => (c.insert key value).1
  | .delete key => (c.delete key).1
  | .applyBatch batch => c.applyBatch batch
  | .sync => c.sync T.entries

/-- The cache and the table after the events. -/
def run (s : TopNStateCache K V × SortedMap K V) (es : List (Event K V)) :
    TopNStateCache K V × SortedMap K V :=
  es.foldl (fun s e => (s.1.step s.2 e, e.applyTo s.2)) s

end TopNStateCache

namespace OrderedStateCache

/-- The cache told of the event on the table `T`. -/
def step (T : SortedMap K V) (c : OrderedStateCache K V) : Event K V → OrderedStateCache K V
  | .insert key value => (c.insert key value).1
  | .delete key => (c.delete key).1
  | .applyBatch batch => c.applyBatch batch
  | .sync => c.sync T.entries

/-- The cache and the table after the events. -/
def run (s : OrderedStateCache K V × SortedMap K V) (es : List (Event K V)) :
    OrderedStateCache K V × SortedMap K V :=
  es.foldl (fun s e => (s.1.step s.2 e, e.applyTo s.2)) s

end OrderedStateCache

/-! ## A `TopNStateCache` made by `new` -/

namespace TopNStateCache

/-- A cache with no row count over the table `T`: while synced, its entries are a prefix of
`T`, and empty only when `T` is. -/
structure Sound (c : TopNStateCache K V) (T : SortedMap K V) : Prop where
  capacity_pos : 0 < c.cache.capacity
  tableRowCount_eq : c.tableRowCount = none
  isPrefix : c.synced → c.cache.entries.entries <+: T.entries
  ne_nil : c.synced → c.cache.entries.entries = [] → T.entries = []

variable {c : TopNStateCache K V} {T : SortedMap K V}

theorem Sound.of_not_synced (hcap : 0 < c.cache.capacity) (hnone : c.tableRowCount = none)
    (hs : c.synced = false) : c.Sound T :=
  ⟨hcap, hnone, by simp [hs], by simp [hs]⟩

/-- A cache that is not synced claims nothing of the table. -/
theorem Sound.retarget (h : c.Sound T) (hs : c.synced = false) (T' : SortedMap K V) :
    c.Sound T' :=
  Sound.of_not_synced h.capacity_pos h.tableRowCount_eq hs

attribute [local simp] rowCountMatched in
theorem Sound.rowCountMatched_eq (h : c.Sound T) : c.rowCountMatched = false := by
  simp [rowCountMatched, h.tableRowCount_eq]

theorem new_sound {capacity : ℕ} (hcap : 0 < capacity) (T : SortedMap K V) :
    (new capacity : TopNStateCache K V).Sound T :=
  Sound.of_not_synced hcap rfl rfl

@[simp] theorem insertSynced_synced (c : TopNStateCache K V) (key : K) (value : V) :
    (c.insertSynced key value).1.synced = c.synced := rfl

@[simp] theorem insertSynced_tableRowCount (c : TopNStateCache K V) (key : K) (value : V) :
    (c.insertSynced key value).1.tableRowCount = c.tableRowCount.map (· + 1) := rfl

attribute [local simp] insertSynced in
@[simp] theorem insertSynced_capacity (c : TopNStateCache K V) (key : K) (value : V) :
    (c.insertSynced key value).1.cache.capacity = c.cache.capacity := by
  unfold insertSynced; split <;> simp

theorem insertSynced_entries (c : TopNStateCache K V) (key : K) (value : V) :
    (c.insertSynced key value).1.cache.entries.entries =
      if c.rowCountMatched || c.cache.isEmpty || c.cache.lastKey.any (key ≤ ·) then
        (insertList key value c.cache.entries.entries).take c.cache.capacity
      else c.cache.entries.entries := by
  unfold insertSynced; split <;> simp

/-- An insert keeps the cache a prefix: an empty cache is of an empty table, a row at or
below the last cached key goes in (and the largest may be evicted), and one above it
belongs after the cached rows. -/
theorem Sound.insertSynced (h : c.Sound T) (key : K) (value : V) :
    (c.insertSynced key value).1.Sound (T.insert key value) := by
  cases hs : c.synced
  · exact Sound.of_not_synced (by simpa using h.capacity_pos) (by simp [h.tableRowCount_eq])
      (by simp [hs])
  obtain ⟨R, hR⟩ := h.isPrefix hs
  have hsorted : (c.cache.entries.entries ++ R).Pairwise fun a b => a.1 < b.1 := hR ▸ T.sorted
  have hcap := h.capacity_pos
  have hT : (T.insert key value).entries = insertList key value (c.cache.entries.entries ++ R) := by
    rw [insert_entries, hR]
  obtain ⟨C', hC', hpre, hne⟩ : ∃ C', (c.insertSynced key value).1.cache.entries.entries = C' ∧
      C' <+: insertList key value (c.cache.entries.entries ++ R) ∧ C' ≠ [] := by
    rw [insertSynced_entries, h.rowCountMatched_eq, TopNCache.isEmpty_eq, TopNCache.lastKey_eq]
    rcases List.eq_nil_or_concat' c.cache.entries.entries with hC | ⟨init, l, hC⟩
    · have hR₀ : R = [] := by
        have hT₀ := h.ne_nil hs hC
        rw [← hR, hC] at hT₀
        simpa using hT₀
      have hone : [(key, value)].length ≤ c.cache.capacity := hcap
      refine ⟨[(key, value)], by simp [hC, insertList, List.take_of_length_le hone], ?_, by simp⟩
      simp [hC, hR₀, insertList]
    · have hl : ∀ e ∈ c.cache.entries.entries, e.1 ≤ l.1 := fun e he =>
        le_of_pairwise_concat (hC ▸ c.cache.entries.sorted) (hC ▸ he)
      by_cases hle : key ≤ l.1
      · have hR' : ∀ e ∈ R, key < e.1 := fun e he => lt_of_le_of_lt hle
          ((List.pairwise_append.mp hsorted).2.2 l (by simp [hC]) e he)
        refine ⟨(insertList key value c.cache.entries.entries).take c.cache.capacity,
          by simp [hC, hle], take_insertList_prefix value _ hR' _, ?_⟩
        simp [List.take_eq_nil_iff, hcap.ne', insertList_ne_nil]
      · refine ⟨_, by simp [hC, hle], prefix_insertList_of_lt value R
          (fun e he => lt_of_le_of_lt (hl e he) (not_le.mp hle)), by simp [hC]⟩
  refine ⟨by simpa using hcap, by simp [h.tableRowCount_eq], fun _ => ?_, fun _ hnil => ?_⟩
  · rw [hC', hT]
    exact hpre
  · exact absurd (hC' ▸ hnil) hne

/-- A delete keeps the cache a prefix; a cache it empties is no longer synced, as the row
count is unknown. -/
theorem Sound.deleteSynced (h : c.Sound T) (key : K) :
    (c.deleteSynced key).1.Sound (T.erase key) := by
  have hcap := h.capacity_pos
  unfold TopNStateCache.deleteSynced
  dsimp only
  split
  · exact Sound.of_not_synced (by simpa using hcap) (by simp [h.tableRowCount_eq]) rfl
  · rename_i hkeep
    refine ⟨by simpa using hcap, by simp [h.tableRowCount_eq], fun hs => ?_, fun _ hnil => ?_⟩
    · simpa [eraseList] using (h.isPrefix hs).filter _
    · simp [TopNCache.isEmpty_eq, rowCountMatched, h.tableRowCount_eq] at hkeep
      simp at hnil
      exact absurd hnil hkeep

attribute [local simp] applyOp in
theorem Sound.applyBatchLoop (batch : List (Op × K × V)) :
    ∀ {c : TopNStateCache K V} {T : SortedMap K V}, c.Sound T →
      (c.applyBatchLoop batch).Sound (batch.foldl applyOp T) := by
  induction batch with
  | nil => intro c T h; exact h
  | cons b batch ih =>
    intro c T h
    obtain ⟨op, key, value⟩ := b
    unfold TopNStateCache.applyBatchLoop
    by_cases hop : op.isInsert
    · rw [if_pos hop, List.foldl_cons]
      exact ih (by simpa [applyOp, hop] using h.insertSynced key value)
    · have hd : (c.deleteSynced key).1.Sound (applyOp T (op, key, value)) := by
        simpa [applyOp, hop] using h.deleteSynced key
      rw [if_neg hop, List.foldl_cons]
      dsimp only
      split
      · -- The delete emptied the cache: the loop stops.
        rename_i hstop
        exact hd.retarget (by simpa using hstop) _
      · exact ih hd

theorem foldl_insertUnchecked (l : List (K × V)) (c : TopNStateCache K V) :
    l.foldl (fun c e => c.insertUnchecked e.1 e.2) c =
      { c with cache := l.foldl (fun m e => (m.insert e.1 e.2).1) c.cache } := by
  induction l generalizing c with
  | nil => rfl
  | cons e l ih => exact ih _

attribute [local simp] TopNStateCache.sync finish beginSyncing in
/-- A sync fills the cache with the table's first `capacity` rows. -/
theorem Sound.sync (h : c.Sound T) : (c.sync T.entries).Sound T := by
  have hcap := h.capacity_pos
  obtain ⟨hfill, hcap'⟩ := TopNCache.foldl_insert (T.entries.take c.cache.capacity) c.cache.clear
    (by simpa using T.sorted.sublist (List.take_sublist _ _)) (by simp)
  have hentries : (c.sync T.entries).cache.entries.entries = T.entries.take c.cache.capacity := by
    simpa [TopNStateCache.sync, foldl_insertUnchecked, finish, beginSyncing] using hfill
  refine ⟨?_, ?_, fun _ => ?_, fun _ hnil => ?_⟩
  · simpa [TopNStateCache.sync, foldl_insertUnchecked, finish, beginSyncing, hcap'] using hcap
  · simpa [TopNStateCache.sync, foldl_insertUnchecked, finish, beginSyncing] using h.tableRowCount_eq
  · rw [hentries]
    exact List.take_prefix _ _
  · rw [hentries, List.take_eq_nil_iff] at hnil
    exact hnil.resolve_left hcap.ne'

attribute [local simp] TopNStateCache.step Event.applyTo TopNStateCache.insert TopNStateCache.delete TopNStateCache.applyBatch in
/-- One event keeps a sound cache sound. -/
theorem Sound.step (h : c.Sound T) (e : Event K V) : (c.step T e).Sound (e.applyTo T) := by
  cases e with
  | insert key value =>
    simp only [TopNStateCache.step, Event.applyTo, TopNStateCache.insert]
    split
    · exact h.insertSynced key value
    · rename_i hs
      exact h.retarget (Bool.eq_false_iff.mpr hs) _
  | delete key =>
    simp only [TopNStateCache.step, Event.applyTo, TopNStateCache.delete]
    split
    · exact h.deleteSynced key
    · rename_i hs
      exact h.retarget (Bool.eq_false_iff.mpr hs) _
  | applyBatch batch =>
    simp only [TopNStateCache.step, Event.applyTo, TopNStateCache.applyBatch]
    split
    · exact h.applyBatchLoop batch
    · rename_i hs
      exact h.retarget (Bool.eq_false_iff.mpr hs) _
  | sync => exact h.sync

/-- Every run keeps a sound cache sound. -/
theorem run_sound (es : List (Event K V)) :
    ∀ {c : TopNStateCache K V} {T : SortedMap K V}, c.Sound T → (run (c, T) es).1.Sound (run (c, T) es).2 := by
  induction es with
  | nil => intro c T h; exact h
  | cons e es ih => intro c T h; exact ih (h.step e)

/-- A synced cache's first entry is the table's. -/
theorem Sound.head?_eq (h : c.Sound T) (hs : c.synced = true) :
    c.cache.entries.entries.head? = T.entries.head? := by
  obtain ⟨R, hR⟩ := h.isPrefix hs
  cases hC : c.cache.entries.entries with
  | nil => rw [h.ne_nil hs hC]
  | cons e C => rw [← hR, hC]; rfl

attribute [local simp] values in
theorem Sound.values_head? (h : c.Sound T) (hs : c.synced = true) :
    c.values.map List.head? = some (T.entries.head?.map Prod.snd) := by
  simp [values, hs, List.head?_map, h.head?_eq hs]

@[simp] theorem sync_synced (c : TopNStateCache K V) (table : List (K × V)) :
    (c.sync table).synced = true := rfl

attribute [local simp] getOutput in
/-- `get_output` of a sound cache is the table's first value. -/
theorem Sound.getOutput_eq (h : c.Sound T) :
    c.getOutput T.entries = some (T.entries.head?.map Prod.snd) := by
  unfold getOutput
  split
  · exact h.values_head? ‹_›
  · exact h.sync.values_head? (sync_synced _ _)

/-- From `new`, over every run of changes and syncs: whenever the cache is synced its entries
are the table's first ones, and there are some when the table has rows; `get_output` reads
the table's first value. -/
theorem new_run_prefix {capacity : ℕ} (hcap : 0 < capacity) (T₀ : SortedMap K V)
    (es : List (Event K V)) :
    let s := run (new capacity, T₀) es
    (s.1.synced = true → s.1.cache.entries.entries <+: s.2.entries ∧
      (s.1.cache.entries.entries = [] ↔ s.2.entries = [])) ∧
    s.1.getOutput s.2.entries = some (s.2.entries.head?.map Prod.snd) := by
  have h := run_sound es (new_sound hcap T₀)
  refine ⟨fun hs => ⟨h.isPrefix hs, ⟨h.ne_nil hs, fun hT => ?_⟩⟩, h.getOutput_eq⟩
  exact List.prefix_nil.mp (hT ▸ h.isPrefix hs)

end TopNStateCache

/-! ## `OrderedStateCache` -/

namespace OrderedStateCache

variable {c : OrderedStateCache K V} {T : SortedMap K V}

/-- While synced, the cache is the table. -/
def Sound (c : OrderedStateCache K V) (T : SortedMap K V) : Prop :=
  c.synced = true → c.cache.entries = T.entries

theorem new_sound (T : SortedMap K V) : (new : OrderedStateCache K V).Sound T := by
  simp [Sound, new]

theorem applyBatch_fold (batch : List (Op × K × V)) :
    ∀ (c : OrderedStateCache K V) (T : SortedMap K V), c.cache.entries = T.entries →
      (batch.foldl (fun c b =>
        if b.1.isInsert then { c with cache := c.cache.insert b.2.1 b.2.2 }
        else { c with cache := c.cache.erase b.2.1 }) c).cache.entries =
        (batch.foldl applyOp T).entries := by
  induction batch with
  | nil => intro c T h; exact h
  | cons b batch ih =>
    intro c T h
    apply ih
    by_cases hop : b.1.isInsert <;> simp [applyOp, hop, h]

theorem foldl_insertUnchecked (l : List (K × V)) (c : OrderedStateCache K V) :
    l.foldl (fun c e => c.insertUnchecked e.1 e.2) c =
      { c with cache := l.foldl (fun m e => m.insert e.1 e.2) c.cache } := by
  induction l generalizing c with
  | nil => rfl
  | cons e l ih => exact ih _

/-- One event keeps the cache the table while it is synced. -/
theorem Sound.step (h : c.Sound T) (e : Event K V) : (c.step T e).Sound (e.applyTo T) := by
  intro hs
  cases e with
  | insert key value =>
    by_cases hc : c.synced
    · simp [OrderedStateCache.step, Event.applyTo, OrderedStateCache.insert, hc, h hc]
    · simp [OrderedStateCache.step, OrderedStateCache.insert, hc] at hs
  | delete key =>
    by_cases hc : c.synced
    · simp [OrderedStateCache.step, Event.applyTo, OrderedStateCache.delete, hc, h hc]
    · simp [OrderedStateCache.step, OrderedStateCache.delete, hc] at hs
  | applyBatch batch =>
    simp only [OrderedStateCache.step, Event.applyTo, OrderedStateCache.applyBatch] at hs ⊢
    split
    · exact applyBatch_fold batch c T (h ‹_›)
    · simp_all
  | sync =>
    -- A sync reads the whole table, in key order.
    simp only [OrderedStateCache.step, Event.applyTo, OrderedStateCache.sync, foldl_insertUnchecked,
      finish, beginSyncing]
    simpa using foldl_insert_of_sorted (l := T.entries) .empty (by simpa using T.sorted)

theorem run_sound (es : List (Event K V)) :
    ∀ {c : OrderedStateCache K V} {T : SortedMap K V}, c.Sound T →
      (run (c, T) es).1.Sound (run (c, T) es).2 := by
  induction es with
  | nil => intro c T h; exact h
  | cons e es ih => intro c T h; exact ih (h.step e)

/-- `get_output` of a sound cache aggregates the table's values in key order. -/
theorem Sound.getOutput_eq {α : Type} (agg : List V → α) (h : c.Sound T) :
    c.getOutput agg T.entries = some (agg (T.entries.map Prod.snd)) := by
  have hsync : (c.sync T.entries).Sound T := Sound.step h .sync
  have hs' : (c.sync T.entries).synced = true := rfl
  unfold getOutput
  split
  · simp [values, ‹c.synced = true›, h ‹_›]
  · simp [values, hs', hsync hs']

/-- From `new`, over every run of changes and syncs: a synced cache holds the table, and
`get_output` aggregates the table's values in key order. -/
theorem new_run_eq {α : Type} (agg : List V → α) (T₀ : SortedMap K V) (es : List (Event K V)) :
    let s := run (new, T₀) es
    (s.1.synced = true → s.1.cache = s.2) ∧
      s.1.getOutput agg s.2.entries = some (agg (s.2.entries.map Prod.snd)) := by
  have h := run_sound es (new_sound T₀)
  exact ⟨fun hs => SortedMap.ext (h hs), h.getOutput_eq agg⟩

end OrderedStateCache

end RisingWave.Stream.StateCache
