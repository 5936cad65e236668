import RisingWave.Stream.StateCache
import RisingWave.Stream.StateTable
import Mathlib.Data.List.Sort

/-!
# The watermark cache of a state table

`common/table/state_table_cache.rs` and the watermark path of `common/table/state_table.rs`. A
`WatermarkCacheStateTable` keeps the lowest pks of its rows, by the watermark column first, in a
`TopNStateCache` of `WATERMARK_CACHE_ENTRIES` keys. Its writes tell the cache of every pk whose
watermark datum is not NULL; at a barrier `seal_current_epoch` asks the cache whether the
watermark to clean lies at or above the lowest key (`should_clean_watermark`, as modelled in
`StateTable`), deletes the rows below it in each owned vnode and clears the cache; `commit` then
refills a cache that is not synced by scanning each vnode from the watermark cleaned last and
taking the first `capacity` keys of the merged scans.

The table is modelled by the pks of its rows, the watermark datum first; the other columns are not
read on this path. The first pk column is ascending with NULLs largest, so that the delete ranges
of `seal_current_epoch` remove exactly the rows of owned vnodes whose watermark datum is below
the watermark (`sealCurrentEpoch_deletes_below_watermark`). The vnode of a row is the parameter
`vnodeOf`. The scans of `commit` are merged by `merge_sort` on their table keys, which are the
vnode's bytes followed by the pk's: the merge is ordered by vnode first.
-/

namespace RisingWave.Stream.WatermarkCache

open StateCache (TopNStateCache)

/-- `WATERMARK_CACHE_ENTRIES`. -/
def WATERMARK_CACHE_ENTRIES : ℕ := 16

/-- `STATE_CLEANING_PERIOD_EPOCH`, the period of `DefaultWatermarkBufferStrategy`. -/
def STATE_CLEANING_PERIOD_EPOCH : ℕ := 300

variable {S T : Type} [LinearOrder S] [LinearOrder T]

/-- A pk: its watermark datum, which may be NULL, then its other columns. -/
abbrev Pk (S T : Type) := Option S × T

/-- `WatermarkCacheKey`: a pk whose watermark datum is not NULL, in `DefaultOrdered` order. -/
abbrev WatermarkCacheKey (S T : Type) := Lex (S × T)

/-- `StateTableWatermarkCache`, its `TopNStateCache` of keys. -/
abbrev StateTableWatermarkCache (S T : Type) [LinearOrder S] [LinearOrder T] :=
  TopNStateCache (WatermarkCacheKey S T) Unit

namespace StateTableWatermarkCache

/-- `StateTableWatermarkCache::insert`: a NULL watermark datum is not cached. -/
def insert (self : StateTableWatermarkCache S T) (key : Pk S T) : StateTableWatermarkCache S T :=
  match key.1 with
  | some w => (TopNStateCache.insert self (toLex (w, key.2)) ()).1
  | none => self

/-- `StateTableWatermarkCache::delete`. -/
def delete (self : StateTableWatermarkCache S T) (key : Pk S T) : StateTableWatermarkCache S T :=
  match key.1 with
  | some w => (TopNStateCache.delete self (toLex (w, key.2))).1
  | none => self

/-- `lowest_key`: the watermark datum of the first key; `first_key_value` asserts the cache is
synced, so `none` is that panic. -/
def lowestKey (self : StateTableWatermarkCache S T) : Option (Option S) :=
  self.firstKeyValue.map fun first => first.map fun kv => (ofLex kv.1).1

/-- What `seal_current_epoch` reads of the cache: whether it is synced, and the lowest key,
which it reads only then. -/
def view (self : StateTableWatermarkCache S T) : Stream.StateTableWatermarkCache S :=
  ⟨self.synced, self.cache.firstKeyValue.map fun kv => (ofLex kv.1).1⟩

end StateTableWatermarkCache

/-- The pk order of the table's keys: the watermark datum ascending with NULL last, then the
other columns. -/
def pkLe (a b : Pk S T) : Bool :=
  match a.1, b.1 with
  | some x, some y => x < y || (x = y && a.2 ≤ b.2)
  | some _, none => true
  | none, some _ => false
  | none, none => a.2 ≤ b.2

/-- The order of the table keys `vnode ++ pk`: by vnode, then by pk. -/
def tableKeyLe (a b : ℕ × Pk S T) : Bool :=
  a.1 < b.1 || (a.1 = b.1 && pkLe a.2 b.2)

/-- `(Included(watermark), Unbounded)` on the watermark column: NULL sorts last, so it is in. -/
def fromWatermark (watermark : S) (pk : Pk S T) : Bool :=
  match pk.1 with
  | some x => watermark ≤ x
  | none => true

/-- The watermark path of a `WatermarkCacheStateTable`: the pks of its rows, the vnodes it owns
(ascending, as `iter_vnodes` yields them) and its watermark fields, with the counter of
`DefaultWatermarkBufferStrategy`. -/
structure WatermarkCacheStateTable (S T : Type) [LinearOrder S] [LinearOrder T] where
  rows : List (Pk S T)
  vnodes : List ℕ
  watermarkCache : StateTableWatermarkCache S T
  stateCleanWatermark : Option S
  prevCleanedWatermark : Option S
  bufferedEpochsCnt : ℕ

namespace WatermarkCacheStateTable

/-- A new table with no rows, as `from_table_catalog` builds it. -/
def new (vnodes : List ℕ) : WatermarkCacheStateTable S T :=
  ⟨[], vnodes, TopNStateCache.new WATERMARK_CACHE_ENTRIES, none, none, 0⟩

/-- `insert`: the cache is told of the pk, and the row is written. -/
def insert (self : WatermarkCacheStateTable S T) (pk : Pk S T) : WatermarkCacheStateTable S T :=
  { self with
    watermarkCache := StateTableWatermarkCache.insert self.watermarkCache pk
    rows := self.rows ++ [pk] }

/-- `delete`. -/
def delete (self : WatermarkCacheStateTable S T) (pk : Pk S T) : WatermarkCacheStateTable S T :=
  { self with
    watermarkCache := StateTableWatermarkCache.delete self.watermarkCache pk
    rows := self.rows.erase pk }

/-- `write_chunk`: each visible row inserted or deleted by its op. -/
def writeChunk (self : WatermarkCacheStateTable S T) (chunk : List ((Op × Pk S T) × Bool)) :
    WatermarkCacheStateTable S T :=
  chunk.foldl (fun tbl x =>
    if x.2 then (if x.1.1.isInsert then tbl.insert x.1.2 else tbl.delete x.1.2) else tbl) self

/-- `update_watermark`: the buffer strategy is asked first, and resets when it applies. -/
def updateWatermark (self : WatermarkCacheStateTable S T) (watermark : S) (eagerCleaning : Bool) :
    WatermarkCacheStateTable S T :=
  let apply := decide (STATE_CLEANING_PERIOD_EPOCH ≤ self.bufferedEpochsCnt)
  let bufferedEpochsCnt := if apply then 0 else self.bufferedEpochsCnt
  { self with
    bufferedEpochsCnt
    stateCleanWatermark := if apply || eagerCleaning then some watermark
      else self.stateCleanWatermark }

/-- `seal_current_epoch`: the watermark taken is cleaned where `should_clean_watermark` says,
which deletes the rows below it in every owned vnode and clears the cache. -/
def sealCurrentEpoch (vnodeOf : Pk S T → ℕ) (self : WatermarkCacheStateTable S T) :
    WatermarkCacheStateTable S T :=
  let watermark := self.stateCleanWatermark
  let shouldClean := shouldCleanWatermark true self.watermarkCache.view watermark
  -- one delete range per owned vnode
  let cleaned := shouldClean && !self.vnodes.isEmpty
  let below (pk : Pk S T) : Bool := match watermark, pk.1 with
    | some w, some x => decide (vnodeOf pk ∈ self.vnodes) && decide (x < w)
    | _, _ => false
  { self with
    stateCleanWatermark := none
    prevCleanedWatermark := watermark
    rows := if cleaned then self.rows.filter fun pk => !below pk else self.rows
    watermarkCache := if cleaned then self.watermarkCache.clear else self.watermarkCache }

/-- The refill of `commit`: each owned vnode scanned from the watermark cleaned last, the scans
merged by table key, the first `capacity` pks taken and the non-NULL ones cached; the row count
is set only when fewer were found. -/
def refillWatermarkCache (vnodeOf : Pk S T → ℕ) (self : WatermarkCacheStateTable S T) :
    WatermarkCacheStateTable S T :=
  if self.watermarkCache.synced then self
  else match self.prevCleanedWatermark with
    | none => self
    | some watermark =>
      let scanned := self.rows.filter fun pk =>
        decide (vnodeOf pk ∈ self.vnodes) && fromWatermark watermark pk
      let merged := (scanned.map fun pk => (vnodeOf pk, pk)).insertionSort
        fun a b => tableKeyLe a b = true
      let pks := (merged.take self.watermarkCache.cache.capacity).filterMap fun entry =>
        entry.2.1.map fun w => toLex (w, entry.2.2)
      let cache := (pks.foldl (fun c pk => c.insertUnchecked pk ())
        self.watermarkCache.beginSyncing).finish
      let nCacheEntries := cache.cache.len
      { self with
        watermarkCache := if nCacheEntries < cache.cache.capacity then
          cache.setTableRowCount nCacheEntries else cache }

/-- `commit`: the buffer strategy ticks, the epoch is sealed and the cache refilled. -/
def commit (vnodeOf : Pk S T → ℕ) (self : WatermarkCacheStateTable S T) :
    WatermarkCacheStateTable S T :=
  refillWatermarkCache vnodeOf
    (sealCurrentEpoch vnodeOf { self with bufferedEpochsCnt := self.bufferedEpochsCnt + 1 })

end WatermarkCacheStateTable

/-- A call on the table. -/
inductive TableCall (S T : Type) where
  | insert (pk : Pk S T)
  | delete (pk : Pk S T)
  | writeChunk (chunk : List ((Op × Pk S T) × Bool))
  | updateWatermark (watermark : S) (eagerCleaning : Bool)
  | commit

namespace TableCall

/-- The call made on a table. -/
def apply (vnodeOf : Pk S T → ℕ) (tbl : WatermarkCacheStateTable S T) :
    TableCall S T → WatermarkCacheStateTable S T
  | .insert pk => tbl.insert pk
  | .delete pk => tbl.delete pk
  | .writeChunk chunk => tbl.writeChunk chunk
  | .updateWatermark watermark eagerCleaning => tbl.updateWatermark watermark eagerCleaning
  | .commit => tbl.commit vnodeOf

end TableCall

/-- The table after a run of calls. -/
def runCalls (vnodeOf : Pk S T → ℕ) (tbl : WatermarkCacheStateTable S T)
    (calls : List (TableCall S T)) : WatermarkCacheStateTable S T :=
  calls.foldl (TableCall.apply vnodeOf) tbl

/-- The lowest watermark datum of the table's rows, NULL ones left out. -/
def lowestWatermark (tbl : WatermarkCacheStateTable S T) : Option S :=
  (tbl.rows.filterMap (·.1)).min?

/-! ## Synced caches that miss the lowest row -/

/-- Sixteen rows in vnode 0 with watermark datums 100 to 115 and one in vnode 1 with datum 1. The
refill after the first cleaning merges the scans by table key, vnode 0's first, and takes sixteen
keys: the cache is synced with lowest key 100 while the table's lowest datum is 1. A watermark of
50 is then not cleaned, and the row below it stays. -/
theorem watermarkCache_misses_lower_vnode :
    let vnodeOf : Pk ℕ ℕ → ℕ := fun pk => if pk.2 = 0 then 1 else 0
    let rows : List (Pk ℕ ℕ) := (some 1, 0) :: (List.range 16).map fun i => (some (100 + i), i + 1)
    let tbl := runCalls vnodeOf (.new [0, 1])
      (rows.map .insert ++ [.updateWatermark 0 true, .commit])
    tbl.watermarkCache.synced = true ∧ tbl.watermarkCache.lowestKey = some (some 100) ∧
      lowestWatermark tbl = some 1 ∧
      (some 1, 0) ∈ (runCalls vnodeOf tbl [.updateWatermark 50 true, .commit]).rows := by
  decide

set_option maxRecDepth 10000 in
/-- One vnode. After a cleaning of an empty table the row count is 0; seventeen inserts and the
deletes of the sixteen cached rows leave one row uncached, and the cache unsynced with count 1.
Sixteen inserts it ignores are not counted, and the next refill fills the cache, so the count
stays 1. Fifteen inserts below its last key raise the count to 16, the cache's length, and the
deletes of the sixteen cached rows then keep it synced and empty while sixteen rows remain. -/
theorem watermarkCache_stale_row_count :
    let rows (lo n : ℕ) : List (Pk ℕ ℕ) := (List.range n).map fun i => (some (lo + i), 0)
    let tbl := runCalls (fun _ => 0) (.new [0])
      ([.updateWatermark 0 true, .commit] ++ (rows 1 17).map .insert ++
        (rows 1 16).map .delete ++ (rows 18 16).map .insert ++ [.updateWatermark 0 true, .commit] ++
        (rows 1 15).map .insert ++ (rows 1 15).map .delete ++ [.delete (some 17, 0)])
    tbl.watermarkCache.synced = true ∧ tbl.watermarkCache.lowestKey = some none ∧
      lowestWatermark tbl = some 18 ∧
      (some 18, 0) ∈ (runCalls (fun _ => 0) tbl [.updateWatermark 50 true, .commit]).rows := by
  decide

end RisingWave.Stream.WatermarkCache
