import RisingWave.Stream.Chunk

/-!
# Distinct aggregation: the deduplicater

`executor/aggregation/distinct.rs`. Each distinct column of an aggregation keeps, for
every value, how many times each distinct call over the column has seen it; a row is
passed to a call only when its value's count goes from 0 to 1 (an insert) or from 1 to 0
(a delete). The counts live in a cache, backed by the dedup table, and the counts each
value had before the chunk are snapshotted and written to the table at its end.

Three keys name a value here, and the model keeps them apart, since the source does: the
cache key is the value encoding of the datum (`CompactedRow`), injective, so the datum
itself; the snapshot is a `HashMap` keyed by the datum under its own `Eq` (`datumEq`);
the dedup table is keyed by the memcomparable encoding of the datum (`pk`). The group key
is a common prefix of all three within one call, and is left out.
-/

namespace RisingWave.Stream.Distinct

variable {D P : Type} [DecidableEq D] [DecidableEq P]

/-! ## Lookups -/

/-- The counts a keyed list holds for a key. -/
def lookup {κ : Type} [DecidableEq κ] (l : List (κ × List ℤ)) (k : κ) : Option (List ℤ) :=
  (l.find? fun e => e.1 = k).map Prod.snd

/-- The list with the key's counts set. -/
def put {κ : Type} [DecidableEq κ] (l : List (κ × List ℤ)) (k : κ) (v : List ℤ) :
    List (κ × List ℤ) :=
  (k, v) :: l.filter fun e => e.1 ≠ k

/-! ## One column -/

/-- What a distinct column keeps: its cache, by value-encoded key, and its dedup table,
by primary key. -/
structure ColumnDeduplicater (D P : Type) where
  cache : List (D × List ℤ)
  dedupTable : List (P × List ℤ)

/-- The state of `dedup`'s loop: the column's state and the snapshot of the counts each
value had when it was first seen in the chunk. -/
structure DedupState (D P : Type) where
  column : ColumnDeduplicater D P
  prevCounts : List (D × List ℤ)

/-- One call's count after a row it sees, and whether the row is hidden from it: an insert
is hidden when the value was there already, a delete when it is still there. -/
def countCall (isInsert : Bool) (count : ℤ) (visible : Bool) : ℤ × Bool :=
  if visible then
    if isInsert then (count + 1, 1 < count + 1) else (count - 1, 0 < count - 1)
  else (count, false)

variable (datumEq : D → D → Bool) (pk : D → P)

/-- The counts of a datum: from the cache, else from the dedup table, else zero, with a
zero row written to the table. -/
def loadCounts (nCalls : ℕ) (c : ColumnDeduplicater D P) (datum : D) :
    List ℤ × ColumnDeduplicater D P :=
  match lookup c.cache datum with
  | some counts => (counts, c)
  | none =>
    match lookup c.dedupTable (pk datum) with
    | some counts => (counts, { c with cache := put c.cache datum counts })
    | none =>
      let zeros := List.replicate nCalls 0
      (zeros, ⟨put c.cache datum zeros, put c.dedupTable (pk datum) zeros⟩)

/-- One row of `dedup`: its op, its datum and whether each call sees it; returns whether
it is hidden from each call. A row no call sees is skipped. -/
def dedupRow (nCalls : ℕ) (st : DedupState D P) (op : Op) (datum : D) (vis : List Bool) :
    DedupState D P × List Bool :=
  if !vis.any id then (st, vis.map fun _ => false)
  else
    let loaded := loadCounts pk nCalls st.column datum
    let prevCounts := if st.prevCounts.any (fun e => datumEq e.1 datum) then st.prevCounts
      else st.prevCounts ++ [(datum, loaded.1)]
    let counted := List.zipWith (countCall op.isInsert) loaded.1 vis
    (⟨{ loaded.2 with cache := put loaded.2.cache datum (counted.map Prod.fst) }, prevCounts⟩,
      counted.map Prod.snd)

/-- The loop of `dedup` over the rows; `vis` gives each row's visibility to each call. -/
def dedupLoop (nCalls : ℕ) :
    DedupState D P → List (Op × D × List Bool) → DedupState D P × List (List Bool)
  | st, [] => (st, [])
  | st, (op, datum, vis) :: rows =>
    let r := dedupRow datumEq pk nCalls st op datum vis
    let rest := dedupLoop nCalls r.1 rows
    (rest.1, r.2 :: rest.2)

/-- The snapshot written to the dedup table: each snapshotted value's counts now in the
cache, under its primary key. `none` is the `expect` of a value missing from the cache. -/
def flushPrevCounts (st : DedupState D P) : Option (List (P × List ℤ)) :=
  st.prevCounts.foldlM (fun table e => (lookup st.column.cache e.1).map (put table (pk e.1)))
    st.column.dedupTable

/-- `ColumnDeduplicater::dedup`: the new visibility of each row to each call (hidden
where a mask says so), and the column's state after the chunk, with the cache entries
that `keep` rejects evicted. -/
def dedup (keep : D → Bool) (nCalls : ℕ) (c : ColumnDeduplicater D P)
    (rows : List (Op × D × List Bool)) : Option (ColumnDeduplicater D P × List (List Bool)) :=
  let r := dedupLoop datumEq pk nCalls ⟨c, []⟩ rows
  (flushPrevCounts pk r.1).map fun table =>
    (⟨r.1.column.cache.filter (keep ·.1), table⟩,
      List.zipWith (fun row masks => List.zipWith (fun v m => v && !m) row.2.2 masks) rows r.2)

/-! ## The chunk -/

/-- A distinct column of the aggregation: the column, the calls distinct on it, and its
deduplicater. -/
structure DistinctColumn (D P : Type) where
  distinctCol : ℕ
  callIndices : List ℕ
  deduplicater : ColumnDeduplicater D P

/-- `DistinctDeduplicater::dedup_chunk`: each distinct column hides, from the calls distinct
on it, the rows whose value they have already seen. `visibilities` holds each call's
visibility of each row. -/
def dedupChunk (keep : D → Bool) (ops : List Op) (columns : List (List D)) :
    List (DistinctColumn D P) → List (List Bool) →
      Option (List (DistinctColumn D P) × List (List Bool))
  | [], visibilities => some ([], visibilities)
  | dc :: dcs, visibilities =>
    let column := columns.getD dc.distinctCol []
    let rows := List.zipWith (fun op r => (op, r))
      ops (List.zipWith (fun d i => (d, dc.callIndices.map fun call =>
        (visibilities.getD call []).getD i false)) column (List.range column.length))
    (dedup datumEq pk keep dc.callIndices.length dc.deduplicater rows).bind fun r =>
      let visibilities := (dc.callIndices.zip (List.range dc.callIndices.length)).foldl
        (fun vs ci => vs.set ci.1 (r.2.map fun masks => masks.getD ci.2 false)) visibilities
      (dedupChunk keep ops columns dcs visibilities).map fun rest =>
        ({ dc with deduplicater := r.1 } :: rest.1, rest.2)

/-! ## A `float8` column -/

/-- A `float8` by its IEEE 754 bits. -/
structure F64 where
  bits : UInt64
  deriving DecidableEq, Repr

namespace F64

/-- All exponent bits set and a non-zero fraction. -/
def isNan (f : F64) : Bool :=
  f.bits &&& 0x7FF0000000000000 == 0x7FF0000000000000 && f.bits &&& 0x000FFFFFFFFFFFFF != 0

/-- `+0.0` or `-0.0`. -/
def isZero (f : F64) : Bool := f.bits &&& 0x7FFFFFFFFFFFFFFF == 0

/-- `PartialEq for OrderedFloat`: a NaN equals a NaN, other values are compared as IEEE
floats, under which the two zeros are equal. -/
def orderedEq (a b : F64) : Bool :=
  if a.isNan then b.isNan else !b.isNan && (a.bits == b.bits || (a.isZero && b.isZero))

/-- `OrderedFloat::normalized`: one NaN and one zero. The memcomparable encoding of a float
is that of its normalized value. -/
def normalized (f : F64) : F64 :=
  if f.isNan then ⟨0x7FF8000000000000⟩ else if f.isZero then ⟨0⟩ else f

def zero : F64 := ⟨0⟩

def negZero : F64 := ⟨0x8000000000000000⟩

end F64

/-- `Eq` of a `float8` datum: NULL equals NULL, values compare as `OrderedFloat`s. -/
def floatDatumEq : Option F64 → Option F64 → Bool
  | none, none => true
  | some a, some b => a.orderedEq b
  | _, _ => false

/-- Inserting `0.0` and then `-0.0` into a fresh distinct column: the two are one value
to the snapshot, but two cache keys, so both rows stay visible to the call, and the
dedup table counts the value once though it is there twice. -/
theorem dedupChunk_passes_both_zeros :
    floatDatumEq (some F64.zero) (some F64.negZero) = true ∧
      ((dedupChunk floatDatumEq (Option.map F64.normalized) (fun _ => true) [.insert, .insert]
          [[some F64.zero, some F64.negZero]] [⟨0, [0], ⟨[], []⟩⟩] [[true, true]]).map
        fun r => (r.2, r.1.map fun dc => dc.deduplicater.dedupTable)) =
        some ([[true, true]], [[(some F64.zero, [1])]]) := by
  decide

end RisingWave.Stream.Distinct
