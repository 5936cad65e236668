import Mathlib
import RisingWave.Lib.OrderedMap

/-!
# The mem table of a local state store

`storage/src/mem_table.rs`. A `MemtableLocalStateStore` buffers the writes of an epoch
in a `MemTable` over the committed snapshot of its table: one `KeyOp` per key, a
later write folded into the one before (`Delete` then `Insert` is `Update`,
`Insert` then `Delete` is nothing). Reads look in the buffer first, iteration
merges the buffer with the committed rows (`merge_stream`), and `flush` turns the
buffer into the write batch of the epoch.

The buffer over the committed map `B` stands for the logical map `L` the writes
have made of `B` (`Overlay`). Every consistent write keeps it (`Overlay.write`), so
reads, iteration and the flushed batch all give `L`.

`ENABLE_SANITY_CHECK` and `debug_assert!` are both `cfg!(debug_assertions)`: the
parameter `sanity` stands for it. `kv_size`, an estimate of the buffer's memory, is
left out, as are the epoch, table id and table options, which only label keys.
-/

namespace RisingWave.Storage

open SortedMap

/-- `KeyOp`. -/
inductive KeyOp (V : Type) where
  | insert (value : V)
  | delete (value : V)
  /-- `(old_value, new_value)` -/
  | update (oldValue newValue : V)
  deriving DecidableEq, Repr

/-- `MemTableError`. -/
inductive MemTableError (K V : Type) where
  | inconsistentOperation (key : K) (prev new : KeyOp V)
  deriving DecidableEq, Repr

/-- `StorageValue` as `flush` builds it. -/
inductive StorageValue (V : Type) where
  | put (value : V)
  | delete
  deriving DecidableEq, Repr

/-- `std::ops::Bound`. -/
inductive Bound (K : Type) where
  | included (key : K)
  | excluded (key : K)
  | unbounded
  deriving DecidableEq, Repr

variable {K V : Type} [LinearOrder K]

/-- A key within the range `(start, end)`. -/
def inRange (range : Bound K × Bound K) (k : K) : Bool :=
  (match range.1 with
    | .included a => decide (a ≤ k)
    | .excluded a => decide (a < k)
    | .unbounded => true) &&
  (match range.2 with
    | .included b => decide (k ≤ b)
    | .excluded b => decide (k < b)
    | .unbounded => true)

/-- `BTreeMap::range`, which panics on a start above the end, or equal to it with both
ends excluded. -/
def rangeEntries {ν : Type} (m : SortedMap K ν) (range : Bound K × Bound K) :
    Option (List (K × ν)) :=
  match range with
  | (.included a, .included b) | (.included a, .excluded b) | (.excluded a, .included b) =>
    if b < a then none else some (m.entries.filter fun e => inRange range e.1)
  | (.excluded a, .excluded b) =>
    if b ≤ a then none else some (m.entries.filter fun e => inRange range e.1)
  | _ => some (m.entries.filter fun e => inRange range e.1)

section Model

variable [DecidableEq V] [Inhabited V]

/-- `MemTable`. -/
structure MemTable (K V : Type) [LinearOrder K] where
  buffer : SortedMap K (KeyOp V)
  isConsistentOp : Bool

namespace MemTable

/-- `MemTable::new`. -/
def new (isConsistentOp : Bool) : MemTable K V := ⟨.empty, isConsistentOp⟩

/-- `MemTable::insert`. -/
def insert (t : MemTable K V) (pk : K) (value : V) :
    MemTable K V × Except (MemTableError K V) Unit :=
  if !t.isConsistentOp then ({ t with buffer := t.buffer.insert pk (.insert value) }, .ok ())
  else
    match t.buffer.get? pk with
    | none => ({ t with buffer := t.buffer.insert pk (.insert value) }, .ok ())
    | some (.delete oldVal) => ({ t with buffer := t.buffer.insert pk (.update oldVal value) }, .ok ())
    | some prev => (t, .error (.inconsistentOperation pk prev (.insert value)))

/-- `MemTable::delete`. -/
def delete (sanity : Bool) (t : MemTable K V) (pk : K) (oldValue : V) :
    MemTable K V × Except (MemTableError K V) Unit :=
  if !t.isConsistentOp then ({ t with buffer := t.buffer.insert pk (.delete oldValue) }, .ok ())
  else
    match t.buffer.get? pk with
    | none => ({ t with buffer := t.buffer.insert pk (.delete oldValue) }, .ok ())
    | some (.insert originalValue) =>
      if sanity ∧ originalValue ≠ oldValue then
        (t, .error (.inconsistentOperation pk (.insert originalValue) (.delete oldValue)))
      else ({ t with buffer := t.buffer.erase pk }, .ok ())
    | some (.delete v) => (t, .error (.inconsistentOperation pk (.delete v) (.delete oldValue)))
    | some (.update originalOldValue originalNewValue) =>
      -- `std::mem::take` empties the entry before the check: when the check fails the
      -- entry stays `Update(default, default)`, and the error reports that.
      if sanity ∧ originalNewValue ≠ oldValue then
        ({ t with buffer := t.buffer.insert pk (.update default default) },
          .error (.inconsistentOperation pk (.update default default) (.delete oldValue)))
      else ({ t with buffer := t.buffer.insert pk (.delete originalOldValue) }, .ok ())

/-- `MemTable::update`. -/
def update (sanity : Bool) (t : MemTable K V) (pk : K) (oldValue newValue : V) :
    MemTable K V × Except (MemTableError K V) Unit :=
  if !t.isConsistentOp then
    ({ t with buffer := t.buffer.insert pk (.update oldValue newValue) }, .ok ())
  else
    match t.buffer.get? pk with
    | none => ({ t with buffer := t.buffer.insert pk (.update oldValue newValue) }, .ok ())
    | some (.insert originalNewValue) =>
      if sanity ∧ originalNewValue ≠ oldValue then
        (t, .error (.inconsistentOperation pk (.insert originalNewValue)
          (.update oldValue newValue)))
      else ({ t with buffer := t.buffer.insert pk (.insert newValue) }, .ok ())
    | some (.update originOldValue originalNewValue) =>
      if sanity ∧ originalNewValue ≠ oldValue then
        (t, .error (.inconsistentOperation pk (.update originOldValue originalNewValue)
          (.update oldValue newValue)))
      else ({ t with buffer := t.buffer.insert pk (.update originOldValue newValue) }, .ok ())
    | some (.delete v) =>
      (t, .error (.inconsistentOperation pk (.delete v) (.update oldValue newValue)))

/-- `MemTable::iter`. -/
def iter (t : MemTable K V) (range : Bound K × Bound K) : Option (List (K × KeyOp V)) :=
  rangeEntries t.buffer range

end MemTable

/-- What a read sees of a key: the buffered op over the committed value. -/
def readThrough : Option (KeyOp V) → Option V → Option V
  | none, committed => committed
  | some (.insert value), _ => some value
  | some (.update _ value), _ => some value
  | some (.delete _), _ => none

/-- `merge_stream` over the buffer's entries and the committed ones, both in key order.
`none` is the `unreachable!` of an `Update` with no committed key, or a failed
`debug_assert!` that an `Update`'s old value is the committed one. -/
def mergeStream (sanity : Bool) : List (K × KeyOp V) → List (K × V) → Option (List (K × V))
  | [], [] => some []
  | [], (k, v) :: inner => ((k, v) :: ·) <$> mergeStream sanity [] inner
  | (k, op) :: mem, [] =>
    match op with
    | .insert v | .update _ v => ((k, v) :: ·) <$> mergeStream sanity mem []
    | .delete _ => mergeStream sanity mem []
  | (memKey, op) :: mem, (innerKey, innerValue) :: inner =>
    match compare innerKey memKey with
    | .lt => ((innerKey, innerValue) :: ·) <$> mergeStream sanity ((memKey, op) :: mem) inner
    | .eq =>
      match op with
      | .insert v => ((innerKey, v) :: ·) <$> mergeStream sanity mem inner
      | .delete _ => mergeStream sanity mem inner
      | .update oldValue newValue =>
        if sanity ∧ oldValue ≠ innerValue then none
        else ((innerKey, newValue) :: ·) <$> mergeStream sanity mem inner
    | .gt =>
      match op with
      | .insert v => ((memKey, v) :: ·) <$> mergeStream sanity mem ((innerKey, innerValue) :: inner)
      | .delete _ => mergeStream sanity mem ((innerKey, innerValue) :: inner)
      | .update _ _ => none
termination_by mem inner => mem.length + inner.length

/-- `MemtableLocalStateStore`, over the committed rows `inner` of its table at its epoch. -/
structure MemtableLocalStateStore (K V : Type) [LinearOrder K] where
  memTable : MemTable K V
  inner : SortedMap K V
  isConsistentOp : Bool

namespace MemtableLocalStateStore

/-- `MemtableLocalStateStore::new`. -/
def new (inner : SortedMap K V) (isConsistentOp : Bool) : MemtableLocalStateStore K V :=
  ⟨.new isConsistentOp, inner, isConsistentOp⟩

/-- `LocalStateStore::get`. -/
def get (s : MemtableLocalStateStore K V) (key : K) : Option V :=
  readThrough (s.memTable.buffer.get? key) (s.inner.get? key)

/-- `LocalStateStore::iter`; the committed rows are read over the range as it is. -/
def iter (sanity : Bool) (s : MemtableLocalStateStore K V) (range : Bound K × Bound K) :
    Option (List (K × V)) := do
  let mem ← s.memTable.iter range
  mergeStream sanity mem (s.inner.entries.filter fun e => inRange range e.1)

/-- `LocalStateStore::insert`: an insert with an old value is an update. -/
def insert (sanity : Bool) (s : MemtableLocalStateStore K V) (key : K) (newVal : V)
    (oldVal : Option V) : MemtableLocalStateStore K V × Except (MemTableError K V) Unit :=
  let r := match oldVal with
    | none => s.memTable.insert key newVal
    | some oldVal => s.memTable.update sanity key oldVal newVal
  ({ s with memTable := r.1 }, r.2)

/-- `LocalStateStore::delete`. -/
def delete (sanity : Bool) (s : MemtableLocalStateStore K V) (key : K) (oldVal : V) :
    MemtableLocalStateStore K V × Except (MemTableError K V) Unit :=
  let r := s.memTable.delete sanity key oldVal
  ({ s with memTable := r.1 }, r.2)

/-- The write of one buffered op into the batch, with the sanity check of `flush`
against the committed value. -/
def flushEntry (check : Bool) (inner : SortedMap K V) (e : K × KeyOp V) :
    Except (MemTableError K V) (K × StorageValue V) :=
  match e.2 with
  | .insert value =>
    match check, inner.get? e.1 with
    | true, some storedValue =>
      .error (.inconsistentOperation e.1 (.insert storedValue) (.insert value))
    | _, _ => .ok (e.1, .put value)
  | .delete oldValue =>
    match check, inner.get? e.1 with
    | true, none => .error (.inconsistentOperation e.1 (.delete default) (.delete oldValue))
    | true, some storedValue =>
      if storedValue ≠ oldValue then
        .error (.inconsistentOperation e.1 (.insert storedValue) (.delete oldValue))
      else .ok (e.1, .delete)
    | false, _ => .ok (e.1, .delete)
  | .update oldValue newValue =>
    match check, inner.get? e.1 with
    | true, none =>
      .error (.inconsistentOperation e.1 (.delete default) (.update oldValue newValue))
    | true, some storedValue =>
      if storedValue ≠ oldValue then
        .error (.inconsistentOperation e.1 (.insert storedValue) (.update oldValue newValue))
      else .ok (e.1, .put newValue)
    | false, _ => .ok (e.1, .put newValue)

/-- A write batch applied to the committed rows (`ingest_batch`). -/
def applyBatch (inner : SortedMap K V) (kvPairs : List (K × StorageValue V)) : SortedMap K V :=
  kvPairs.foldl (fun m kv =>
    match kv.2 with
    | .put value => m.insert kv.1 value
    | .delete => m.erase kv.1) inner

/-- `LocalStateStore::flush` with no delete ranges: the drained buffer, in key order, as a
write batch, which the committed rows then take. -/
def flush (sanity : Bool) (s : MemtableLocalStateStore K V) :
    Except (MemTableError K V) (MemtableLocalStateStore K V × List (K × StorageValue V)) := do
  let kvPairs ← s.memTable.buffer.entries.mapM (flushEntry (sanity && s.isConsistentOp) s.inner)
  let s' : MemtableLocalStateStore K V :=
    { s with memTable := MemTable.new s.memTable.isConsistentOp, inner := applyBatch s.inner kvPairs }
  return (s', kvPairs)

end MemtableLocalStateStore

/-! ## The logical map -/

/-- A write of the table, as an executor issues it. -/
inductive Write (K V : Type) where
  | insert (key : K) (value : V)
  | delete (key : K) (oldValue : V)
  | update (key : K) (oldValue newValue : V)

namespace Write

/-- The logical map after the write. -/
def applyTo (L : SortedMap K V) : Write K V → SortedMap K V
  | .insert key value => L.insert key value
  | .delete key _ => L.erase key
  | .update key _ newValue => L.insert key newValue

/-- An insert of an absent key, or a delete or an update naming the current value. -/
def consistent (L : SortedMap K V) : Write K V → Bool
  | .insert key _ => L.get? key = none
  | .delete key oldValue => L.get? key = some oldValue
  | .update key oldValue _ => L.get? key = some oldValue

/-- Every write consistent with the logical map before it. -/
def consistentRun : SortedMap K V → List (Write K V) → Bool
  | _, [] => true
  | L, w :: ws => w.consistent L && consistentRun (w.applyTo L) ws

end Write

namespace MemtableLocalStateStore

/-- The store told of the write. -/
def write (sanity : Bool) (s : MemtableLocalStateStore K V) :
    Write K V → MemtableLocalStateStore K V × Except (MemTableError K V) Unit
  | .insert key value => s.insert sanity key value none
  | .delete key oldValue => s.delete sanity key oldValue
  | .update key oldValue newValue => s.insert sanity key newValue (some oldValue)

/-- The writes in order, up to the first error. -/
def writeAll (sanity : Bool) :
    MemtableLocalStateStore K V → List (Write K V) → Except (MemTableError K V) (MemtableLocalStateStore K V)
  | s, [] => .ok s
  | s, w :: ws =>
    match (s.write sanity w).2 with
    | .ok () => writeAll sanity (s.write sanity w).1 ws
    | .error e => .error e

end MemtableLocalStateStore

end Model

/-- What a buffered op says of one key over its committed value, and the logical value:
an `Insert` is of a key with no committed value, a `Delete` or an `Update` carries the
committed value. -/
def OpOver : Option (KeyOp V) → Option V → Option V → Prop
  | none, committed, logical => logical = committed
  | some (.insert value), committed, logical => committed = none ∧ logical = some value
  | some (.delete oldValue), committed, logical => committed = some oldValue ∧ logical = none
  | some (.update oldValue newValue), committed, logical =>
    committed = some oldValue ∧ logical = some newValue

/-- The buffer over the committed map `B` gives the logical map `L`. -/
def Overlay (B : SortedMap K V) (buffer : SortedMap K (KeyOp V)) (L : SortedMap K V) : Prop :=
  ∀ k, OpOver (buffer.get? k) (B.get? k) (L.get? k)

attribute [local simp] OpOver readThrough in
theorem OpOver.readThrough_eq {op : Option (KeyOp V)} {b l : Option V} (h : OpOver op b l) :
    readThrough op b = l := by
  rcases op with _ | ⟨v⟩ | ⟨v⟩ | ⟨o, n⟩ <;> simp_all [OpOver, readThrough]

variable {B L : SortedMap K V} {buffer : SortedMap K (KeyOp V)}

/-- A change at one key keeps the overlay when the new op says the new logical value. -/
theorem Overlay.update_at (h : Overlay B buffer L) (key : K) {buffer' : SortedMap K (KeyOp V)}
    {L' : SortedMap K V} (hb : ∀ k, k ≠ key → buffer'.get? k = buffer.get? k)
    (hL : ∀ k, k ≠ key → L'.get? k = L.get? k) (hkey : OpOver (buffer'.get? key) (B.get? key) (L'.get? key)) :
    Overlay B buffer' L' := by
  intro k
  by_cases hk : k = key
  · rw [hk]
    exact hkey
  · rw [hb k hk, hL k hk]
    exact h k

theorem overlay_empty (B : SortedMap K V) : Overlay B .empty B := fun _ => by simp [OpOver]

/-! ## Writes -/

namespace MemTable

variable {t : MemTable K V}

/-- A consistent insert folds into the buffered op: nothing or a `Delete`. -/
theorem insert_spec (hc : t.isConsistentOp = true) (h : Overlay B t.buffer L) {key : K}
    (value : V) (hL : L.get? key = none) :
    (t.insert key value).2 = .ok () ∧ (t.insert key value).1.isConsistentOp = true ∧
      Overlay B (t.insert key value).1.buffer (L.insert key value) := by
  have hk := h key
  rcases hb : t.buffer.get? key with _ | ⟨v⟩ | ⟨old⟩ | ⟨old, new⟩ <;>
    rw [hb] at hk <;> simp only [OpOver] at hk
  · refine ⟨by simp [insert, hc, hb], by simp [insert, hc, hb], h.update_at key ?_ ?_ ?_⟩ <;>
      simp +contextual [insert, hc, hb, OpOver, ← hk, hL]
  · simp_all
  · refine ⟨by simp [insert, hc, hb], by simp [insert, hc, hb], h.update_at key ?_ ?_ ?_⟩ <;>
      simp +contextual [insert, hc, hb, OpOver, hk]
  · simp_all

variable [DecidableEq V]

/-- A consistent update folds into the buffered op: nothing, an `Insert` or an `Update`. -/
theorem update_spec (sanity : Bool) (hc : t.isConsistentOp = true) (h : Overlay B t.buffer L)
    {key : K} {oldValue : V} (newValue : V) (hL : L.get? key = some oldValue) :
    (t.update sanity key oldValue newValue).2 = .ok () ∧
      (t.update sanity key oldValue newValue).1.isConsistentOp = true ∧
      Overlay B (t.update sanity key oldValue newValue).1.buffer (L.insert key newValue) := by
  have hk := h key
  rcases hb : t.buffer.get? key with _ | ⟨v⟩ | ⟨old⟩ | ⟨old, new⟩ <;>
    rw [hb] at hk <;> simp only [OpOver] at hk
  · refine ⟨by simp [update, hc, hb], by simp [update, hc, hb], h.update_at key ?_ ?_ ?_⟩ <;>
      simp +contextual [update, hc, hb, OpOver, ← hk, hL]
  · obtain ⟨hB, rfl⟩ : B.get? key = none ∧ v = oldValue := by simp_all
    refine ⟨by simp [update, hc, hb], by simp [update, hc, hb], h.update_at key ?_ ?_ ?_⟩ <;>
      simp +contextual [update, hc, hb, OpOver, hB]
  · simp_all
  · obtain ⟨hB, rfl⟩ : B.get? key = some old ∧ new = oldValue := by simp_all
    refine ⟨by simp [update, hc, hb], by simp [update, hc, hb], h.update_at key ?_ ?_ ?_⟩ <;>
      simp +contextual [update, hc, hb, OpOver, hB]

variable [Inhabited V]

/-- A consistent delete folds into the buffered op: nothing, an `Insert` (which goes) or an
`Update` (which becomes a `Delete` of the committed value). -/
theorem delete_spec (sanity : Bool) (hc : t.isConsistentOp = true) (h : Overlay B t.buffer L)
    {key : K} {oldValue : V} (hL : L.get? key = some oldValue) :
    (t.delete sanity key oldValue).2 = .ok () ∧ (t.delete sanity key oldValue).1.isConsistentOp = true ∧
      Overlay B (t.delete sanity key oldValue).1.buffer (L.erase key) := by
  have hk := h key
  rcases hb : t.buffer.get? key with _ | ⟨v⟩ | ⟨old⟩ | ⟨old, new⟩ <;>
    rw [hb] at hk <;> simp only [OpOver] at hk
  · refine ⟨by simp [delete, hc, hb], by simp [delete, hc, hb], h.update_at key ?_ ?_ ?_⟩ <;>
      simp +contextual [delete, hc, hb, OpOver, ← hk, hL]
  · -- The buffered insert is undone.
    obtain ⟨hB, rfl⟩ : B.get? key = none ∧ v = oldValue := by simp_all
    refine ⟨by simp [delete, hc, hb], by simp [delete, hc, hb], h.update_at key ?_ ?_ ?_⟩ <;>
      simp +contextual [delete, hc, hb, OpOver, hB]
  · simp_all
  · obtain ⟨hB, rfl⟩ : B.get? key = some old ∧ new = oldValue := by simp_all
    refine ⟨by simp [delete, hc, hb], by simp [delete, hc, hb], h.update_at key ?_ ?_ ?_⟩ <;>
      simp +contextual [delete, hc, hb, OpOver, hB]

end MemTable

namespace MemtableLocalStateStore

variable {s : MemtableLocalStateStore K V}

/-- A read gives the logical value. -/
theorem get_eq (h : Overlay s.inner s.memTable.buffer L) (k : K) : s.get k = L.get? k :=
  (h k).readThrough_eq

variable [DecidableEq V] [Inhabited V]

/-- A consistent write returns `Ok`, keeps the committed rows, and keeps the buffer over
them the logical map after the write. -/
theorem write_spec (sanity : Bool) (hc : s.memTable.isConsistentOp = true)
    (h : Overlay s.inner s.memTable.buffer L) (w : Write K V) (hw : w.consistent L = true) :
    (s.write sanity w).2 = .ok () ∧ (s.write sanity w).1.inner = s.inner ∧
      (s.write sanity w).1.memTable.isConsistentOp = true ∧
      Overlay s.inner (s.write sanity w).1.memTable.buffer (w.applyTo L) := by
  cases w with
  | insert key value =>
    obtain ⟨h₁, h₂, h₃⟩ := MemTable.insert_spec hc h value (by simpa [Write.consistent] using hw)
    exact ⟨h₁, rfl, h₂, h₃⟩
  | delete key oldValue =>
    obtain ⟨h₁, h₂, h₃⟩ := MemTable.delete_spec sanity hc h (by simpa [Write.consistent] using hw)
    exact ⟨h₁, rfl, h₂, h₃⟩
  | update key oldValue newValue =>
    obtain ⟨h₁, h₂, h₃⟩ :=
      MemTable.update_spec sanity hc h newValue (by simpa [Write.consistent] using hw)
    exact ⟨h₁, rfl, h₂, h₃⟩

/-- Consistent writes all return `Ok`, and the buffer stays over the committed rows the
logical map they make. -/
theorem writeAll_spec (sanity : Bool) (ws : List (Write K V)) :
    ∀ (s : MemtableLocalStateStore K V) (L : SortedMap K V), s.memTable.isConsistentOp = true →
      Overlay s.inner s.memTable.buffer L → Write.consistentRun L ws = true →
      ∃ s', s.writeAll sanity ws = .ok s' ∧ s'.inner = s.inner ∧
        Overlay s.inner s'.memTable.buffer (ws.foldl Write.applyTo L) := by
  induction ws with
  | nil => intro s L _ h _; exact ⟨s, rfl, rfl, h⟩
  | cons w ws ih =>
    intro s L hc h hws
    simp only [Write.consistentRun, Bool.and_eq_true] at hws
    obtain ⟨hok, hinner, hc', h'⟩ := s.write_spec sanity hc h w hws.1
    obtain ⟨s', hrun, hinner', h''⟩ := ih _ _ hc' (hinner ▸ h') hws.2
    refine ⟨s', ?_, hinner'.trans hinner, hinner ▸ h''⟩
    simp only [writeAll, hok]
    exact hrun

end MemtableLocalStateStore

/-! ## Iteration -/

/-- `O` is the merge of the buffered ops `M` over the committed rows `I`: in key order, and
at each key what a read through `M` to `I` sees. -/
def MergeOf (M : List (K × KeyOp V)) (I : List (K × V)) (O : List (K × V)) : Prop :=
  O.Pairwise (fun a b => a.1 < b.1) ∧ ∀ k, getList k O = readThrough (getList k M) (getList k I)

variable {M M' : List (K × KeyOp V)} {I I' : List (K × V)} {O : List (K × V)}

/-- Keys read through `M` and `I` above `k` when all their keys are. -/
theorem lt_of_readThrough_ne_none {k k' : K} (hM : ∀ e ∈ M, k < e.1) (hI : ∀ e ∈ I, k < e.1)
    (h : readThrough (getList k' M) (getList k' I) ≠ none) : k < k' := by
  cases hm : getList k' M with
  | some op => exact hM _ (mem_of_getList_eq_some hm)
  | none =>
    cases hi : getList k' I with
    | some v => exact hI _ (mem_of_getList_eq_some hi)
    | none => simp [hm, hi, readThrough] at h

/-- A row below every key of the rest of the merge goes in front of it. -/
theorem MergeOf.cons (h : MergeOf M' I' O) {k : K} {v : V} (hM : ∀ e ∈ M', k < e.1)
    (hI : ∀ e ∈ I', k < e.1)
    (hread : ∀ k', readThrough (getList k' M) (getList k' I) =
      if k' = k then some v else readThrough (getList k' M') (getList k' I')) :
    MergeOf M I ((k, v) :: O) := by
  refine ⟨List.Pairwise.cons (fun e he => ?_) h.1, fun k' => ?_⟩
  · have he' := (getList_eq_some_iff h.1 e.1 e.2).mpr he
    rw [h.2] at he'
    exact lt_of_readThrough_ne_none hM hI (by simp [he'])
  · rw [getList_cons, hread, h.2]
    by_cases hk : k' = k
    · simp [hk]
    · simp [hk, Ne.symm hk]

theorem MergeOf.congr (h : MergeOf M' I' O)
    (hread : ∀ k', readThrough (getList k' M) (getList k' I) =
      readThrough (getList k' M') (getList k' I')) :
    MergeOf M I O :=
  ⟨h.1, fun k' => by rw [h.2, hread]⟩

section Merge

variable [DecidableEq V]

/-- `merge_stream` of sorted buffered ops over sorted committed rows, where each `Update`
has its old value committed, reads every key through the buffer, and does not panic. -/
theorem mergeStream_spec (sanity : Bool) (M : List (K × KeyOp V)) (I : List (K × V)) :
    M.Pairwise (fun a b => a.1 < b.1) → I.Pairwise (fun a b => a.1 < b.1) →
    (∀ k o n, (k, KeyOp.update o n) ∈ M → (k, o) ∈ I) →
    ∃ O, mergeStream sanity M I = some O ∧ MergeOf M I O := by
  induction M, I using @mergeStream.induct K V _ _ sanity with
  | case1 =>
    intro _ _ _
    exact ⟨[], by simp [mergeStream], List.Pairwise.nil, fun k => by simp [readThrough]⟩
  | case2 k v inner ih =>
    -- Only committed rows are left.
    intro hM hI _
    rw [List.pairwise_cons] at hI
    obtain ⟨O, hO, hmerge⟩ := ih hM hI.2 (by simp)
    refine ⟨(k, v) :: O, by simp [mergeStream, hO], hmerge.cons (by simp) hI.1 fun k' => ?_⟩
    by_cases hk : k' = k
    · subst hk; simp [readThrough]
    · simp [getList_cons, hk, Ne.symm hk]
  | case3 k mem v ih | case4 k mem _ v ih =>
    -- Only buffered ops are left: an `Insert` or an `Update` is read.
    intro hM _ hP
    rw [List.pairwise_cons] at hM
    obtain ⟨O, hO, hmerge⟩ := ih hM.2 List.Pairwise.nil
      fun k o n hk => hP k o n (List.mem_cons_of_mem _ hk)
    refine ⟨(k, v) :: O, by simp [mergeStream, hO], hmerge.cons hM.1 (by simp) fun k' => ?_⟩
    by_cases hk : k' = k
    · subst hk; simp [readThrough]
    · simp [getList_cons, hk, Ne.symm hk]
  | case5 k mem v ih =>
    intro hM _ hP
    rw [List.pairwise_cons] at hM
    obtain ⟨O, hO, hmerge⟩ := ih hM.2 List.Pairwise.nil
      fun k o n hk => hP k o n (List.mem_cons_of_mem _ hk)
    refine ⟨O, by simp [mergeStream, hO], hmerge.congr fun k' => ?_⟩
    by_cases hk : k' = k
    · subst hk; simp [readThrough, getList_of_forall_lt hM.1]
    · simp [getList_cons, Ne.symm hk]
  | case6 memKey op mem innerKey innerValue inner hcmp ih =>
    -- The committed row comes first.
    intro hM hI hP
    have hlt : innerKey < memKey := compare_lt_iff_lt.mp hcmp
    have hMgt : ∀ e ∈ (memKey, op) :: mem, innerKey < e.1 := by
      intro e he
      rcases List.mem_cons.mp he with rfl | he
      · exact hlt
      · exact hlt.trans ((List.pairwise_cons.mp hM).1 e he)
    rw [List.pairwise_cons] at hI
    obtain ⟨O, hO, hmerge⟩ := ih hM hI.2 fun k o n hk => by
      rcases List.mem_cons.mp (hP k o n hk) with heq | hin
      · exact absurd (congrArg Prod.fst heq) (hMgt _ hk).ne'
      · exact hin
    refine ⟨(innerKey, innerValue) :: O, by rw [mergeStream.eq_def]; simp [hcmp, hO],
      hmerge.cons hMgt hI.1 fun k' => ?_⟩
    by_cases hk : k' = innerKey
    · subst hk; simp [readThrough, getList_of_forall_lt hMgt]
    · simp [getList_cons, hk, Ne.symm hk]
  | case7 memKey mem innerKey innerValue inner hcmp a ih
  | case10 memKey mem innerKey innerValue inner hcmp _ a _ ih =>
    -- One key on both sides: the buffered value is read.
    intro hM hI hP
    have heq : innerKey = memKey := compare_eq_iff_eq.mp hcmp
    subst heq
    rw [List.pairwise_cons] at hM hI
    obtain ⟨O, hO, hmerge⟩ := ih hM.2 hI.2 fun k o n hk => by
      rcases List.mem_cons.mp (hP k o n (List.mem_cons_of_mem _ hk)) with heq | hin
      · exact absurd (congrArg Prod.fst heq) (hM.1 _ hk).ne'
      · exact hin
    refine ⟨(innerKey, a) :: O, by rw [mergeStream.eq_def]; simp_all, hmerge.cons hM.1 hI.1 fun k' => ?_⟩
    by_cases hk : k' = innerKey
    · subst hk; simp [readThrough]
    · simp [getList_cons, hk, Ne.symm hk]
  | case8 memKey mem innerKey innerValue inner hcmp a ih =>
    intro hM hI hP
    have heq : innerKey = memKey := compare_eq_iff_eq.mp hcmp
    subst heq
    rw [List.pairwise_cons] at hM hI
    obtain ⟨O, hO, hmerge⟩ := ih hM.2 hI.2 fun k o n hk => by
      rcases List.mem_cons.mp (hP k o n (List.mem_cons_of_mem _ hk)) with heq | hin
      · exact absurd (congrArg Prod.fst heq) (hM.1 _ hk).ne'
      · exact hin
    refine ⟨O, by rw [mergeStream.eq_def]; simp [hO], hmerge.congr fun k' => ?_⟩
    by_cases hk : k' = innerKey
    · subst hk; simp [readThrough, getList_of_forall_lt hM.1, getList_of_forall_lt hI.1]
    · simp [getList_cons, Ne.symm hk]
  | case9 memKey mem innerKey innerValue inner hcmp a _ hcheck =>
    -- An `Update` of the committed key carries the committed value.
    intro _ hI hP
    have heq : innerKey = memKey := compare_eq_iff_eq.mp hcmp
    subst heq
    rcases List.mem_cons.mp (hP innerKey a _ List.mem_cons_self) with h | h
    · exact absurd (Prod.mk.inj h).2 hcheck.2
    · exact absurd rfl ((List.pairwise_cons.mp hI).1 _ h).ne
  | case11 memKey mem innerKey innerValue inner hcmp a ih =>
    -- The buffered insert comes first.
    intro hM hI hP
    have hlt : memKey < innerKey := compare_gt_iff_gt.mp hcmp
    have hIgt : ∀ e ∈ (innerKey, innerValue) :: inner, memKey < e.1 := by
      intro e he
      rcases List.mem_cons.mp he with rfl | he
      · exact hlt
      · exact hlt.trans ((List.pairwise_cons.mp hI).1 e he)
    rw [List.pairwise_cons] at hM
    obtain ⟨O, hO, hmerge⟩ := ih hM.2 hI fun k o n hk => hP k o n (List.mem_cons_of_mem _ hk)
    refine ⟨(memKey, a) :: O, by rw [mergeStream.eq_def]; simp [hcmp, hO], hmerge.cons hM.1 hIgt fun k' => ?_⟩
    by_cases hk : k' = memKey
    · subst hk; simp [readThrough]
    · simp [getList_cons, hk, Ne.symm hk]
  | case12 memKey mem innerKey innerValue inner hcmp a ih =>
    intro hM hI hP
    have hlt : memKey < innerKey := compare_gt_iff_gt.mp hcmp
    have hIgt : ∀ e ∈ (innerKey, innerValue) :: inner, memKey < e.1 := by
      intro e he
      rcases List.mem_cons.mp he with rfl | he
      · exact hlt
      · exact hlt.trans ((List.pairwise_cons.mp hI).1 e he)
    rw [List.pairwise_cons] at hM
    obtain ⟨O, hO, hmerge⟩ := ih hM.2 hI fun k o n hk => hP k o n (List.mem_cons_of_mem _ hk)
    refine ⟨O, by rw [mergeStream.eq_def]; simp [hcmp, hO], hmerge.congr fun k' => ?_⟩
    by_cases hk : k' = memKey
    · subst hk; simp [readThrough, getList_of_forall_lt hM.1, getList_of_forall_lt hIgt]
    · simp [getList_cons, Ne.symm hk]
  | case13 memKey mem innerKey innerValue inner hcmp a _ =>
    -- An `Update` always has a committed key, so it is never ahead of the committed rows.
    intro _ hI hP
    have hlt : memKey < innerKey := compare_gt_iff_gt.mp hcmp
    rcases List.mem_cons.mp (hP memKey a _ List.mem_cons_self) with h | h
    · exact absurd (congrArg Prod.fst h) hlt.ne
    · exact absurd (hlt.trans ((List.pairwise_cons.mp hI).1 _ h)) (lt_irrefl _)

/-- Over any range, `merge_stream` of the buffer and the committed rows is the logical map. -/
theorem Overlay.mergeStream_eq (sanity : Bool) (h : Overlay B buffer L) (range : Bound K × Bound K) :
    mergeStream sanity (buffer.entries.filter fun e => inRange range e.1)
      (B.entries.filter fun e => inRange range e.1) =
        some (L.entries.filter fun e => inRange range e.1) := by
  have hsortM := buffer.sorted.sublist (List.filter_sublist (p := fun e => inRange range e.1))
  have hsortI := B.sorted.sublist (List.filter_sublist (p := fun e => inRange range e.1))
  -- Each buffered `Update` has its old value committed, within the same range.
  obtain ⟨O, hO, hsorted, hread⟩ := mergeStream_spec sanity _ _ hsortM hsortI (by
    intro k o n hk
    rw [List.mem_filter] at hk ⊢
    have hop := h k
    rw [(get?_eq_some_iff _ _ _).mpr hk.1] at hop
    exact ⟨(get?_eq_some_iff _ _ _).mp hop.1, hk.2⟩)
  rw [hO]
  congr 1
  apply eq_of_mem_iff hsorted (L.sorted.sublist List.filter_sublist)
  intro e
  have hL := (h e.1).readThrough_eq
  simp only [get?] at hL
  rw [← getList_eq_some_iff hsorted, hread, getList_filter, getList_filter, List.mem_filter,
    ← getList_eq_some_iff L.sorted]
  by_cases hr : inRange range e.1 = true
  · simp [hr, hL]
  · simp [hr, readThrough]

/-- Whether `BTreeMap::range` panics depends on the range alone. -/
theorem rangeEntries_eq_map {ν ν' : Type} (m : SortedMap K ν) (m' : SortedMap K ν')
    (range : Bound K × Bound K) :
    rangeEntries m range =
      (rangeEntries m' range).map fun _ => m.entries.filter fun e => inRange range e.1 := by
  rcases range with ⟨_ | _ | _, _ | _ | _⟩ <;> simp [rangeEntries, apply_ite]

/-- An iterator over a range reads the logical map over it, and panics just where
`BTreeMap::range` of the logical map would. -/
theorem MemtableLocalStateStore.iter_eq {s : MemtableLocalStateStore K V} (sanity : Bool)
    (h : Overlay s.inner s.memTable.buffer L) (range : Bound K × Bound K) :
    s.iter sanity range = rangeEntries L range := by
  rw [MemtableLocalStateStore.iter, MemTable.iter, rangeEntries_eq_map s.memTable.buffer L]
  cases hr : rangeEntries L range with
  | none => rfl
  | some l =>
    have hl := rangeEntries_eq_map L L range
    rw [hr, Option.map_some, Option.some_inj] at hl
    rw [hl]
    exact h.mergeStream_eq sanity range

end Merge

/-! ## Flush -/

/-- The write a buffered op becomes in the batch. -/
def storageOf : KeyOp V → StorageValue V
  | .insert value => .put value
  | .delete _ => .delete
  | .update _ newValue => .put newValue

theorem mapM_eq_ok {α β ε : Type} {f : α → Except ε β} {g : α → β} :
    ∀ {l : List α}, (∀ a ∈ l, f a = .ok (g a)) → l.mapM f = .ok (l.map g)
  | [], _ => rfl
  | a :: l, h => by
    have ih := mapM_eq_ok fun b hb => h b (List.mem_cons_of_mem _ hb)
    simp only [List.mapM_cons, h a List.mem_cons_self, ih, List.map_cons]
    rfl

namespace MemtableLocalStateStore

attribute [local simp] storageOf in
/-- The batch applied to the committed rows reads each key through the buffer. -/
theorem get?_applyBatch_map (l : List (K × KeyOp V)) (hl : l.Pairwise fun a b => a.1 < b.1)
    (B : SortedMap K V) (k : K) :
    (applyBatch B (l.map fun e => (e.1, storageOf e.2))).get? k = readThrough (getList k l) (B.get? k) := by
  induction l generalizing B with
  | nil => rfl
  | cons e l ih =>
    rw [List.pairwise_cons] at hl
    rw [List.map_cons, applyBatch, List.foldl_cons, ← applyBatch, ih hl.2]
    obtain ⟨k₀, op⟩ := e
    by_cases hk : k = k₀
    · -- The entry's key comes once: the rest of the batch leaves it.
      subst hk
      rw [getList_of_forall_lt hl.1, getList_cons_self]
      cases op <;> simp [storageOf, readThrough]
    · rw [getList_cons_of_ne (Ne.symm hk)]
      cases op <;> simp [storageOf, hk]

variable [DecidableEq V] [Inhabited V] {s : MemtableLocalStateStore K V}

/-- Every sanity check of `flush` passes on a buffer over the committed rows. -/
theorem flushEntry_eq (check : Bool) {B : SortedMap K V} {k : K} {op : KeyOp V} {l : Option V}
    (h : OpOver (some op) (B.get? k) l) : flushEntry check B (k, op) = .ok (k, storageOf op) := by
  cases op <;> cases check <;> simp_all [OpOver, flushEntry, storageOf]

/-- `flush` of a buffer over the committed rows returns `Ok`, and its batch makes the
logical map of them. -/
theorem flush_spec (sanity : Bool) (h : Overlay s.inner s.memTable.buffer L) :
    ∃ s' kvPairs, s.flush sanity = .ok (s', kvPairs) ∧ applyBatch s.inner kvPairs = L ∧
      s'.inner = L ∧ s'.memTable.buffer.entries = [] := by
  have hmap : s.memTable.buffer.entries.mapM (flushEntry (sanity && s.isConsistentOp) s.inner) =
      .ok (s.memTable.buffer.entries.map fun e => (e.1, storageOf e.2)) := by
    apply mapM_eq_ok
    intro e he
    have hop := h e.1
    rw [(get?_eq_some_iff _ _ _).mpr he] at hop
    exact flushEntry_eq _ hop
  have hL : applyBatch s.inner (s.memTable.buffer.entries.map fun e => (e.1, storageOf e.2)) = L := by
    apply ext_get?
    intro k
    rw [get?_applyBatch_map _ s.memTable.buffer.sorted]
    exact (h k).readThrough_eq
  refine ⟨{ s with memTable := MemTable.new s.memTable.isConsistentOp, inner := L }, _, ?_, hL, rfl, rfl⟩
  rw [flush, hmap, ← hL]
  rfl

/-! ## The overlay over a whole run -/

/-- Consistent writes into a fresh consistent-op store all return `Ok` and leave a buffer
over the snapshot `B` that gives the logical map: reads see it, a merge over any range
yields it in key order, and the flushed batch applied to `B` makes it. -/
theorem memTable_overlays_snapshot (sanity : Bool) (B : SortedMap K V) (ws : List (Write K V))
    (hws : Write.consistentRun B ws = true) :
    ∃ s, (new B true).writeAll sanity ws = .ok s ∧
      Overlay B s.memTable.buffer (ws.foldl Write.applyTo B) ∧
      (∀ k, s.get k = (ws.foldl Write.applyTo B).get? k) ∧
      (∀ range, mergeStream sanity (s.memTable.buffer.entries.filter fun e => inRange range e.1)
        (B.entries.filter fun e => inRange range e.1) =
          some ((ws.foldl Write.applyTo B).entries.filter fun e => inRange range e.1)) ∧
      ∃ s' kvPairs, s.flush sanity = .ok (s', kvPairs) ∧
        applyBatch B kvPairs = ws.foldl Write.applyTo B := by
  obtain ⟨s, hrun, hinner, h⟩ := writeAll_spec sanity ws (new B true) B rfl (overlay_empty B) hws
  have h' : Overlay s.inner s.memTable.buffer (ws.foldl Write.applyTo B) := hinner ▸ h
  obtain ⟨s', kvPairs, hflush, hbatch, -⟩ := flush_spec sanity h'
  refine ⟨s, hrun, h, get_eq h', h.mergeStream_eq sanity, s', kvPairs, hflush, ?_⟩
  rw [← hbatch, hinner]
  rfl

/-- A run over a committed row: an insert, an update of the committed row, a delete of
the inserted row and another insert. -/
theorem memTable_overlays_four_writes :
    ∃ s, (new (SortedMap.empty.insert 1 10) true).writeAll true
        [.insert 2 20, .update 1 10 11, .delete 2 20, .insert 3 30] = .ok s ∧
      Overlay (SortedMap.empty.insert 1 10) s.memTable.buffer
        ([.insert 2 20, .update 1 10 11, .delete 2 20, .insert 3 30].foldl Write.applyTo
          (SortedMap.empty.insert (1 : ℕ) (10 : ℕ))) ∧
      (∀ k, s.get k = ([.insert 2 20, .update 1 10 11, .delete 2 20, .insert 3 30].foldl
        Write.applyTo (SortedMap.empty.insert (1 : ℕ) (10 : ℕ))).get? k) ∧
      (∀ range, mergeStream true (s.memTable.buffer.entries.filter fun e => inRange range e.1)
        ((SortedMap.empty.insert 1 10).entries.filter fun e => inRange range e.1) =
          some (([.insert 2 20, .update 1 10 11, .delete 2 20, .insert 3 30].foldl Write.applyTo
            (SortedMap.empty.insert (1 : ℕ) (10 : ℕ))).entries.filter fun e => inRange range e.1)) ∧
      ∃ s' kvPairs, s.flush true = .ok (s', kvPairs) ∧
        applyBatch (SortedMap.empty.insert 1 10) kvPairs =
          [.insert 2 20, .update 1 10 11, .delete 2 20, .insert 3 30].foldl Write.applyTo
            (SortedMap.empty.insert (1 : ℕ) (10 : ℕ)) :=
  memTable_overlays_snapshot true _ _ (by decide)

end MemtableLocalStateStore

end RisingWave.Storage
