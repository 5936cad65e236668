import Mathlib
import RisingWave.Stream.TopNCache
import RisingWave.Lib.Lex

/-!
# The memory accounting of the TopN cache state

`executor/top_n/topn_cache_state.rs`, with `KvSize` (`estimate_size/mod.rs`). The cache of
`top_n_cache.rs` reads only the map of a `TopNCacheState` (`RisingWave.Stream.TopNCacheState`);
here the state also keeps `kv_heap_size`, the counter that `estimated_heap_size` returns and that
each wrapper method updates beside the map. `EstimateSize::estimated_size` is a class. Each
method returns the new state beside what the source returns; `last_entry` hands the map and the
counter out with the entry, and `remove_entry` hands them back. The closures of `retain` and
`drain_filter` do not change the values here, and a `DrainFilter` is run to its end.

Inserting a new key, `remove`, `pop_first` and `pop_last` keep the counter at the sum of the
sizes of the entries while that sum fits a `usize` (`run_accounted`). `remove_entry` adds the
size of the entry it takes out (`removeEntry_estimate`), and `clear`, `retain` and
`drain_filter` take entries out and leave the counter as it was.
-/

namespace RisingWave.Stream.CacheState

open SortedMap

/-- `EstimateSize`, by `estimated_size`: the heap size and `size_of::<Self>()`. -/
class EstimateSize (α : Type) where
  estimatedSize : α → ℕ

export EstimateSize (estimatedSize)

/-- `KvSize`: a `usize`. -/
structure KvSize where
  size : ℕ

/-- `KvSize::new`. -/
def KvSize.new : KvSize := ⟨0⟩

section Sizes

variable {κ ρ : Type} [EstimateSize κ] [EstimateSize ρ]

/-- `KvSize::add`: a `saturating_add` of the key's and the value's sizes. -/
def KvSize.add (self : KvSize) (key : κ) (val : ρ) : KvSize :=
  ⟨min (self.size + (estimatedSize key + estimatedSize val)) USIZE_MAX⟩

/-- `KvSize::sub`: a `saturating_sub`. -/
def KvSize.sub (self : KvSize) (key : κ) (val : ρ) : KvSize :=
  ⟨self.size - (estimatedSize key + estimatedSize val)⟩

/-- The sum of the sizes of some entries. -/
def sizeSum (l : List (κ × ρ)) : ℕ := (l.map fun e => estimatedSize e.1 + estimatedSize e.2).sum

@[simp] theorem sizeSum_nil : sizeSum ([] : List (κ × ρ)) = 0 := rfl

@[simp] theorem sizeSum_cons (e : κ × ρ) (l : List (κ × ρ)) :
    sizeSum (e :: l) = estimatedSize e.1 + estimatedSize e.2 + sizeSum l := rfl

theorem sizeSum_append (l l' : List (κ × ρ)) : sizeSum (l ++ l') = sizeSum l + sizeSum l' := by
  simp [sizeSum]

theorem sizeSum_eq_of_perm {l l' : List (κ × ρ)} (h : l.Perm l') : sizeSum l = sizeSum l' :=
  (h.map _).sum_eq

end Sizes

/-- `TopNCacheState`: the map and its counter. -/
structure TopNCacheState (κ ρ : Type) [LinearOrder κ] where
  inner : SortedMap κ ρ
  kvHeapSize : KvSize

/-- `TopNCacheOccupiedEntry`: an entry of the map, with the map and the counter it borrows. -/
structure TopNCacheOccupiedEntry (κ ρ : Type) [LinearOrder κ] where
  inner : SortedMap κ ρ
  key : κ
  value : ρ
  kvHeapSize : KvSize

variable {κ ρ : Type} [LinearOrder κ] [EstimateSize κ] [EstimateSize ρ]

namespace TopNCacheState

/-- `estimated_heap_size`: the counter. -/
def estimatedHeapSize (self : TopNCacheState κ ρ) : ℕ := self.kvHeapSize.size

/-- `TopNCacheState::new`. -/
def new : TopNCacheState κ ρ := ⟨SortedMap.empty, KvSize.new⟩

/-- `insert`: the counter takes the new entry's size, and the old value is returned. -/
def insert (self : TopNCacheState κ ρ) (key : κ) (value : ρ) : TopNCacheState κ ρ × Option ρ :=
  (⟨self.inner.insert key value, self.kvHeapSize.add key value⟩, self.inner.get? key)

/-- `remove`. -/
def remove (self : TopNCacheState κ ρ) (key : κ) : TopNCacheState κ ρ :=
  match self.inner.get? key with
  | some value => ⟨self.inner.erase key, self.kvHeapSize.sub key value⟩
  | none => self

/-- `clear`: the map only. -/
def clear (self : TopNCacheState κ ρ) : TopNCacheState κ ρ := { self with inner := SortedMap.empty }

/-- `pop_first`. -/
def popFirst (self : TopNCacheState κ ρ) : Option (κ × ρ) × TopNCacheState κ ρ :=
  match self.inner.popFirst with
  | some ((k, v), inner) => (some (k, v), ⟨inner, self.kvHeapSize.sub k v⟩)
  | none => (none, self)

/-- `pop_last`. -/
def popLast (self : TopNCacheState κ ρ) : Option (κ × ρ) × TopNCacheState κ ρ :=
  match self.inner.popLast with
  | some ((k, v), inner) => (some (k, v), ⟨inner, self.kvHeapSize.sub k v⟩)
  | none => (none, self)

/-- `last_entry`. -/
def lastEntry (self : TopNCacheState κ ρ) : Option (TopNCacheOccupiedEntry κ ρ) :=
  self.inner.last?.map fun e => ⟨self.inner, e.1, e.2, self.kvHeapSize⟩

/-- `drain_filter`, the iterator run to its end: the entries the predicate holds of are taken
out and yielded, the map only. -/
def drainFilter (self : TopNCacheState κ ρ) (pred : κ → ρ → Bool) :
    List (κ × ρ) × TopNCacheState κ ρ :=
  (self.inner.entries.filter fun e => pred e.1 e.2,
    { self with inner := ⟨self.inner.entries.filter fun e => !pred e.1 e.2,
      self.inner.sorted.sublist List.filter_sublist⟩ })

/-- `retain`: the map only. -/
def retain (self : TopNCacheState κ ρ) (f : κ → ρ → Bool) : TopNCacheState κ ρ :=
  { self with inner := ⟨self.inner.entries.filter fun e => f e.1 e.2,
    self.inner.sorted.sublist List.filter_sublist⟩ }

end TopNCacheState

/-- `TopNCacheOccupiedEntry::remove_entry`: the entry leaves the map, and its size is added to
the counter. -/
def TopNCacheOccupiedEntry.removeEntry (self : TopNCacheOccupiedEntry κ ρ) :
    (κ × ρ) × TopNCacheState κ ρ :=
  ((self.key, self.value), ⟨self.inner.erase self.key, self.kvHeapSize.add self.key self.value⟩)

/-- The operations on the state the cache makes. -/
inductive CacheOp (κ ρ : Type) where
  | insert (key : κ) (value : ρ)
  | remove (key : κ)
  | popFirst
  | popLast
  | lastEntryRemoveEntry
  | drainFilter (pred : κ → ρ → Bool)
  | retain (f : κ → ρ → Bool)
  | clear

namespace TopNCacheState

/-- One operation, its result dropped. -/
def step (s : TopNCacheState κ ρ) : CacheOp κ ρ → TopNCacheState κ ρ
  | .insert key value => (s.insert key value).1
  | .remove key => s.remove key
  | .popFirst => s.popFirst.2
  | .popLast => s.popLast.2
  | .lastEntryRemoveEntry =>
    match s.lastEntry with
    | some entry => entry.removeEntry.2
    | none => s
  | .drainFilter pred => (s.drainFilter pred).2
  | .retain f => s.retain f
  | .clear => s.clear

/-- A run of operations. -/
def run (s : TopNCacheState κ ρ) (ops : List (CacheOp κ ρ)) : TopNCacheState κ ρ := ops.foldl step s

/-- The counter is the sum of the sizes of the entries. -/
def Accounted (s : TopNCacheState κ ρ) : Prop := s.estimatedHeapSize = sizeSum s.inner.entries

/-- The operations that keep the counter, where they keep it: a new key whose size keeps the
sum within a `usize`, `remove`, `pop_first` and `pop_last`. -/
def Counted (s : TopNCacheState κ ρ) : CacheOp κ ρ → Prop
  | .insert key value => s.inner.get? key = none ∧
      sizeSum s.inner.entries + (estimatedSize key + estimatedSize value) ≤ USIZE_MAX
  | .remove _ | .popFirst | .popLast => True
  | _ => False

/-- Every operation of the run is counted where it is made. -/
def CountedRun : TopNCacheState κ ρ → List (CacheOp κ ρ) → Prop
  | _, [] => True
  | s, op :: ops => s.Counted op ∧ CountedRun (s.step op) ops

theorem accounted_new : (new : TopNCacheState κ ρ).Accounted := rfl

section Steps

variable {s : TopNCacheState κ ρ} (h : s.Accounted)
include h

attribute [local simp] Accounted estimatedHeapSize insert KvSize.add in
/-- A new key adds its entry's size to both. -/
theorem accounted_insert {key : κ} {value : ρ} (hnew : s.inner.get? key = none)
    (hfit : sizeSum s.inner.entries + (estimatedSize key + estimatedSize value) ≤ USIZE_MAX) :
    (s.insert key value).1.Accounted := by
  have hne : ∀ e ∈ s.inner.entries, e.1 ≠ key := by
    intro e he hek
    have hget : s.inner.get? key = some e.2 := (get?_eq_some_iff _ _ _).mpr (hek ▸ he)
    rw [hnew] at hget
    cases hget
  have hperm := sizeSum_eq_of_perm (insertList_perm value hne)
  simp only [Accounted, estimatedHeapSize, insert, KvSize.add, insert_entries, hperm,
    sizeSum_cons] at h ⊢
  omega

attribute [local simp] KvSize.sub in
/-- `remove` of a present key takes its entry's size from both. -/
theorem accounted_remove (key : κ) : (s.remove key).Accounted := by
  unfold remove
  split
  · rename_i value hget
    have hperm := sizeSum_eq_of_perm
      (perm_cons_eraseList s.inner.sorted ((get?_eq_some_iff _ _ _).mp hget))
    simp only [Accounted, estimatedHeapSize, KvSize.sub, erase_entries] at h ⊢
    rw [h, hperm]
    simp only [sizeSum_cons]
    omega
  · exact h

theorem accounted_popFirst : s.popFirst.2.Accounted := by
  unfold popFirst
  rcases hl : s.inner.entries with _ | ⟨⟨k, v⟩, rest⟩
  · rw [popFirst_of_entries_eq_nil hl]
    exact h
  · rw [popFirst_of_entries_eq_cons hl]
    simp only [Accounted, estimatedHeapSize, KvSize.sub, tail_entries, hl] at h ⊢
    rw [h, sizeSum_cons]
    simp

theorem accounted_popLast : s.popLast.2.Accounted := by
  unfold popLast
  rcases List.eq_nil_or_concat s.inner.entries with hl | ⟨init, ⟨k, v⟩, hl⟩
  · rw [popLast_of_entries_eq_nil hl]
    exact h
  · rw [List.concat_eq_append] at hl
    rw [popLast_of_entries_eq_concat hl]
    simp only [Accounted, estimatedHeapSize, KvSize.sub, dropLast_entries, hl,
      List.dropLast_concat] at h ⊢
    rw [h]
    simp only [sizeSum_append, sizeSum_cons, sizeSum_nil]
    omega

/-- A counted operation keeps the counter. -/
theorem accounted_step {op : CacheOp κ ρ} (hop : s.Counted op) : (s.step op).Accounted := by
  cases op with
  | insert key value => exact accounted_insert h hop.1 hop.2
  | remove key => exact accounted_remove h key
  | popFirst => exact accounted_popFirst h
  | popLast => exact accounted_popLast h
  | _ => exact hop.elim

end Steps

/-- Over a counted run the counter stays the sum of the sizes of the entries. -/
theorem run_accounted {s : TopNCacheState κ ρ} (h : s.Accounted) {ops : List (CacheOp κ ρ)}
    (hops : CountedRun s ops) : (s.run ops).Accounted := by
  induction ops generalizing s with
  | nil => exact h
  | cons op ops ih => exact ih (accounted_step h hops.1) hops.2

/-! ## Where the counter drifts -/

attribute [local simp] TopNCacheOccupiedEntry.removeEntry in
/-- `remove_entry` of the last entry adds its size where it takes the entry out: the counter
ends twice the entry's size above the sum, or at `usize::MAX`. -/
theorem removeEntry_estimate {s : TopNCacheState κ ρ} (h : s.Accounted)
    {entry : TopNCacheOccupiedEntry κ ρ} (he : s.lastEntry = some entry) :
    entry.removeEntry.2.estimatedHeapSize =
      min (sizeSum entry.removeEntry.2.inner.entries +
        2 * (estimatedSize entry.key + estimatedSize entry.value)) USIZE_MAX := by
  obtain ⟨⟨k, v⟩, hlast, rfl⟩ := Option.map_eq_some_iff.mp he
  have hmem : (k, v) ∈ s.inner.entries := List.mem_of_getLast? hlast
  have hperm := sizeSum_eq_of_perm (perm_cons_eraseList s.inner.sorted hmem)
  simp only [Accounted, estimatedHeapSize] at h
  simp only [estimatedHeapSize, TopNCacheOccupiedEntry.removeEntry, KvSize.add, erase_entries]
  rw [h, hperm]
  simp only [sizeSum_cons]
  omega

omit [EstimateSize κ] [EstimateSize ρ] in
/-- `clear`, `retain` and `drain_filter` leave the counter as it was. -/
theorem estimate_clear (s : TopNCacheState κ ρ) :
    s.clear.estimatedHeapSize = s.estimatedHeapSize ∧ s.clear.inner.entries = [] :=
  ⟨rfl, rfl⟩

omit [EstimateSize κ] [EstimateSize ρ] in
theorem estimate_retain (s : TopNCacheState κ ρ) (f : κ → ρ → Bool) :
    (s.retain f).estimatedHeapSize = s.estimatedHeapSize ∧
      (s.retain f).inner.entries = s.inner.entries.filter fun e => f e.1 e.2 :=
  ⟨rfl, rfl⟩

omit [EstimateSize κ] [EstimateSize ρ] in
theorem estimate_drainFilter (s : TopNCacheState κ ρ) (pred : κ → ρ → Bool) :
    (s.drainFilter pred).2.estimatedHeapSize = s.estimatedHeapSize ∧
      (s.drainFilter pred).2.inner.entries = s.inner.entries.filter fun e => !pred e.1 e.2 :=
  ⟨rfl, rfl⟩

/-- From an empty state, one new entry of positive size, then `remove_entry` of it, `clear`,
`retain` of nothing or `drain_filter` of everything: the map ends empty and the counter does
not. -/
theorem run_insert_drifts {key : κ} {value : ρ} (hpos : 0 < estimatedSize key + estimatedSize value) :
    ∀ op ∈ [CacheOp.lastEntryRemoveEntry, .clear, .retain (fun _ _ => false),
        .drainFilter (fun _ _ => true)],
      (new.run [.insert key value, op]).estimatedHeapSize ≠
        sizeSum (new.run [.insert key value, op]).inner.entries := by
  have hmax : 0 < USIZE_MAX := by decide
  -- after the insert, the one entry and its size
  set s := (new.insert key value).1 with hs
  have hsize : s.estimatedHeapSize = min (estimatedSize key + estimatedSize value) USIZE_MAX := by
    simp [hs, insert, new, estimatedHeapSize, KvSize.add, KvSize.new]
  have hentries : s.inner.entries = [(key, value)] := rfl
  have hrun : ∀ op, new.run [.insert key value, op] = s.step op := fun _ => rfl
  intro op hop
  simp only [List.mem_cons, List.not_mem_nil, or_false] at hop
  rcases hop with rfl | rfl | rfl | rfl
  · -- `remove_entry` adds the size it should take away
    have hlast : s.lastEntry = some ⟨s.inner, key, value, s.kvHeapSize⟩ := by
      simp [lastEntry, last?_eq, hentries]
    have herase : eraseList key [(key, value)] = [] := by simp [eraseList]
    have hcount : s.kvHeapSize.size = min (estimatedSize key + estimatedSize value) USIZE_MAX := hsize
    rw [hrun, step, hlast]
    simp only [TopNCacheOccupiedEntry.removeEntry, estimatedHeapSize, KvSize.add, erase_entries,
      hentries, herase, sizeSum_nil, hcount]
    omega
  · rw [hrun, step, (estimate_clear s).1, (estimate_clear s).2, hsize, sizeSum_nil]
    omega
  · rw [hrun, step, (estimate_retain s _).1, (estimate_retain s _).2, hsize, hentries]
    simp only [List.filter_cons, List.filter_nil, Bool.false_eq_true, if_false, sizeSum_nil]
    omega
  · rw [hrun, step, (estimate_drainFilter s _).1, (estimate_drainFilter s _).2, hsize, hentries]
    simp only [List.filter_cons, List.filter_nil, Bool.not_true, Bool.false_eq_true, if_false,
      sizeSum_nil]
    omega

end TopNCacheState

/-! ## The state of the TopN executors -/

/-- `CacheKey`: `(Vec<u8>, Vec<u8>)`, compared as a pair. -/
abbrev CacheKey := List UInt8 ×ₗ List UInt8

/-- `estimated_size` of a `CacheKey`: `size_of::<(Vec<u8>, Vec<u8>)>()`, `48`, and a byte for each
element of the two vectors' capacities, here their lengths. -/
instance : EstimateSize CacheKey := ⟨fun k => 48 + (ofLex k).1.length + (ofLex k).2.length⟩

/-- `CompactedRow`: its bytes. -/
structure CompactedRow where
  row : List UInt8

/-- `estimated_size` of a `CompactedRow`: `size_of::<Bytes>()`, `32`, and its length. -/
instance : EstimateSize CompactedRow := ⟨fun r => 32 + r.row.length⟩

open TopNCacheState in
/-- Every key and row inserted into an empty state, and then taken out by
`last_entry().remove_entry()`, `clear`, `retain` of nothing or `drain_filter` of everything,
leave an estimate that is not the sum of the sizes of the entries: the map is empty and the
counter is not. -/
theorem topNCacheState_estimate_drifts (key : CacheKey) (value : CompactedRow) :
    ¬((new : TopNCacheState CacheKey CompactedRow).run
        [.insert key value, .lastEntryRemoveEntry]).Accounted ∧
      ¬((new : TopNCacheState CacheKey CompactedRow).run [.insert key value, .clear]).Accounted ∧
      ¬((new : TopNCacheState CacheKey CompactedRow).run
        [.insert key value, .retain fun _ _ => false]).Accounted ∧
      ¬((new : TopNCacheState CacheKey CompactedRow).run
        [.insert key value, .drainFilter fun _ _ => true]).Accounted := by
  have hpos : 0 < estimatedSize key + estimatedSize value :=
    Nat.add_pos_right _ (Nat.add_pos_left (by decide) _)
  have hdrift := run_insert_drifts hpos
  exact ⟨hdrift _ (by simp), hdrift _ (by simp), hdrift _ (by simp), hdrift _ (by simp)⟩

end RisingWave.Stream.CacheState
