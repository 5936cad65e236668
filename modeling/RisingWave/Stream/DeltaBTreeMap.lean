import Mathlib
import RisingWave.Storage.MemTable

/-!
# The delta map of the over-window executor

`stream/src/executor/over_window/delta_btree_map.rs`. A `DeltaBTreeMap` is a snapshot
`BTreeMap` and a delta of `Change`s over it; a `CursorWithDelta` walks the updated map,
the snapshot with each `Insert` of the delta written over it and each `Delete` removed.
Every operation runs one `BTreeMap` cursor on each map and merges what they read in
`peek_impl`.

A `BTreeMap` is a `SortedMap`. A cursor from `lower_bound(bound)` moved forward reads the
entries above `bound` in ascending order up to the ghost position (`lowerBoundWalk`), one
from `upper_bound(bound)` moved back those below `bound` in descending order
(`upperBoundWalk`), and a closure that reads a cursor and moves it is the list of what it
reads. `peek_impl` returns as soon as a closure yields `None`, so where a cursor goes
after the ghost is never read. A panic (the `unwrap` of a `Delete` as an `Insert`, a
failed `assert!`) is `none`.

When the delta deletes only keys of the snapshot, `peek_impl` yields the first entry of
the overlay of what its two cursors read (`peekImpl_spec`), and every operation is exact
on the updated map `DeltaBTreeMap.updated`.
-/

namespace RisingWave.Stream

open SortedMap Storage

/-- `Change`. -/
inductive Change (V : Type) where
  | insert (value : V)
  | delete
  deriving DecidableEq, Repr

/-- `PositionType`. -/
inductive PositionType where
  | ghost
  | snapshot
  | deltaUpdate
  | deltaInsert
  deriving DecidableEq, Repr

/-- `PeekDirection`. -/
inductive PeekDirection where
  | next
  | prev
  deriving DecidableEq, Repr

variable {K V W : Type} [LinearOrder K]

/-- `DeltaBTreeMap`. -/
structure DeltaBTreeMap (K V : Type) [LinearOrder K] where
  snapshot : SortedMap K V
  delta : SortedMap K (Change V)

/-- `CursorWithDelta`: the two maps and the entry pointed at, `none` at the ghost position. -/
structure CursorWithDelta (K V : Type) [LinearOrder K] where
  snapshot : SortedMap K V
  delta : SortedMap K (Change V)
  currKeyValue : Option (K × V)

/-- `Change::as_insert().unwrap()`. -/
def Change.asInsert : Change V → Option V
  | .insert value => some value
  | .delete => none

/-- Whether a change is a `Delete`. -/
def Change.isDelete : Change V → Bool
  | .insert _ => false
  | .delete => true

/-! ## Cursors of a `BTreeMap` -/

/-- What a cursor from `BTreeMap::lower_bound(bound)` reads moving forward, up to the ghost
position. -/
def lowerBoundWalk (m : SortedMap K W) (bound : Bound K) : List (K × W) :=
  m.entries.filter fun e => inRange (bound, .unbounded) e.1

/-- What a cursor from `BTreeMap::upper_bound(bound)` reads moving back, up to the ghost
position. -/
def upperBoundWalk (m : SortedMap K W) (bound : Bound K) : List (K × W) :=
  (m.entries.filter fun e => inRange (.unbounded, bound) e.1).reverse

/-- `if cursor.key() == Some(key) { cursor.move_next() }`, and the same with `move_prev`. -/
def skipKey (key : K) : List (K × W) → List (K × W)
  | [] => []
  | e :: rest => if e.1 = key then rest else e :: rest

/-! ## The model -/

/-- `CursorWithDelta::peek_impl`: the snapshot cursor reads `ss` and the delta cursor `dt`, both
in the direction of the walk. -/
def peekImpl (direction : PeekDirection) : List (K × V) → List (K × Change V) → Option (Option (K × V))
  | [], [] => some none
  | [], (key, change) :: _ => change.asInsert.map fun v => some (key, v)
  | (key, value) :: _, [] => some (some (key, value))
  | (ssKey, ssValue) :: ss, (dtKey, dtChange) :: dt =>
    match compare ssKey dtKey with
    | .lt =>
      if direction = .next then some (some (ssKey, ssValue))
      else dtChange.asInsert.map fun v => some (dtKey, v)
    | .gt =>
      if direction = .next then dtChange.asInsert.map fun v => some (dtKey, v)
      else some (some (ssKey, ssValue))
    | .eq =>
      match dtChange with
      | .insert v => some (some (ssKey, v))
      | .delete => peekImpl direction ss dt

namespace CursorWithDelta

/-- `CursorWithDelta::key`. -/
def key (c : CursorWithDelta K V) : Option K := c.currKeyValue.map Prod.fst

/-- `CursorWithDelta::position`. -/
def position (c : CursorWithDelta K V) : Option PositionType :=
  match c.currKeyValue with
  | none => some .ghost
  | some (key, _) =>
    match c.delta.get? key with
    | some change =>
      -- `assert!(matches!(self.delta.get(key).unwrap(), Change::Insert(_)))`
      match change with
      | .insert _ => if (c.snapshot.get? key).isSome then some .deltaUpdate else some .deltaInsert
      | .delete => none
    | none =>
      -- `assert!(self.snapshot.contains_key(key))`
      if (c.snapshot.get? key).isSome then some .snapshot else none

/-- `CursorWithDelta::peek_next`. -/
def peekNext (c : CursorWithDelta K V) : Option (Option (K × V)) :=
  match c.key with
  | some key =>
    peekImpl .next (skipKey key (lowerBoundWalk c.snapshot (.included key)))
      (skipKey key (lowerBoundWalk c.delta (.included key)))
  | none => peekImpl .next c.snapshot.entries c.delta.entries

/-- `CursorWithDelta::peek_prev`. -/
def peekPrev (c : CursorWithDelta K V) : Option (Option (K × V)) :=
  match c.key with
  | some key =>
    peekImpl .prev (skipKey key (upperBoundWalk c.snapshot (.included key)))
      (skipKey key (upperBoundWalk c.delta (.included key)))
  | none => peekImpl .prev c.snapshot.entries.reverse c.delta.entries.reverse

/-- `CursorWithDelta::move_next`. -/
def moveNext (c : CursorWithDelta K V) : Option (CursorWithDelta K V) :=
  c.peekNext.map fun kv => { c with currKeyValue := kv }

/-- `CursorWithDelta::move_prev`. -/
def movePrev (c : CursorWithDelta K V) : Option (CursorWithDelta K V) :=
  c.peekPrev.map fun kv => { c with currKeyValue := kv }

end CursorWithDelta

namespace DeltaBTreeMap

/-- The cursor over the map's snapshot and delta at `kv`. -/
def cursorAt (m : DeltaBTreeMap K V) (kv : Option (K × V)) : CursorWithDelta K V :=
  ⟨m.snapshot, m.delta, kv⟩

/-- `DeltaBTreeMap::first_key`. -/
def firstKey (m : DeltaBTreeMap K V) : Option (Option K) :=
  (m.cursorAt none).peekNext.map fun kv => kv.map Prod.fst

/-- `DeltaBTreeMap::last_key`. -/
def lastKey (m : DeltaBTreeMap K V) : Option (Option K) :=
  (m.cursorAt none).peekPrev.map fun kv => kv.map Prod.fst

/-- `DeltaBTreeMap::find`. -/
def find (m : DeltaBTreeMap K V) (key : K) : Option (CursorWithDelta K V) :=
  let ssFound : Option (CursorWithDelta K V) :=
    match (lowerBoundWalk m.snapshot (.included key)).head? with
    | some (k, v) => if k = key then some (m.cursorAt (some (k, v))) else none
    | none => none
  match (lowerBoundWalk m.delta (.included key)).head? with
  | some (k, change) =>
    if k = key then
      match change with
      | .insert v => some (m.cursorAt (some (k, v)))
      -- the key is deleted
      | .delete => none
    else ssFound
  | none => ssFound

/-- `DeltaBTreeMap::lower_bound`. -/
def lowerBound (m : DeltaBTreeMap K V) (bound : Bound K) : Option (CursorWithDelta K V) :=
  (peekImpl .next (lowerBoundWalk m.snapshot bound) (lowerBoundWalk m.delta bound)).map m.cursorAt

/-- `DeltaBTreeMap::upper_bound`. -/
def upperBound (m : DeltaBTreeMap K V) (bound : Bound K) : Option (CursorWithDelta K V) :=
  (peekImpl .prev (upperBoundWalk m.snapshot bound) (upperBoundWalk m.delta bound)).map m.cursorAt

/-- What the code assumes of a delta: it deletes only keys of the snapshot. -/
def DeletesSnapshotKeys (m : DeltaBTreeMap K V) : Prop :=
  ∀ e ∈ m.delta.entries, e.2.isDelete = true → e.1 ∈ m.snapshot.entries.map Prod.fst

instance (m : DeltaBTreeMap K V) : Decidable m.DeletesSnapshotKeys :=
  inferInstanceAs (Decidable (∀ e ∈ m.delta.entries, _))

end DeltaBTreeMap

/-! ## The updated map -/

/-- The value of a key under a change of the delta. -/
def readChange : Option (Change V) → Option V → Option V
  | none, value => value
  | some (.insert v), _ => some v
  | some .delete, _ => none

/-- A change written to a map. -/
def Change.applyTo (m : SortedMap K V) (key : K) : Change V → SortedMap K V
  | .insert v => m.insert key v
  | .delete => m.erase key

/-- The map the cursors walk: the snapshot with the delta's changes written over it. -/
def DeltaBTreeMap.updated (m : DeltaBTreeMap K V) : SortedMap K V :=
  m.delta.entries.foldl (fun acc e => e.2.applyTo acc e.1) m.snapshot

attribute [local simp] readChange in
theorem get?_applyTo (m : SortedMap K V) (key k : K) (change : Change V) :
    (change.applyTo m key).get? k = if k = key then readChange (some change) (m.get? k) else m.get? k := by
  cases change <;> simp [Change.applyTo, readChange]

theorem get?_foldl_applyTo {l : List (K × Change V)} (hl : l.Pairwise fun a b => a.1 < b.1)
    (acc : SortedMap K V) (k : K) :
    (l.foldl (fun acc e => e.2.applyTo acc e.1) acc).get? k = readChange (getList k l) (acc.get? k) := by
  induction l generalizing acc with
  | nil => rfl
  | cons e l ih =>
    rw [List.pairwise_cons] at hl
    rw [List.foldl_cons, ih hl.2, get?_applyTo, getList_cons]
    by_cases he : e.1 = k
    · -- `k` is not in the rest of the delta, whose keys are above `e.1`
      have hnone : getList k l = none := getList_of_forall_lt fun e' he' => he ▸ hl.1 e' he'
      simp [he, hnone, readChange]
    · simp [he, Ne.symm he]

/-- Each key of the updated map reads through the delta to the snapshot. -/
theorem get?_updated (m : DeltaBTreeMap K V) (k : K) :
    m.updated.get? k = readChange (m.delta.get? k) (m.snapshot.get? k) :=
  get?_foldl_applyTo m.delta.sorted m.snapshot k

/-! ## `peek_impl` -/

/-- The order in which a walk in `direction` reads keys. -/
def PeekDirection.before : PeekDirection → K → K → Prop
  | .next, a, b => a < b
  | .prev, a, b => b < a

namespace PeekDirection

variable (direction : PeekDirection) {a b c : K}

theorem before_irrefl (a : K) : ¬direction.before a a := by
  cases direction <;> exact lt_irrefl a

theorem before_asymm (h : direction.before a b) : ¬direction.before b a := by
  cases direction <;> exact lt_asymm h

theorem before_trans (hab : direction.before a b) (hbc : direction.before b c) :
    direction.before a c := by
  cases direction
  · exact lt_trans hab hbc
  · exact lt_trans hbc hab

theorem before_trichotomy (a b : K) : direction.before a b ∨ a = b ∨ direction.before b a := by
  cases direction
  · exact lt_trichotomy a b
  · rcases lt_trichotomy a b with h | h | h
    · exact .inr (.inr h)
    · exact .inr (.inl h)
    · exact .inl h

end PeekDirection

variable {direction : PeekDirection}

/-- A key before the head of a sorted walk is not in it. -/
theorem getList_eq_none_of_before {k k' : K} {x : W} {l : List (K × W)}
    (hl : ((k, x) :: l).Pairwise fun a b => direction.before a.1 b.1) (h : direction.before k' k) :
    getList k' ((k, x) :: l) = none := by
  by_contra hne
  by_cases hk : k' = k
  · exact direction.before_irrefl k (hk ▸ h)
  · exact direction.before_asymm h ((isFirstEntry_head? hl).2 k' hne hk)

/-- The head's key is not in the rest of a sorted walk. -/
theorem getList_tail_eq_none {k : K} {x : W} {l : List (K × W)}
    (hl : ((k, x) :: l).Pairwise fun a b => direction.before a.1 b.1) : getList k l = none :=
  getList_eq_none fun e he heq => direction.before_irrefl k (heq ▸ (List.pairwise_cons.mp hl).1 e he)

theorem readChange_ne_none {c : Option (Change V)} {s : Option V} (h : readChange c s ≠ none) :
    c ≠ none ∨ s ≠ none := by
  rcases c with _ | _ | _ <;> simp_all [readChange]

attribute [local simp] peekImpl in
theorem peekImpl_of_before {ssKey dtKey : K} (h : direction.before ssKey dtKey) (ssValue : V)
    (dtChange : Change V) (ss : List (K × V)) (dt : List (K × Change V)) :
    peekImpl direction ((ssKey, ssValue) :: ss) ((dtKey, dtChange) :: dt) =
      some (some (ssKey, ssValue)) := by
  cases direction
  · simp [peekImpl, compare_lt_iff_lt.mpr (show ssKey < dtKey from h)]
  · simp [peekImpl, compare_gt_iff_gt.mpr (show dtKey < ssKey from h)]

theorem peekImpl_of_after {ssKey dtKey : K} (h : direction.before dtKey ssKey) (ssValue : V)
    (dtChange : Change V) (ss : List (K × V)) (dt : List (K × Change V)) :
    peekImpl direction ((ssKey, ssValue) :: ss) ((dtKey, dtChange) :: dt) =
      dtChange.asInsert.map fun v => some (dtKey, v) := by
  cases direction
  · simp [peekImpl, compare_gt_iff_gt.mpr (show dtKey < ssKey from h)]
  · simp [peekImpl, compare_lt_iff_lt.mpr (show ssKey < dtKey from h)]

theorem peekImpl_same_key (key : K) (ssValue : V) (dtChange : Change V) (ss : List (K × V))
    (dt : List (K × Change V)) :
    peekImpl direction ((key, ssValue) :: ss) ((key, dtChange) :: dt) =
      match dtChange with
      | .insert v => some (some (key, v))
      | .delete => peekImpl direction ss dt := by
  simp [peekImpl]

/-- `peek_impl` over two sorted walks, the delta deleting only keys of the snapshot walk,
does not panic and yields the first entry of the delta written over the snapshot. -/
theorem peekImpl_spec (direction : PeekDirection) {ss : List (K × V)} {dt : List (K × Change V)}
    (hss : ss.Pairwise fun a b => direction.before a.1 b.1)
    (hdt : dt.Pairwise fun a b => direction.before a.1 b.1)
    (hdel : ∀ k, getList k dt = some .delete → getList k ss ≠ none) :
    ∃ o, peekImpl direction ss dt = some o ∧
      IsFirstEntry direction.before (fun k => readChange (getList k dt) (getList k ss)) o := by
  induction ss generalizing dt with
  | nil =>
    cases dt with
    | nil => exact ⟨none, rfl, fun k => rfl⟩
    | cons e dt =>
      obtain ⟨dk, dc⟩ := e
      -- a delete would be of a snapshot key, and the snapshot walk is empty
      obtain ⟨v, rfl⟩ : ∃ v, dc = .insert v := by
        cases dc with
        | insert v => exact ⟨v, rfl⟩
        | delete => exact absurd (hdel dk (getList_cons_self dk _ dt)) (by simp)
      refine ⟨some (dk, v), rfl, by simp [readChange], fun k' hk' hne => ?_⟩
      have hdt' : getList k' ((dk, Change.insert v) :: dt) ≠ none := by
        simpa using (readChange_ne_none hk').resolve_right (by simp)
      exact (isFirstEntry_head? hdt).2 k' hdt' hne
  | cons s ss ih =>
    obtain ⟨sk, sv⟩ := s
    cases dt with
    | nil =>
      refine ⟨some (sk, sv), rfl, by simp [readChange], fun k' hk' hne => ?_⟩
      have hss' : getList k' ((sk, sv) :: ss) ≠ none := by
        simpa using (readChange_ne_none hk').resolve_left (by simp)
      exact (isFirstEntry_head? hss).2 k' hss' hne
    | cons e dt =>
      obtain ⟨dk, dc⟩ := e
      rcases direction.before_trichotomy sk dk with hlt | heq | hgt
      · -- the snapshot's key comes first, and is not in the delta
        refine ⟨some (sk, sv), peekImpl_of_before hlt sv dc ss dt, ?_, fun k' hk' hne => ?_⟩
        · simp [getList_eq_none_of_before hdt hlt, readChange]
        · rcases readChange_ne_none hk' with hd | hs
          · rcases eq_or_ne k' dk with rfl | hk
            · exact hlt
            · exact direction.before_trans hlt ((isFirstEntry_head? hdt).2 k' hd hk)
          · exact (isFirstEntry_head? hss).2 k' hs hne
      · subst heq
        cases dc with
        | insert v =>
          refine ⟨some (sk, v), by rw [peekImpl_same_key], by simp [readChange],
            fun k' hk' hne => ?_⟩
          rcases readChange_ne_none hk' with hd | hs
          · exact (isFirstEntry_head? hdt).2 k' hd hne
          · exact (isFirstEntry_head? hss).2 k' hs hne
        | delete =>
          -- both cursors move past the deleted key, which leaves the overlay as it is
          have hdel' : ∀ k, getList k dt = some .delete → getList k ss ≠ none := by
            intro k hk
            have hne : sk ≠ k := by
              rintro rfl
              rw [getList_tail_eq_none hdt] at hk
              cases hk
            have hss' := hdel k (by rwa [getList_cons, if_neg hne])
            rwa [getList_cons, if_neg hne] at hss'
          obtain ⟨o, ho, hfirst⟩ := ih hss.of_cons hdt.of_cons hdel'
          refine ⟨o, by rw [peekImpl_same_key]; exact ho, ?_⟩
          have hf : (fun k => readChange (getList k ((sk, .delete) :: dt)) (getList k ((sk, sv) :: ss)))
              = fun k => readChange (getList k dt) (getList k ss) := by
            funext k
            by_cases hk : sk = k
            · subst hk
              rw [getList_tail_eq_none hdt, getList_tail_eq_none hss]
              simp [readChange]
            · simp [getList_cons, hk]
          rw [hf]
          exact hfirst
      · cases dc with
        | insert v =>
          refine ⟨some (dk, v), peekImpl_of_after hgt sv _ ss dt, by simp [readChange],
            fun k' hk' hne => ?_⟩
          rcases readChange_ne_none hk' with hd | hs
          · exact (isFirstEntry_head? hdt).2 k' hd hne
          · rcases eq_or_ne k' sk with rfl | hk
            · exact hgt
            · exact direction.before_trans hgt ((isFirstEntry_head? hss).2 k' hs hk)
        | delete =>
          -- a deleted key is a key of the snapshot walk, which starts after it
          exact absurd (getList_eq_none_of_before hss hgt) (hdel dk (getList_cons_self dk _ dt))

/-- `peek_impl` yields the head of any sorted list that reads like the overlay of its walks. -/
theorem peekImpl_eq_head? {ss : List (K × V)} {dt : List (K × Change V)} {L : List (K × V)}
    (hss : ss.Pairwise fun a b => direction.before a.1 b.1)
    (hdt : dt.Pairwise fun a b => direction.before a.1 b.1)
    (hL : L.Pairwise fun a b => direction.before a.1 b.1)
    (hdel : ∀ k, getList k dt = some .delete → getList k ss ≠ none)
    (hread : ∀ k, readChange (getList k dt) (getList k ss) = getList k L) :
    peekImpl direction ss dt = some L.head? := by
  obtain ⟨o, ho, hfirst⟩ := peekImpl_spec direction hss hdt hdel
  simp only [hread] at hfirst
  rw [ho, hfirst.eq_head? (fun a b => direction.before_asymm) hL]

/-! ## The cursors' walks -/

section Walks

variable (m : SortedMap K W)

theorem lowerBoundWalk_sorted (bound : Bound K) :
    (lowerBoundWalk m bound).Pairwise fun a b => PeekDirection.next.before a.1 b.1 :=
  m.sorted.sublist List.filter_sublist

theorem upperBoundWalk_sorted (bound : Bound K) :
    (upperBoundWalk m bound).Pairwise fun a b => PeekDirection.prev.before a.1 b.1 :=
  List.pairwise_reverse.mpr (m.sorted.sublist List.filter_sublist)

theorem getList_lowerBoundWalk (bound : Bound K) (k : K) :
    getList k (lowerBoundWalk m bound) =
      if inRange (bound, .unbounded) k = true then m.get? k else none :=
  getList_filter _ k m.entries

attribute [local simp] upperBoundWalk in
theorem getList_upperBoundWalk (bound : Bound K) (k : K) :
    getList k (upperBoundWalk m bound) =
      if inRange (.unbounded, bound) k = true then m.get? k else none := by
  rw [upperBoundWalk, getList_reverse ((m.sorted.sublist List.filter_sublist).imp ne_of_lt)]
  exact getList_filter _ k m.entries

attribute [local simp] skipKey in
theorem skipKey_sublist (key : K) (l : List (K × W)) : (skipKey key l).Sublist l := by
  cases l with
  | nil => exact List.Sublist.slnil
  | cons e l =>
    simp only [skipKey]
    split_ifs
    · exact List.sublist_cons_self e l
    · exact List.Sublist.refl _

/-- Moving a cursor past `key` drops `key` from what it reads, when it reads nothing before
`key`. -/
theorem getList_skipKey {key : K} {l : List (K × W)}
    (hl : l.Pairwise fun a b => direction.before a.1 b.1)
    (hkey : ∀ e ∈ l, e.1 = key ∨ direction.before key e.1) (k : K) :
    getList k (skipKey key l) = if k = key then none else getList k l := by
  cases l with
  | nil => simp [skipKey]
  | cons e l =>
    obtain ⟨k₀, x⟩ := e
    by_cases he : k₀ = key
    · subst he
      by_cases hk : k = k₀
      · subst hk
        simp [skipKey, getList_tail_eq_none hl]
      · simp [skipKey, hk, getList_cons_of_ne (show (k₀, x).1 ≠ k from Ne.symm hk)]
    · have hbefore : direction.before key k₀ := (hkey _ List.mem_cons_self).resolve_left he
      by_cases hk : k = key
      · subst hk
        simp [skipKey, he, getList_eq_none_of_before hl hbefore]
      · simp [skipKey, he, hk]

attribute [local simp] inRange in
theorem getList_skipKey_lowerBoundWalk (key k : K) :
    getList k (skipKey key (lowerBoundWalk m (.included key))) =
      if key < k then m.get? k else none := by
  rw [getList_skipKey (lowerBoundWalk_sorted m _) (fun e he => ?_) k, getList_lowerBoundWalk]
  · by_cases hk : k = key
    · simp [hk]
    · simp [inRange, hk, lt_iff_le_and_ne, Ne.symm hk]
  · have hle : key ≤ e.1 := by simpa [inRange] using (List.mem_filter.mp he).2
    exact (eq_or_lt_of_le hle).imp Eq.symm id

theorem getList_skipKey_upperBoundWalk (key k : K) :
    getList k (skipKey key (upperBoundWalk m (.included key))) =
      if k < key then m.get? k else none := by
  rw [getList_skipKey (upperBoundWalk_sorted m _) (fun e he => ?_) k, getList_upperBoundWalk]
  · by_cases hk : k = key
    · simp [hk]
    · simp [inRange, hk, lt_iff_le_and_ne]
  · have hle : e.1 ≤ key := by
      simpa [inRange] using (List.mem_filter.mp (List.mem_reverse.mp he)).2
    exact eq_or_lt_of_le hle

end Walks

/-- A cursor from `lower_bound(Included(key))` is on `key` just when the map has it. -/
theorem get?_of_lowerBoundWalk_eq_cons {M : SortedMap K W} {key k : K} {x : W} {rest : List (K × W)}
    (h : lowerBoundWalk M (.included key) = (k, x) :: rest) :
    M.get? key = if k = key then some x else none := by
  have hget := getList_lowerBoundWalk M (.included key) key
  simp only [inRange, le_refl, decide_true, Bool.and_self, if_true, h] at hget
  rw [← hget, getList_cons]
  split_ifs with hk
  · rfl
  · -- the walk starts above `key`
    have hmem : (k, x) ∈ lowerBoundWalk M (.included key) := h ▸ List.mem_cons_self
    have hle : key ≤ k := by simpa [inRange] using (List.mem_filter.mp hmem).2
    have hlt : PeekDirection.next.before key k := lt_of_le_of_ne hle (Ne.symm hk)
    have hnone := getList_eq_none_of_before (h ▸ lowerBoundWalk_sorted M _) hlt
    rwa [getList_cons_of_ne hk] at hnone

theorem get?_of_lowerBoundWalk_eq_nil {M : SortedMap K W} {key : K}
    (h : lowerBoundWalk M (.included key) = []) : M.get? key = none := by
  have hget := getList_lowerBoundWalk M (.included key) key
  simpa [inRange, h] using hget.symm

/-! ## The operations on the updated map -/

namespace DeltaBTreeMap

variable {m : DeltaBTreeMap K V}

theorem DeletesSnapshotKeys.get?_ne_none (h : m.DeletesSnapshotKeys) {k : K}
    (hk : m.delta.get? k = some .delete) : m.snapshot.get? k ≠ none := by
  obtain ⟨⟨k', v⟩, hm, hk'⟩ := List.mem_map.mp (h _ (mem_of_getList_eq_some hk) rfl)
  simp only at hk'
  subst hk'
  rw [(get?_eq_some_iff _ _ _).mpr hm]
  simp

/-- Walks that read the snapshot and the delta on the keys `p` holds of merge into the updated
map on those keys. -/
theorem peekImpl_walks (h : m.DeletesSnapshotKeys) (p : K → Prop) [DecidablePred p]
    {ss : List (K × V)} {dt : List (K × Change V)} {L : List (K × V)}
    (hss : ss.Pairwise fun a b => direction.before a.1 b.1)
    (hdt : dt.Pairwise fun a b => direction.before a.1 b.1)
    (hL : L.Pairwise fun a b => direction.before a.1 b.1)
    (hssp : ∀ k, getList k ss = if p k then m.snapshot.get? k else none)
    (hdtp : ∀ k, getList k dt = if p k then m.delta.get? k else none)
    (hLp : ∀ k, getList k L = if p k then m.updated.get? k else none) :
    peekImpl direction ss dt = some L.head? := by
  refine peekImpl_eq_head? hss hdt hL (fun k hk => ?_) (fun k => ?_)
  · rw [hdtp] at hk
    split_ifs at hk with hp
    rw [hssp, if_pos hp]
    exact h.get?_ne_none hk
  · rw [hssp, hdtp, hLp, get?_updated]
    split_ifs <;> rfl

theorem peekNext_ghost (h : m.DeletesSnapshotKeys) :
    (m.cursorAt none).peekNext = some m.updated.entries.head? :=
  peekImpl_walks h (fun _ => True) m.snapshot.sorted m.delta.sorted m.updated.sorted
    (fun _ => (if_pos trivial).symm) (fun _ => (if_pos trivial).symm) (fun _ => (if_pos trivial).symm)

theorem peekPrev_ghost (h : m.DeletesSnapshotKeys) :
    (m.cursorAt none).peekPrev = some m.updated.entries.getLast? := by
  have hrev : ∀ {W : Type} (M : SortedMap K W) (k : K),
      getList k M.entries.reverse = if True then M.get? k else none := fun M k => by
    rw [if_pos trivial, getList_reverse (M.sorted.imp ne_of_lt)]
    rfl
  rw [← List.head?_reverse]
  exact peekImpl_walks h (fun _ => True) (List.pairwise_reverse.mpr m.snapshot.sorted)
    (List.pairwise_reverse.mpr m.delta.sorted) (List.pairwise_reverse.mpr m.updated.sorted)
    (hrev _) (hrev _) (hrev _)

theorem lowerBound_eq (h : m.DeletesSnapshotKeys) (bound : Bound K) :
    m.lowerBound bound = some (m.cursorAt (lowerBoundWalk m.updated bound).head?) := by
  rw [lowerBound, peekImpl_walks h (fun k => inRange (bound, .unbounded) k = true)
    (lowerBoundWalk_sorted _ _) (lowerBoundWalk_sorted _ _) (lowerBoundWalk_sorted _ _)
    (getList_lowerBoundWalk _ _) (getList_lowerBoundWalk _ _) (getList_lowerBoundWalk _ _)]
  rfl

theorem upperBound_eq (h : m.DeletesSnapshotKeys) (bound : Bound K) :
    m.upperBound bound = some (m.cursorAt (upperBoundWalk m.updated bound).head?) := by
  rw [upperBound, peekImpl_walks h (fun k => inRange (.unbounded, bound) k = true)
    (upperBoundWalk_sorted _ _) (upperBoundWalk_sorted _ _) (upperBoundWalk_sorted _ _)
    (getList_upperBoundWalk _ _) (getList_upperBoundWalk _ _) (getList_upperBoundWalk _ _)]
  rfl

theorem peekNext_cursorAt (h : m.DeletesSnapshotKeys) (k : K) (v : V) :
    (m.cursorAt (some (k, v))).peekNext =
      some (skipKey k (lowerBoundWalk m.updated (.included k))).head? :=
  peekImpl_walks h (fun k' => k < k')
    ((lowerBoundWalk_sorted _ _).sublist (skipKey_sublist _ _))
    ((lowerBoundWalk_sorted _ _).sublist (skipKey_sublist _ _))
    ((lowerBoundWalk_sorted _ _).sublist (skipKey_sublist _ _))
    (getList_skipKey_lowerBoundWalk _ k) (getList_skipKey_lowerBoundWalk _ k)
    (getList_skipKey_lowerBoundWalk _ k)

theorem peekPrev_cursorAt (h : m.DeletesSnapshotKeys) (k : K) (v : V) :
    (m.cursorAt (some (k, v))).peekPrev =
      some (skipKey k (upperBoundWalk m.updated (.included k))).head? :=
  peekImpl_walks h (fun k' => k' < k)
    ((upperBoundWalk_sorted _ _).sublist (skipKey_sublist _ _))
    ((upperBoundWalk_sorted _ _).sublist (skipKey_sublist _ _))
    ((upperBoundWalk_sorted _ _).sublist (skipKey_sublist _ _))
    (getList_skipKey_upperBoundWalk _ k) (getList_skipKey_upperBoundWalk _ k)
    (getList_skipKey_upperBoundWalk _ k)

end DeltaBTreeMap

/-! ## Around an entry of the updated map -/

/-- From the `i`-th entry, a forward walk past its key reads from the `i + 1`-th on. -/
theorem skipKey_lowerBoundWalk_of_getElem? (M : SortedMap K W) {i : ℕ} {e : K × W}
    (he : M.entries[i]? = some e) :
    skipKey e.1 (lowerBoundWalk M (.included e.1)) = M.entries.drop (i + 1) := by
  have hwalk : lowerBoundWalk M (.included e.1) = M.entries.drop i := by
    rw [← filter_le_eq_drop M.sorted he, lowerBoundWalk]
    exact List.filter_congr fun x _ => by simp [inRange]
  have hi : i < M.entries.length := (List.getElem?_eq_some_iff.mp he).1
  have hcons : M.entries.drop i = e :: M.entries.drop (i + 1) := by
    rw [List.drop_eq_getElem_cons hi, (List.getElem?_eq_some_iff.mp he).2]
  rw [hwalk, hcons]
  simp [skipKey]

/-- From the `i`-th entry, a backward walk past its key reads the first `i` entries back. -/
theorem skipKey_upperBoundWalk_of_getElem? (M : SortedMap K W) {i : ℕ} {e : K × W}
    (he : M.entries[i]? = some e) :
    skipKey e.1 (upperBoundWalk M (.included e.1)) = (M.entries.take i).reverse := by
  have hwalk : upperBoundWalk M (.included e.1) = (M.entries.take (i + 1)).reverse := by
    rw [← filter_ge_eq_take M.sorted he, upperBoundWalk]
    exact congrArg List.reverse (List.filter_congr fun x _ => by simp [inRange])
  rw [hwalk, List.take_add_one, he]
  simp [skipKey]

/-- Stepping back from index `i` of `n + 1` positions in a cycle. -/
theorem add_mod_succ_of_le {i n : ℕ} (hi : i ≤ n) : (i + n) % (n + 1) = if i = 0 then n else i - 1 := by
  cases i with
  | zero => simp
  | succ j =>
    have hj : j < n + 1 := by omega
    rw [if_neg (Nat.succ_ne_zero j), show j + 1 + n = j + (n + 1) by omega, Nat.add_mod_right,
      Nat.mod_eq_of_lt hj]
    rfl

namespace DeltaBTreeMap

variable {m : DeltaBTreeMap K V}

/-- `move_next` steps through the updated map as a cycle of its entries and the ghost
position, which is index `n`. -/
theorem peekNext_cycle (h : m.DeletesSnapshotKeys) {i : ℕ} (hi : i ≤ m.updated.entries.length) :
    (m.cursorAt m.updated.entries[i]?).peekNext =
      some m.updated.entries[(i + 1) % (m.updated.entries.length + 1)]? := by
  rcases lt_or_eq_of_le hi with hlt | rfl
  · obtain ⟨⟨k, v⟩, he⟩ : ∃ e, m.updated.entries[i]? = some e := ⟨_, List.getElem?_eq_getElem hlt⟩
    rw [he, peekNext_cursorAt h, skipKey_lowerBoundWalk_of_getElem? _ he, List.head?_drop,
      Nat.mod_eq_of_lt (by omega)]
  · rw [List.getElem?_eq_none le_rfl, peekNext_ghost h, Nat.mod_self, List.head?_eq_getElem?]

theorem peekPrev_cycle (h : m.DeletesSnapshotKeys) {i : ℕ} (hi : i ≤ m.updated.entries.length) :
    (m.cursorAt m.updated.entries[i]?).peekPrev =
      some m.updated.entries[(i + m.updated.entries.length) % (m.updated.entries.length + 1)]? := by
  rw [add_mod_succ_of_le hi]
  rcases lt_or_eq_of_le hi with hlt | rfl
  · obtain ⟨⟨k, v⟩, he⟩ : ∃ e, m.updated.entries[i]? = some e := ⟨_, List.getElem?_eq_getElem hlt⟩
    rw [he, peekPrev_cursorAt h, skipKey_upperBoundWalk_of_getElem? _ he, List.head?_reverse,
      List.getLast?_take]
    split_ifs with hi0
    · rw [List.getElem?_eq_none le_rfl]
    · rw [List.getElem?_eq_getElem (by omega : i - 1 < m.updated.entries.length)]
      rfl
  · rw [List.getElem?_eq_none le_rfl, peekPrev_ghost h, List.getLast?_eq_getElem?]
    split_ifs with hn
    · rw [hn]
    · rfl

/-- A cursor on an entry of the updated map is classed by where its key is. -/
theorem position_cursorAt {k : K} {v : V} (hkv : (k, v) ∈ m.updated.entries) :
    (m.cursorAt (some (k, v))).position =
      some (if (m.delta.get? k).isSome then
        (if (m.snapshot.get? k).isSome then .deltaUpdate else .deltaInsert) else .snapshot) := by
  have hread : readChange (m.delta.get? k) (m.snapshot.get? k) = some v := by
    rw [← get?_updated, get?_eq_some_iff]
    exact hkv
  simp only [CursorWithDelta.position, cursorAt]
  rcases hd : m.delta.get? k with _ | _ | _
  · simp_all [readChange]
  · simp only [Option.isSome_some, if_true]
    exact (apply_ite some _ _ _).symm
  · simp [hd, readChange] at hread

/-- `find` is on the key's entry of the updated map, and `None` when there is none. -/
theorem find_eq (m : DeltaBTreeMap K V) (key : K) :
    m.find key = (m.updated.get? key).map fun v => m.cursorAt (some (key, v)) := by
  have hss : (match (lowerBoundWalk m.snapshot (.included key)).head? with
      | some (k, v) => if k = key then some (m.cursorAt (some (k, v))) else none
      | none => none) = (m.snapshot.get? key).map fun v => m.cursorAt (some (key, v)) := by
    rcases hw : lowerBoundWalk m.snapshot (.included key) with _ | ⟨⟨k, v⟩, rest⟩
    · simp [get?_of_lowerBoundWalk_eq_nil hw]
    · rw [get?_of_lowerBoundWalk_eq_cons hw]
      by_cases hk : k = key
      · subst hk
        simp
      · simp [hk]
  simp only [find]
  rw [hss, get?_updated]
  rcases hw : lowerBoundWalk m.delta (.included key) with _ | ⟨⟨k, c⟩, rest⟩
  · simp [get?_of_lowerBoundWalk_eq_nil hw, readChange]
  · rw [get?_of_lowerBoundWalk_eq_cons hw]
    by_cases hk : k = key
    · subst hk
      cases c <;> simp [readChange]
    · simp [hk, readChange]

/-- The cursors of `m` navigate the updated map `M` exactly, with no panic: `first_key` and
`last_key` are its least and greatest keys, `find` is on the key's entry, `lower_bound` and
`upper_bound` on the least and greatest entry within the bound (the ghost position if none),
`position` classes an entry by where its key is, and the peeks and moves go round the entries
of `M` in key order and the ghost position, which is index `n`. -/
structure NavigatesUpdated (m : DeltaBTreeMap K V) : Prop where
  firstKey_eq : m.firstKey = some (m.updated.entries.head?.map Prod.fst)
  lastKey_eq : m.lastKey = some (m.updated.entries.getLast?.map Prod.fst)
  find_eq : ∀ key, m.find key = (m.updated.get? key).map fun v => m.cursorAt (some (key, v))
  lowerBound_eq : ∀ bound, m.lowerBound bound =
    some (m.cursorAt (m.updated.entries.filter fun e => inRange (bound, .unbounded) e.1).head?)
  upperBound_eq : ∀ bound, m.upperBound bound =
    some (m.cursorAt (m.updated.entries.filter fun e => inRange (.unbounded, bound) e.1).getLast?)
  position_ghost : (m.cursorAt none).position = some .ghost
  position_entry : ∀ k v, (k, v) ∈ m.updated.entries →
    (m.cursorAt (some (k, v))).position =
      some (if (m.delta.get? k).isSome then
        (if (m.snapshot.get? k).isSome then .deltaUpdate else .deltaInsert) else .snapshot)
  peekNext_eq : ∀ i ≤ m.updated.entries.length,
    (m.cursorAt m.updated.entries[i]?).peekNext =
      some m.updated.entries[(i + 1) % (m.updated.entries.length + 1)]?
  peekPrev_eq : ∀ i ≤ m.updated.entries.length,
    (m.cursorAt m.updated.entries[i]?).peekPrev =
      some m.updated.entries[(i + m.updated.entries.length) % (m.updated.entries.length + 1)]?
  moveNext_eq : ∀ i ≤ m.updated.entries.length,
    (m.cursorAt m.updated.entries[i]?).moveNext =
      some (m.cursorAt m.updated.entries[(i + 1) % (m.updated.entries.length + 1)]?)
  movePrev_eq : ∀ i ≤ m.updated.entries.length,
    (m.cursorAt m.updated.entries[i]?).movePrev =
      some (m.cursorAt
        m.updated.entries[(i + m.updated.entries.length) % (m.updated.entries.length + 1)]?)

/-- Over a delta that deletes only keys of the snapshot, `DeltaBTreeMap` navigates the
snapshot with the delta written over it. -/
theorem deltaBTreeMap_navigates_updated (m : DeltaBTreeMap K V) (h : m.DeletesSnapshotKeys) :
    m.NavigatesUpdated where
  firstKey_eq := by simp [firstKey, peekNext_ghost h]
  lastKey_eq := by simp [lastKey, peekPrev_ghost h]
  find_eq := find_eq m
  lowerBound_eq bound := lowerBound_eq h bound
  upperBound_eq bound := by rw [upperBound_eq h bound, upperBoundWalk, List.head?_reverse]
  position_ghost := rfl
  position_entry _ _ hkv := position_cursorAt hkv
  peekNext_eq _ hi := peekNext_cycle h hi
  peekPrev_eq _ hi := peekPrev_cycle h hi
  moveNext_eq _ hi := by rw [CursorWithDelta.moveNext, peekNext_cycle h hi]; rfl
  movePrev_eq _ hi := by rw [CursorWithDelta.movePrev, peekPrev_cycle h hi]; rfl

/-- A snapshot of three rows, and a delta that deletes the second, inserts a new key and
updates the third. -/
def sampleDelta : DeltaBTreeMap ℕ ℕ :=
  ⟨⟨[(1, 10), (2, 20), (4, 40)], by decide⟩,
    ⟨[(2, .delete), (3, .insert 30), (4, .insert 44)], by decide⟩⟩

example : sampleDelta.updated.entries = [(1, 10), (3, 30), (4, 44)] := rfl

theorem deltaBTreeMap_navigates_sample : sampleDelta.DeletesSnapshotKeys ∧ sampleDelta.NavigatesUpdated :=
  ⟨by decide, deltaBTreeMap_navigates_updated sampleDelta (by decide)⟩

end DeltaBTreeMap

end RisingWave.Stream
