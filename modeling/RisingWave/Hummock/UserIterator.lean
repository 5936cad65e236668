import Mathlib
import RisingWave.Hummock.Tombstone
import RisingWave.Lib.Cursor
import RisingWave.Storage.MemTable

/-!
# The forward user iterator

`iterator/forward_user.rs` and `iterator/delete_range_iterator.rs`. A `UserIterator`
reads the newest visible version of each user key from a stream of full keys (user key
ascending, epoch descending), between `min_epoch` and `read_epoch`, and drops a `Put`
covered by a range tombstone. The tombstones come from a `ForwardMergeRangeIterator`,
which merges the monotonic delete events of every source and keeps the set of epochs of
the tombstones active at its position.

The inner iterator is a `Cursor` over the entries; statistics are not modelled.
-/

namespace RisingWave.Hummock

open RisingWave.Storage (Bound)

/-- `HummockValue`: a put of a value, or a point delete. -/
inductive HummockValue (V : Type) where
  | put (value : V)
  | delete
  deriving DecidableEq, Repr

/-! ## The range tombstones of one source -/

/-- `SstableDeleteRangeIterator`: the monotonic delete events of a table, and the index of
the next one. -/
structure SstableDeleteRangeIterator where
  events : List MonotonicDeleteEvent
  nextIdx : ℕ
  deriving DecidableEq

namespace SstableDeleteRangeIterator

variable (it : SstableDeleteRangeIterator)

def isValid : Bool := it.nextIdx < it.events.length

/-- The key at which the epoch changes next; `none` past the last event. -/
def nextExtendedUserKey : Option PointRange := it.events[it.nextIdx]?.map (·.eventKey)

/-- The epoch of the tombstone over the current position; `MAX` before the first event. -/
def currentEpoch : HummockEpoch :=
  if it.nextIdx > 0 then (it.events[it.nextIdx - 1]?.map (·.newEpoch)).getD HummockEpoch.MAX
  else HummockEpoch.MAX

def next : SstableDeleteRangeIterator := { it with nextIdx := it.nextIdx + 1 }

def rewind : SstableDeleteRangeIterator := { it with nextIdx := 0 }

/-- To the first event above the user key. -/
def seek (targetUserKey : UserKey) : SstableDeleteRangeIterator :=
  { it with nextIdx := it.events.partitionPoint fun e =>
      decide (e.eventKey ≤ PointRange.fromUserKey targetUserKey false) }

end SstableDeleteRangeIterator

/-! ## Merging the sources -/

/-- The epochs of the active tombstones, a `BTreeSet`: a list without repeats. -/
def epochSetInsert (s : List HummockEpoch) (e : HummockEpoch) : List HummockEpoch :=
  if e ∈ s then s else e :: s

/-- The set with an epoch taken out. -/
def epochSetRemove (s : List HummockEpoch) (e : HummockEpoch) : List HummockEpoch :=
  s.filter (· ≠ e)

/-- The epoch a source adds to the set: none for `MAX`. -/
def addEpoch (s : List HummockEpoch) (node : SstableDeleteRangeIterator) : List HummockEpoch :=
  if node.currentEpoch ≠ HummockEpoch.MAX then epochSetInsert s node.currentEpoch else s

/-- `ForwardMergeRangeIterator`: the heap of valid sources, ordered by their next key, the
sources run out, and the epochs of the tombstones active at the position. -/
structure ForwardMergeRangeIterator where
  heap : List SstableDeleteRangeIterator
  unusedIters : List SstableDeleteRangeIterator
  readEpoch : HummockEpoch
  currentEpochs : List HummockEpoch

namespace ForwardMergeRangeIterator

/-- `ForwardMergeRangeIterator::new` with the sources added. -/
def new (readEpoch : HummockEpoch) (sources : List SstableDeleteRangeIterator) :
    ForwardMergeRangeIterator :=
  ⟨[], sources, readEpoch, []⟩

variable (m : ForwardMergeRangeIterator)

/-- The top of the heap: the source with the least next key. -/
def peek : Option SstableDeleteRangeIterator :=
  m.heap.argmin fun n => (n.nextExtendedUserKey.map WithTop.some).getD ⊤

def isValid : Bool := (m.peek.map SstableDeleteRangeIterator.isValid).getD false

/-- The greatest active epoch up to the read epoch, `MIN` when there is none. -/
def currentEpoch : HummockEpoch :=
  ((m.currentEpochs.filter (· ≤ m.readEpoch)).max?).getD HummockEpoch.MIN

/-- `next`: every source at the least next key takes its step; their epochs are taken out
of the set and the new ones put in. `none` is the `expect` of an empty heap. -/
def next : Option ForwardMergeRangeIterator :=
  m.peek.map fun top =>
    let popped := m.heap.filter (·.nextExtendedUserKey = top.nextExtendedUserKey)
    let epochs := popped.foldl (fun s n =>
      if n.currentEpoch ≠ HummockEpoch.MAX then epochSetRemove s n.currentEpoch else s)
      m.currentEpochs
    let advanced := popped.map SstableDeleteRangeIterator.next
    { m with
      heap := m.heap.filter (·.nextExtendedUserKey ≠ top.nextExtendedUserKey) ++
        advanced.filter (·.isValid)
      unusedIters := m.unusedIters ++ advanced.filter (!·.isValid)
      currentEpochs := (advanced.filter (·.isValid)).foldl addEpoch epochs }

/-- Every source back to its first event; a source with none is dropped. -/
def rewind : ForwardMergeRangeIterator :=
  let nodes := (m.unusedIters ++ m.heap).map SstableDeleteRangeIterator.rewind
  { m with
    heap := nodes.filter (·.isValid)
    unusedIters := []
    currentEpochs := (nodes.filter (·.isValid)).foldl addEpoch [] }

/-- Every source to its first event above the user key. -/
def seek (targetUserKey : UserKey) : ForwardMergeRangeIterator :=
  let nodes := (m.unusedIters ++ m.heap).map (·.seek targetUserKey)
  { m with
    heap := nodes.filter (·.isValid)
    unusedIters := nodes.filter (!·.isValid)
    currentEpochs := (nodes.filter (·.isValid)).foldl addEpoch [] }

/-- `next_until`: steps while the next key is at most the user key; `fuel` bounds the
steps by the events left. -/
def nextUntil (targetUserKey : UserKey) : ℕ → ForwardMergeRangeIterator →
    Option ForwardMergeRangeIterator
  | 0, m => some m
  | fuel + 1, m =>
    if m.isValid && (m.peek.bind (·.nextExtendedUserKey)).any
        (· ≤ PointRange.fromUserKey targetUserKey false) then
      m.next.bind (nextUntil targetUserKey fuel)
    else some m

/-- The events left in all sources, which bounds the steps of `next_until`. -/
def eventsLeft : ℕ := ((m.heap ++ m.unusedIters).map fun n => n.events.length - n.nextIdx).sum

end ForwardMergeRangeIterator

/-! ## The user iterator -/

/-- `UserIterator`. -/
structure UserIterator (V : Type) where
  iterator : Cursor FullKey (HummockValue V)
  lastKey : FullKey
  lastVal : V
  outOfRange : Bool
  keyRange : Bound UserKey × Bound UserKey
  readEpoch : HummockEpoch
  minEpoch : HummockEpoch
  deleteRangeIter : ForwardMergeRangeIterator

namespace UserIterator

variable {V : Type} [Inhabited V]

/-- `UserIterator::new`. -/
def new (iterator : Cursor FullKey (HummockValue V)) (keyRange : Bound UserKey × Bound UserKey)
    (readEpoch minEpoch : HummockEpoch) (deleteRangeIter : ForwardMergeRangeIterator) :
    UserIterator V :=
  ⟨iterator, default, default, false, keyRange, readEpoch, minEpoch, deleteRangeIter⟩

variable (it : UserIterator V)

/-- `key_out_of_range`: the current user key is past the end of the range. -/
def keyOutOfRange (current : UserKey) : Bool :=
  match it.keyRange.2 with
  | .included endKey => decide (endKey < current)
  | .excluded endKey => decide (endKey ≤ current)
  | .unbounded => false

/-- The loop of `next`, one entry per step; `fuel` bounds the entries left. -/
def nextLoop : ℕ → UserIterator V → Option (UserIterator V)
  | 0, it => some it
  | fuel + 1, it =>
    match it.iterator.current? with
    | none => some it
    | some (fullKey, value) =>
      let skip := fun (it : UserIterator V) => nextLoop fuel { it with iterator := it.iterator.next }
      -- Versions outside `[min_epoch, read_epoch]` are not read.
      if fullKey.epoch < it.minEpoch || it.readEpoch < fullKey.epoch then skip it
      else if it.lastKey.userKey ≠ fullKey.userKey then
        if it.keyOutOfRange fullKey.userKey then some { it with outOfRange := true }
        else
          let it := { it with lastKey := fullKey }
          match value with
          | .put val =>
            (it.deleteRangeIter.nextUntil fullKey.userKey it.deleteRangeIter.eventsLeft).bind
              fun dri =>
                -- A tombstone at an epoch at least the version's deletes it.
                if fullKey.epoch ≤ dri.currentEpoch then skip { it with deleteRangeIter := dri }
                else some { it with deleteRangeIter := dri, lastVal := val }
          | .delete => skip it
      -- An older version of the key last seen.
      else skip it

/-- `next`: to the newest visible version of the next user key. -/
def next : Option (UserIterator V) :=
  nextLoop (it.iterator.entries.length - it.iterator.pos) it

def isValid : Bool := !it.outOfRange && it.iterator.isValid

/-- `rewind`: to the start of the range, then the first key. `none` is the
`unimplemented!` of an excluded start. -/
def rewind : Option (UserIterator V) :=
  let it := { it with outOfRange := false }
  match it.keyRange.1 with
  | .included beginKey =>
    let it := { it with iterator := it.iterator.seek ⟨beginKey, it.readEpoch⟩ }
    match it.iterator.current? with
    | none => some it
    | some (fullKey, _) =>
      if it.keyOutOfRange fullKey.userKey then some { it with outOfRange := true }
      else { it with deleteRangeIter := it.deleteRangeIter.seek beginKey, lastKey := default }.next
  | .excluded _ => none
  | .unbounded =>
    let it := { it with iterator := it.iterator.rewind }
    if !it.iterator.isValid then some it
    else { it with deleteRangeIter := it.deleteRangeIter.rewind, lastKey := default }.next

/-- The user keys and values read from the current position on, `next` after each. -/
def collect : ℕ → UserIterator V → Option (List (UserKey × V))
  | 0, _ => some []
  | fuel + 1, it =>
    if it.isValid then
      it.next.bind fun it' => (collect fuel it').map ((it.lastKey.userKey, it.lastVal) :: ·)
    else some []

/-- `rewind`, then `next` until the iterator is no longer valid. -/
def scan : Option (List (UserKey × V)) :=
  it.rewind.bind (collect (it.iterator.entries.length + 1))

end UserIterator

example : (UserIterator.new (V := ℕ) ⟨[(⟨⟨1, [1]⟩, 3⟩, .put 7), (⟨⟨1, [1]⟩, 1⟩, .put 6)], 0⟩
    (.unbounded, .unbounded) 5 0 (.new 5 [])).scan = some [(⟨1, [1]⟩, 7)] := by
  decide

end RisingWave.Hummock
