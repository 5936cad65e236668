import Mathlib
import RisingWave.Hummock.Key
import RisingWave.Lib.Sweep
import RisingWave.Lib.Prefix

/-!
# Range tombstones and monotonic delete events

`storage/src/hummock/sstable/mod.rs` and `delete_range_aggregator.rs`. A range
tombstone deletes the keys in `[start_user_key, end_user_key)` written at or
before its `sequence`. An SST stores its tombstones as *monotonic delete
events*: the event at `event_key` says that, from there up to the next event,
the smallest tombstone epoch is `new_epoch` (`HummockEpoch::MAX` for none).

`create_monotonic_events` builds them by a sweep: every tombstone enters the
epoch set at its start and exits at its end, the events are sorted and grouped
by key, exits are applied before entries, and the smallest epoch is recorded
after each group. `get_min_delete_range_epoch_from_sstable` reads the epoch of
a user key back from the events with `partition_point`.

The `BTreeSet<HummockEpoch>` of active epochs is a `Finset`; its `first()` is
`firstEpoch`.
-/

namespace RisingWave.Hummock

/-- `DeleteRangeTombstone`: deletes the keys in `[start_user_key, end_user_key)`. -/
structure DeleteRangeTombstone where
  startUserKey : PointRange
  endUserKey : PointRange
  sequence : HummockEpoch
  deriving DecidableEq, Repr

/-- `MonotonicDeleteEvent`. -/
structure MonotonicDeleteEvent where
  eventKey : PointRange
  newEpoch : HummockEpoch
  deriving DecidableEq, Repr

/-- `TombstoneEnterExitEvent`. -/
structure TombstoneEnterExitEvent where
  tombstoneEpoch : HummockEpoch
  deriving DecidableEq, Repr

/-- `CompactionDeleteRangeEvent`: the event key, the epochs that exit there and
the epochs that enter there. -/
abbrev CompactionDeleteRangeEvent :=
  PointRange × List TombstoneEnterExitEvent × List TombstoneEnterExitEvent

/-- `epochs.first().map_or(HummockEpoch::MAX, |epoch| *epoch)`. -/
def firstEpoch (epochs : Finset HummockEpoch) : HummockEpoch :=
  if h : epochs.Nonempty then epochs.min' h else HummockEpoch.MAX

attribute [local simp] firstEpoch in
theorem firstEpoch_le {epochs : Finset HummockEpoch} {x : HummockEpoch} (hx : x ∈ epochs) :
    firstEpoch epochs ≤ x := by
  rw [firstEpoch, dif_pos ⟨x, hx⟩]
  exact Finset.min'_le epochs x hx

theorem le_firstEpoch {epochs : Finset HummockEpoch} {y : HummockEpoch}
    (h : ∀ x ∈ epochs, y ≤ x) : y ≤ firstEpoch epochs := by
  rw [firstEpoch]
  split
  · next hne => exact Finset.le_min' epochs hne y h
  · exact HummockEpoch.le_MAX y

/-- `MAX` in a set of epochs does not change its first epoch. -/
theorem firstEpoch_congr {s t : Finset HummockEpoch}
    (h : ∀ x, x ≠ HummockEpoch.MAX → (x ∈ s ↔ x ∈ t)) : firstEpoch s = firstEpoch t := by
  have key : ∀ s t : Finset HummockEpoch, (∀ x, x ≠ HummockEpoch.MAX → x ∈ s → x ∈ t) →
      firstEpoch t ≤ firstEpoch s := fun s t hst => le_firstEpoch fun x hx => by
    by_cases hmax : x = HummockEpoch.MAX
    · exact hmax ▸ HummockEpoch.le_MAX _
    · exact firstEpoch_le (hst x hmax hx)
  exact le_antisymm (key t s fun x hx => (h x hx).mpr) (key s t fun x hx => (h x hx).mp)

/-- `apply_event`: remove the exiting epochs, then insert the entering ones. -/
def applyEvent (epochs : Finset HummockEpoch) (event : CompactionDeleteRangeEvent) :
    Finset HummockEpoch :=
  let afterExit := event.2.1.foldl (fun s e => s.erase e.tombstoneEpoch) epochs
  event.2.2.foldl (fun s e => insert e.tombstoneEpoch s) afterExit

/-- The `(user_key, op, sequence)` triples of `build_events`: `1` enters, `0` exits. -/
abbrev TombstoneOp := PointRange × ℕ × HummockEpoch

/-- The tuple order `events.sort()` sorts by. -/
def TombstoneOp.ordKey (e : TombstoneOp) : PointRange ×ₗ (ℕ ×ₗ HummockEpoch) :=
  toLex (e.1, toLex e.2)

/-- The exits and entries of one group of `build_events` (an `op` other than `0`
and `1` is `unreachable!()`; none is ever built). -/
def groupEvent (group : List TombstoneOp) : Option CompactionDeleteRangeEvent :=
  group.head?.map fun (userKey, _, _) =>
    (userKey,
      group.filterMap (fun (_, op, sequence) => if op = 0 then some ⟨sequence⟩ else none),
      group.filterMap (fun (_, op, sequence) => if op = 1 then some ⟨sequence⟩ else none))

/-- The pushes of `build_events`: every tombstone enters at its start and exits
at its end. -/
def tombstoneOps (deleteTombstones : List DeleteRangeTombstone) : List TombstoneOp :=
  deleteTombstones.flatMap fun t => [(t.startUserKey, 1, t.sequence), (t.endUserKey, 0, t.sequence)]

/-- `CompactionDeleteRangesBuilder::build_events`: the sorted events, grouped by
key (`group_by` on consecutive equal keys). -/
def buildEvents (deleteTombstones : List DeleteRangeTombstone) : List CompactionDeleteRangeEvent :=
  let events := (tombstoneOps deleteTombstones).insertionSort fun a b => a.ordKey ≤ b.ordKey
  (events.splitBy fun a b => a.1 == b.1).filterMap groupEvent

/-- The loop of `create_monotonic_events_from_compaction_delete_events`: after
each event, the smallest active epoch. -/
def monotonicEventsLoop :
    Finset HummockEpoch → List CompactionDeleteRangeEvent → List MonotonicDeleteEvent
  | _, [] => []
  | epochs, event :: rest =>
    let epochs := applyEvent epochs event
    ⟨event.1, firstEpoch epochs⟩ :: monotonicEventsLoop epochs rest

/-- The `dedup_by` of `create_monotonic_events_from_compaction_delete_events`
drops an event with the table id and epoch of the last one kept. -/
def sameTableAndEpoch (a b : MonotonicDeleteEvent) : Prop :=
  a.eventKey.leftUserKey.tableId = b.eventKey.leftUserKey.tableId ∧ a.newEpoch = b.newEpoch

instance : DecidableRel sameTableAndEpoch := fun _ _ => inferInstanceAs (Decidable (_ ∧ _))

/-- `create_monotonic_events_from_compaction_delete_events`. `Vec::dedup_by(same)`
keeps an event when `same(event, last kept)` fails: `List.destutter` with the
relation reversed. -/
def createMonotonicEventsFromCompactionDeleteEvents
    (compactionDeleteRangeEvents : List CompactionDeleteRangeEvent) : List MonotonicDeleteEvent :=
  (monotonicEventsLoop ∅ compactionDeleteRangeEvents).destutter fun b a => ¬ sameTableAndEpoch a b

/-- `create_monotonic_events` (the sort of the tombstones it starts with does
not change the sorted events). -/
def createMonotonicEvents (deleteRangeTombstones : List DeleteRangeTombstone) :
    List MonotonicDeleteEvent :=
  createMonotonicEventsFromCompactionDeleteEvents (buildEvents deleteRangeTombstones)

/-- `get_min_delete_range_epoch_from_sstable`, on the SST's
`monotonic_tombstone_events`. -/
def getMinDeleteRangeEpochFromSstable (monotonicTombstoneEvents : List MonotonicDeleteEvent)
    (queryUserKey : UserKey) : HummockEpoch :=
  let queryExtendedUserKey := PointRange.fromUserKey queryUserKey false
  let idx := monotonicTombstoneEvents.partitionPoint fun e => e.eventKey ≤ queryExtendedUserKey
  if idx = 0 then HummockEpoch.MAX
  else (monotonicTombstoneEvents[idx - 1]?.map (·.newEpoch)).getD HummockEpoch.MAX

/-- The tombstone covers the point `p`. -/
def DeleteRangeTombstone.Covers (t : DeleteRangeTombstone) (p : PointRange) : Prop :=
  t.startUserKey ≤ p ∧ p < t.endUserKey

instance (t : DeleteRangeTombstone) (p : PointRange) : Decidable (t.Covers p) :=
  instDecidableAnd

/-- The smallest sequence of the tombstones covering the user key `k`,
`HummockEpoch::MAX` if none does. -/
def minCoveringSequence (ts : List DeleteRangeTombstone) (k : UserKey) : HummockEpoch :=
  firstEpoch ((ts.filter fun t => t.Covers (PointRange.fromUserKey k false)).map (·.sequence)).toFinset

example : getMinDeleteRangeEpochFromSstable
    (createMonotonicEvents [⟨⟨⟨1, [1]⟩, false⟩, ⟨⟨1, [3]⟩, false⟩, 5⟩,
      ⟨⟨⟨1, [2]⟩, false⟩, ⟨⟨1, [4]⟩, false⟩, 3⟩]) ⟨1, [2, 7]⟩ = 3 := by decide

/-! ## Reading the events back -/

/-- The epoch the events give a point: that of the last event at or before it. -/
def epochAt (events : List MonotonicDeleteEvent) (p : PointRange) : HummockEpoch :=
  (((events.takeWhile fun e => e.eventKey ≤ p).getLast?).map (·.newEpoch)).getD HummockEpoch.MAX

attribute [local simp] epochAt in
theorem getMinDeleteRangeEpochFromSstable_eq_epochAt (events : List MonotonicDeleteEvent)
    (k : UserKey) :
    getMinDeleteRangeEpochFromSstable events k = epochAt events (PointRange.fromUserKey k false) := by
  rw [getMinDeleteRangeEpochFromSstable, epochAt, List.getLast?_takeWhile]
  split <;> simp_all

@[simp] theorem epochAt_nil (p : PointRange) : epochAt [] p = HummockEpoch.MAX := rfl

theorem epochAt_cons_of_not_le {a : MonotonicDeleteEvent} {p : PointRange}
    (ha : ¬ a.eventKey ≤ p) (l : List MonotonicDeleteEvent) : epochAt (a :: l) p = HummockEpoch.MAX := by
  simp [epochAt, ha]

theorem epochAt_singleton {a : MonotonicDeleteEvent} {p : PointRange} (ha : a.eventKey ≤ p) :
    epochAt [a] p = a.newEpoch := by
  simp [epochAt, ha]

/-- Between an event and the next, the epoch is the event's. -/
theorem epochAt_cons_cons_of_not_le {a b : MonotonicDeleteEvent} {p : PointRange}
    (ha : a.eventKey ≤ p) (hb : ¬ b.eventKey ≤ p) (l : List MonotonicDeleteEvent) :
    epochAt (a :: b :: l) p = a.newEpoch := by
  simp [epochAt, ha, hb]

/-- Past the next event, the first event no longer matters. -/
theorem epochAt_cons_cons_of_le {a b : MonotonicDeleteEvent} {p : PointRange}
    (ha : a.eventKey ≤ p) (hb : b.eventKey ≤ p) (l : List MonotonicDeleteEvent) :
    epochAt (a :: b :: l) p = epochAt (b :: l) p := by
  simp only [epochAt, List.takeWhile_cons, ha, hb, decide_true, ↓reduceIte]
  rw [List.getLast?_cons_cons]

/-- The epoch read at a point is `MAX` or the epoch of one of the events. -/
theorem epochAt_eq_max_or_mem (l : List MonotonicDeleteEvent) (p : PointRange) :
    epochAt l p = HummockEpoch.MAX ∨ ∃ e ∈ l, epochAt l p = e.newEpoch := by
  rw [epochAt]
  cases h : (l.takeWhile fun e => e.eventKey ≤ p).getLast? with
  | none => exact .inl rfl
  | some e =>
    exact .inr ⟨e, (List.takeWhile_sublist _).subset (List.mem_of_getLast? h), rfl⟩

theorem firstEpoch_empty : firstEpoch ∅ = HummockEpoch.MAX := by
  simp [firstEpoch]

attribute [local simp] monotonicEventsLoop in
/-- After the loop, the last event at or before `p` carries the smallest epoch of
the set built from the events up to `p`. -/
theorem epochAt_monotonicEventsLoop (s : Finset HummockEpoch)
    (G : List CompactionDeleteRangeEvent) (p : PointRange) :
    ((((monotonicEventsLoop s G).takeWhile fun e => e.eventKey ≤ p).getLast?).map
        (·.newEpoch)).getD (firstEpoch s) =
      firstEpoch ((G.takeWhile fun g => g.1 ≤ p).foldl applyEvent s) := by
  induction G generalizing s with
  | nil => rfl
  | cons g G ih =>
    by_cases hg : g.1 ≤ p
    · simp only [monotonicEventsLoop, List.takeWhile_cons, hg, decide_true, ↓reduceIte,
        List.foldl_cons]
      rw [← ih (applyEvent s g)]
      cases h : (monotonicEventsLoop (applyEvent s g) G).takeWhile (fun e => decide (e.eventKey ≤ p)) with
      | nil => simp
      | cons x l => simp [List.getLast?_cons]
    · simp [monotonicEventsLoop, hg]

/-- Dropping events that repeat the table and epoch of the last kept one does not
change the epoch read at any point, when the events are in key order. -/
theorem epochAt_destutter {L : List MonotonicDeleteEvent}
    (hsorted : L.Pairwise fun a b => a.eventKey ≤ b.eventKey) (p : PointRange) :
    epochAt (L.destutter fun b a => ¬ sameTableAndEpoch a b) p = epochAt L p := by
  set R : MonotonicDeleteEvent → MonotonicDeleteEvent → Prop := fun b a => ¬ sameTableAndEpoch a b
  rw [epochAt, epochAt]
  obtain ⟨L₁, L₂, hL, h₁, h₂⟩ : ∃ L₁ L₂, L = L₁ ++ L₂ ∧ L₁ = L.takeWhile (fun e => e.eventKey ≤ p) ∧
      ∀ e ∈ L₂, ¬ e.eventKey ≤ p := by
    refine ⟨_, _, (List.takeWhile_append_dropWhile).symm, rfl, fun e he => ?_⟩
    -- The events are in key order, so none after the first one past `p` is at or before it.
    have hdown : L.Pairwise fun a b => decide (b.eventKey ≤ p) → decide (a.eventKey ≤ p) :=
      hsorted.imp fun hab hb => decide_eq_true ((hab.trans (of_decide_eq_true hb)))
    simpa using List.not_of_mem_dropWhile hdown he
  rw [← h₁]
  cases L₁ with
  | nil =>
    -- Nothing is at or before `p`, in particular nothing that `destutter` keeps.
    have hnone : ∀ e ∈ L.destutter R, ¬ e.eventKey ≤ p := fun e he =>
      h₂ e (by simpa [hL] using (List.destutter_sublist R L).subset he)
    cases hd : L.destutter R with
    | nil => rfl
    | cons d ds => simp [hnone d (hd ▸ List.mem_cons_self)]
  | cons a l₁ =>
    subst hL
    obtain ⟨rest, hrest, hsub⟩ := List.destutter'_append_prefix R a l₁ L₂
    have hkeep : ∀ e ∈ List.destutter' R a l₁, e.eventKey ≤ p := by
      intro e he
      have he' : e ∈ a :: l₁ := (List.destutter'_sublist l₁ R a).subset he
      rw [h₁] at he'
      exact of_decide_eq_true (List.all_eq_true.mp List.all_takeWhile e he')
    have hrest' : rest.takeWhile (fun e => decide (e.eventKey ≤ p)) = [] := by
      cases rest with
      | nil => rfl
      | cons r rs => simp [h₂ r (hsub.subset List.mem_cons_self)]
    rw [List.cons_append, List.destutter_cons', hrest,
      List.takeWhile_append_of_pos (fun e he => decide_eq_true (hkeep e he)), hrest',
      List.append_nil, List.getLast?_eq_some_getLast (List.destutter'_ne_nil _ _),
      List.getLast?_eq_some_getLast (List.cons_ne_nil _ _)]
    -- `destutter` keeps the last event, or one with the same table and epoch.
    rcases List.getLast_destutter' R a l₁ with h | h
    · rw [h]
    · simp only [Option.map_some, Option.getD_some]
      exact (not_not.mp h).2.symm

/-! ## Events as sweep events -/

/-- The sweep events of a `CompactionDeleteRangeEvent`: its exits, then its entries. -/
def sweepEvents (event : CompactionDeleteRangeEvent) : List (Sweep.Event PointRange HummockEpoch) :=
  event.2.1.map (fun e => ⟨event.1, false, e.tombstoneEpoch⟩) ++
    event.2.2.map (fun e => ⟨event.1, true, e.tombstoneEpoch⟩)

attribute [local simp] applyEvent sweepEvents Sweep.Event.apply in
/-- `apply_event` applies the sweep events of the event one by one. -/
theorem applyEvent_eq_foldl (s : Finset HummockEpoch) (event : CompactionDeleteRangeEvent) :
    applyEvent s event = (sweepEvents event).foldl Sweep.Event.apply s := by
  simp [applyEvent, sweepEvents, List.foldl_map, Sweep.Event.apply]

theorem key_of_mem_sweepEvents {event : CompactionDeleteRangeEvent}
    {e : Sweep.Event PointRange HummockEpoch} (he : e ∈ sweepEvents event) : e.key = event.1 := by
  simp only [sweepEvents, List.mem_append, List.mem_map] at he
  rcases he with ⟨_, _, rfl⟩ | ⟨_, _, rfl⟩ <;> rfl

/-- Replaying events in key order up to `p` is replaying their sweep events up to `p`. -/
theorem foldl_applyEvent_takeWhile {events : List CompactionDeleteRangeEvent}
    (hsorted : events.Pairwise fun a b => a.1 ≤ b.1) (p : PointRange) (s : Finset HummockEpoch) :
    (events.takeWhile fun ev => ev.1 ≤ p).foldl applyEvent s =
      ((events.flatMap sweepEvents).filter fun e => e.key ≤ p).foldl Sweep.Event.apply s := by
  rw [show events.takeWhile (fun ev => ev.1 ≤ p) = events.filter (fun ev => ev.1 ≤ p) from
    Sweep.takeWhile_eq_filter_of_pairwise _ p hsorted]
  clear hsorted
  induction events generalizing s with
  | nil => rfl
  | cons ev events ih =>
    -- The sweep events of `ev` all sit at its key: all kept or all dropped.
    have hkeys : ∀ e ∈ sweepEvents ev, e.key = ev.1 := fun e he => key_of_mem_sweepEvents he
    by_cases hp : ev.1 ≤ p
    · have hall : (sweepEvents ev).filter (fun e => e.key ≤ p) = sweepEvents ev :=
        List.filter_eq_self.mpr fun e he => by simp [hkeys e he, hp]
      simp only [List.filter_cons, hp, decide_true, ↓reduceIte, List.foldl_cons, List.flatMap_cons,
        List.filter_append, hall, List.foldl_append, applyEvent_eq_foldl, ih]
    · have hnone : (sweepEvents ev).filter (fun e => e.key ≤ p) = [] :=
        List.filter_eq_nil_iff.mpr fun e he => by simp [hkeys e he, hp]
      simp only [List.filter_cons, hp, decide_false, Bool.false_eq_true, ↓reduceIte,
        List.flatMap_cons, List.filter_append, hnone, List.nil_append, ih]

/-! ## `build_events` is a sweep

Each tombstone is an interval of points labelled by its sequence; each triple of
`build_events` is an event of the sweep library, entering when `op = 1`. The
sorted triples are sorted sweep events, and a group of them, exits first, is the
same as its triples one by one. -/

/-- The points a tombstone covers, labelled by its sequence. -/
def DeleteRangeTombstone.toInterval (t : DeleteRangeTombstone) :
    Sweep.Interval PointRange HummockEpoch :=
  ⟨t.startUserKey, t.endUserKey, t.sequence⟩

/-- The sweep event of a triple of `build_events`. -/
def TombstoneOp.toEvent (e : TombstoneOp) : Sweep.Event PointRange HummockEpoch :=
  ⟨e.1, e.2.1 = 1, e.2.2⟩

instance : Std.Total fun a b : TombstoneOp => a.ordKey ≤ b.ordKey := ⟨fun _ _ => le_total _ _⟩

instance : IsTrans TombstoneOp fun a b => a.ordKey ≤ b.ordKey := ⟨fun _ _ _ => le_trans⟩

attribute [local simp] tombstoneOps TombstoneOp.toEvent DeleteRangeTombstone.toInterval in
theorem tombstoneOps_map_toEvent (ts : List DeleteRangeTombstone) :
    (tombstoneOps ts).map TombstoneOp.toEvent = Sweep.events (ts.map (·.toInterval)) := by
  simp [tombstoneOps, Sweep.events, List.map_flatMap, List.flatMap_map, TombstoneOp.toEvent,
    Sweep.Interval.enterEvent, Sweep.Interval.exitEvent, DeleteRangeTombstone.toInterval]

theorem op_of_mem_tombstoneOps {ts : List DeleteRangeTombstone} {e : TombstoneOp}
    (he : e ∈ tombstoneOps ts) : e.2.1 = 0 ∨ e.2.1 = 1 := by
  simp only [tombstoneOps, List.mem_flatMap, List.mem_cons, List.not_mem_nil, or_false] at he
  obtain ⟨t, -, rfl | rfl⟩ := he <;> simp

attribute [local simp] Sweep.Event.pos in
/-- The tuple order of two triples, read on their sweep events: keys ascending,
exits first. -/
theorem toEvent_pos_le {a b : TombstoneOp} (ha : a.2.1 = 0 ∨ a.2.1 = 1)
    (hb : b.2.1 = 0 ∨ b.2.1 = 1) (h : a.ordKey ≤ b.ordKey) : a.toEvent.pos ≤ b.toEvent.pos := by
  obtain ⟨ka, opa, sa⟩ := a
  obtain ⟨kb, opb, sb⟩ := b
  simp only [TombstoneOp.ordKey, Prod.Lex.toLex_le_toLex] at h
  simp only [TombstoneOp.toEvent, Sweep.Event.pos, Prod.Lex.toLex_le_toLex]
  rcases h with h | ⟨rfl, h | ⟨rfl, -⟩⟩
  · exact .inl h
  · -- Only `0 < 1` is possible: an exit before an entry.
    right
    refine ⟨rfl, ?_⟩
    rcases ha with rfl | rfl <;> rcases hb with rfl | rfl <;> simp_all
  · exact .inr ⟨rfl, le_rfl⟩

theorem enter_le_of_ordKey_le {a b : TombstoneOp} (ha : a.2.1 = 0 ∨ a.2.1 = 1)
    (hb : b.2.1 = 0 ∨ b.2.1 = 1) (hkey : a.1 = b.1) (h : a.ordKey ≤ b.ordKey) :
    a.toEvent.enter ≤ b.toEvent.enter := by
  have hpos := toEvent_pos_le ha hb h
  simp only [Sweep.Event.pos, Prod.Lex.toLex_le_toLex] at hpos
  rcases hpos with hlt | ⟨-, hle⟩
  · exact absurd hlt (by simp [TombstoneOp.toEvent, hkey])
  · exact hle

/-- Applying the exits of a group erases the epochs of its `op = 0` triples. -/
theorem foldl_exits {g : List TombstoneOp} (hops : ∀ e ∈ g, e.2.1 = 0 ∨ e.2.1 = 1)
    (s : Finset HummockEpoch) :
    (g.filterMap fun (_, op, sequence) =>
        if op = 0 then some (⟨sequence⟩ : TombstoneEnterExitEvent) else none).foldl
        (fun s e => s.erase e.tombstoneEpoch) s =
      ((g.filter fun e => !e.toEvent.enter).map TombstoneOp.toEvent).foldl Sweep.Event.apply s := by
  induction g generalizing s with
  | nil => rfl
  | cons e g ih =>
    have ih := ih (fun e he => hops e (List.mem_cons_of_mem _ he))
    obtain ⟨k, op, seq⟩ := e
    rcases hops _ List.mem_cons_self with rfl | rfl <;>
      simp [TombstoneOp.toEvent, Sweep.Event.apply, ih]

/-- Applying the entries of a group inserts the epochs of its `op = 1` triples. -/
theorem foldl_enters {g : List TombstoneOp} (hops : ∀ e ∈ g, e.2.1 = 0 ∨ e.2.1 = 1)
    (s : Finset HummockEpoch) :
    (g.filterMap fun (_, op, sequence) =>
        if op = 1 then some (⟨sequence⟩ : TombstoneEnterExitEvent) else none).foldl
        (fun s e => insert e.tombstoneEpoch s) s =
      ((g.filter fun e => e.toEvent.enter).map TombstoneOp.toEvent).foldl Sweep.Event.apply s := by
  induction g generalizing s with
  | nil => rfl
  | cons e g ih =>
    have ih := ih (fun e he => hops e (List.mem_cons_of_mem _ he))
    obtain ⟨k, op, seq⟩ := e
    rcases hops _ List.mem_cons_self with rfl | rfl <;>
      simp [TombstoneOp.toEvent, Sweep.Event.apply, ih]

attribute [local simp] groupEvent in
/-- A group of `build_events`, exits first, applies as its triples one by one
when it is sorted by op. -/
theorem applyEvent_groupEvent {g : List TombstoneOp} (hops : ∀ e ∈ g, e.2.1 = 0 ∨ e.2.1 = 1)
    (hsorted : g.Pairwise fun a b => a.toEvent.enter ≤ b.toEvent.enter)
    {ev : CompactionDeleteRangeEvent} (hev : groupEvent g = some ev) (s : Finset HummockEpoch) :
    applyEvent s ev = (g.map TombstoneOp.toEvent).foldl Sweep.Event.apply s := by
  cases g with
  | nil => simp [groupEvent] at hev
  | cons a g' =>
    simp only [groupEvent, List.head?_cons, Option.map_some, Option.some.injEq] at hev
    subst hev
    have hsplit : (a :: g').map TombstoneOp.toEvent =
        ((a :: g').filter fun e => !e.toEvent.enter).map TombstoneOp.toEvent ++
          ((a :: g').filter fun e => e.toEvent.enter).map TombstoneOp.toEvent := by
      rw [← List.map_append, List.filter_not_append_filter_of_pairwise hsorted]
    rw [hsplit, List.foldl_append, applyEvent, foldl_exits hops, foldl_enters hops]

/-- A group of the sorted triples of `build_events`: non-empty, of one key, every
op `0` or `1`, and sorted by op. -/
structure IsOpGroup (g : List TombstoneOp) : Prop where
  ne_nil : g ≠ []
  key_eq : ∀ a ∈ g, ∀ b ∈ g, a.1 = b.1
  ops : ∀ e ∈ g, e.2.1 = 0 ∨ e.2.1 = 1
  sorted : g.Pairwise fun a b => a.toEvent.enter ≤ b.toEvent.enter

theorem foldl_applyEvent_filterMap {G : List (List TombstoneOp)} (hG : ∀ g ∈ G, IsOpGroup g)
    (s : Finset HummockEpoch) :
    (G.filterMap groupEvent).foldl applyEvent s =
      (G.flatten.map TombstoneOp.toEvent).foldl Sweep.Event.apply s := by
  induction G generalizing s with
  | nil => rfl
  | cons g G ih =>
    have hg := hG g List.mem_cons_self
    obtain ⟨ev, hev⟩ : ∃ ev, groupEvent g = some ev := by
      cases g with
      | nil => exact absurd rfl hg.ne_nil
      | cons a g' => exact ⟨_, rfl⟩
    rw [List.filterMap_cons_some hev, List.foldl_cons, applyEvent_groupEvent hg.ops hg.sorted hev,
      ih (fun g hg => hG g (List.mem_cons_of_mem _ hg)), List.flatten_cons, List.map_append,
      List.foldl_append]

theorem takeWhile_filterMap_groupEvent {G : List (List TombstoneOp)} (hG : ∀ g ∈ G, g ≠ [])
    (p : PointRange) :
    (G.filterMap groupEvent).takeWhile (fun ev => ev.1 ≤ p) =
      (G.takeWhile fun g => g.head?.any fun e => e.1 ≤ p).filterMap groupEvent := by
  induction G with
  | nil => rfl
  | cons g G ih =>
    obtain ⟨a, g', rfl⟩ := List.exists_cons_of_ne_nil (hG _ List.mem_cons_self)
    have ih := ih (fun g hg => hG g (List.mem_cons_of_mem _ hg))
    by_cases ha : a.1 ≤ p
    · simp [groupEvent, ha, ih]
    · simp [groupEvent, ha]

/-- The sorted triples of `build_events`, cut into groups of one key, are groups
in the sense of `IsOpGroup`. -/
theorem isOpGroup_of_mem_splitBy {S : List TombstoneOp}
    (hops : ∀ e ∈ S, e.2.1 = 0 ∨ e.2.1 = 1) (hS : S.Pairwise fun a b => a.ordKey ≤ b.ordKey)
    {g : List TombstoneOp} (hg : g ∈ S.splitBy fun a b => a.1 == b.1) : IsOpGroup g := by
  have hsub : g.Sublist S := by
    have := (List.infix_of_mem_flatten hg).sublist
    rwa [List.flatten_splitBy] at this
  have hkey : ∀ a ∈ g, ∀ b ∈ g, a.1 = b.1 := fun a ha b hb =>
    List.eq_of_mem_of_isChain ((List.isChain_of_mem_splitBy hg).imp fun _ _ h => beq_iff_eq.mp h) ha hb
  refine ⟨List.ne_nil_of_mem_splitBy hg, hkey, fun e he => hops e (hsub.subset he), ?_⟩
  refine List.Pairwise.imp_of_mem ?_ (hS.sublist hsub)
  intro a b ha hb h
  exact enter_le_of_ordKey_le (hops a (hsub.subset ha)) (hops b (hsub.subset hb)) (hkey a ha b hb) h

theorem key_le_of_ordKey_le {a b : TombstoneOp} (h : a.ordKey ≤ b.ordKey) : a.1 ≤ b.1 :=
  (Prod.Lex.toLex_le_toLex.mp h).elim le_of_lt fun h => h.1.le

theorem groupEvent_key {g : List TombstoneOp} {ev : CompactionDeleteRangeEvent}
    (hev : groupEvent g = some ev) : ∃ a ∈ g, ev.1 = a.1 := by
  cases g with
  | nil => simp [groupEvent] at hev
  | cons a g =>
    simp only [groupEvent, List.head?_cons, Option.map_some, Option.some.injEq] at hev
    exact ⟨a, List.mem_cons_self, hev ▸ rfl⟩

/-- The events of `build_events` come in key order. -/
theorem buildEvents_pairwise_key (ts : List DeleteRangeTombstone) :
    (buildEvents ts).Pairwise fun a b => a.1 ≤ b.1 := by
  have hS := (List.pairwise_insertionSort (fun a b : TombstoneOp => a.ordKey ≤ b.ordKey)
    (tombstoneOps ts)).imp key_le_of_ordKey_le
  rw [← List.flatten_splitBy (fun a b => a.1 == b.1) (List.insertionSort _ _),
    List.pairwise_flatten] at hS
  refine List.pairwise_filterMap.mpr (hS.2.imp fun h ev₁ hev₁ ev₂ hev₂ => ?_)
  obtain ⟨a, ha, h₁⟩ := groupEvent_key hev₁
  obtain ⟨b, hb, h₂⟩ := groupEvent_key hev₂
  rw [h₁, h₂]
  exact h a ha b hb

theorem map_eventKey_monotonicEventsLoop (s : Finset HummockEpoch)
    (G : List CompactionDeleteRangeEvent) :
    (monotonicEventsLoop s G).map (·.eventKey) = G.map (·.1) := by
  induction G generalizing s with
  | nil => rfl
  | cons g G ih => simp [monotonicEventsLoop, ih]

/-- The sweep behind `build_events`: after the groups at keys up to `p`, the set
of epochs is that of the tombstones covering `p`. Any sorted permutation of the
triples gives it. -/
theorem foldl_applyEvent_splitBy {ts : List DeleteRangeTombstone}
    (hne : ∀ t ∈ ts, t.startUserKey < t.endUserKey)
    (hsep : ts.Pairwise fun t u => t.sequence = u.sequence → ∀ p, t.Covers p → ¬ u.Covers p)
    {S : List TombstoneOp} (hperm : S.Perm (tombstoneOps ts))
    (hsorted : S.Pairwise fun a b => a.ordKey ≤ b.ordKey) (p : PointRange) :
    (((S.splitBy fun a b => a.1 == b.1).filterMap groupEvent).takeWhile fun ev => ev.1 ≤ p).foldl
        applyEvent ∅ =
      Sweep.activeLabels (ts.map (·.toInterval)) p := by
  have hops : ∀ e ∈ S, e.2.1 = 0 ∨ e.2.1 = 1 := fun e he =>
    op_of_mem_tombstoneOps (hperm.subset he)
  have hG : ∀ g ∈ S.splitBy (fun a b => a.1 == b.1), IsOpGroup g := fun g hg =>
    isOpGroup_of_mem_splitBy hops hsorted hg
  -- Taking the groups up to `p` is taking the triples up to `p`: a group has one key.
  have hflat : ((S.splitBy fun a b => a.1 == b.1).takeWhile fun g => g.head?.any fun e => e.1 ≤ p).flatten =
      S.takeWhile fun e => e.1 ≤ p := by
    rw [List.flatten_takeWhile_head (fun g hg => (hG g hg).ne_nil)
      (fun g hg a ha b hb => by rw [(hG g hg).key_eq a ha b hb]), List.flatten_splitBy]
  have hmap : (S.map TombstoneOp.toEvent).takeWhile (fun e => e.key ≤ p) =
      (S.takeWhile fun e => e.1 ≤ p).map TombstoneOp.toEvent := by
    rw [List.takeWhile_map]
    rfl
  rw [takeWhile_filterMap_groupEvent (fun g hg => (hG g hg).ne_nil),
    foldl_applyEvent_filterMap (fun g hg => hG g ((List.takeWhile_sublist _).subset hg)), hflat, ← hmap]
  refine Sweep.foldl_apply_takeWhile ?_ (List.pairwise_map.mpr hsep) ?_ ?_ p
  · simpa [DeleteRangeTombstone.toInterval] using hne
  · exact tombstoneOps_map_toEvent ts ▸ hperm.map _
  · exact List.pairwise_map.mpr
      (hsorted.imp_of_mem fun ha hb h => toEvent_pos_le (hops _ ha) (hops _ hb) h)

theorem activeLabels_map_toInterval (ts : List DeleteRangeTombstone) (p : PointRange) :
    Sweep.activeLabels (ts.map (·.toInterval)) p =
      ((ts.filter fun t => t.Covers p).map (·.sequence)).toFinset := by
  simp only [Sweep.activeLabels, List.filter_map, List.map_map]
  rfl

theorem foldl_applyEvent_buildEvents {ts : List DeleteRangeTombstone}
    (hne : ∀ t ∈ ts, t.startUserKey < t.endUserKey)
    (hsep : ts.Pairwise fun t u => t.sequence = u.sequence → ∀ p, t.Covers p → ¬ u.Covers p)
    (p : PointRange) :
    ((buildEvents ts).takeWhile fun ev => ev.1 ≤ p).foldl applyEvent ∅ =
      Sweep.activeLabels (ts.map (·.toInterval)) p :=
  foldl_applyEvent_splitBy hne hsep (List.perm_insertionSort _ _) (List.pairwise_insertionSort _ _) p

/-- On non-empty tombstones, none two of one sequence overlapping, the monotonic
events give every user key the smallest sequence of the tombstones covering it. -/
theorem getMinDeleteRangeEpochFromSstable_createMonotonicEvents {ts : List DeleteRangeTombstone}
    (hne : ∀ t ∈ ts, t.startUserKey < t.endUserKey)
    (hsep : ts.Pairwise fun t u => t.sequence = u.sequence → ∀ p, t.Covers p → ¬ u.Covers p)
    (k : UserKey) :
    getMinDeleteRangeEpochFromSstable (createMonotonicEvents ts) k = minCoveringSequence ts k := by
  have hkeys : (monotonicEventsLoop ∅ (buildEvents ts)).Pairwise
      fun a b => a.eventKey ≤ b.eventKey := by
    have h := List.pairwise_map.mpr (buildEvents_pairwise_key ts)
    rw [← map_eventKey_monotonicEventsLoop ∅] at h
    exact List.pairwise_map.mp h
  rw [getMinDeleteRangeEpochFromSstable_eq_epochAt, createMonotonicEvents,
    createMonotonicEventsFromCompactionDeleteEvents, epochAt_destutter hkeys, epochAt,
    ← firstEpoch_empty, epochAt_monotonicEventsLoop,
    foldl_applyEvent_buildEvents hne hsep, activeLabels_map_toInterval, minCoveringSequence]

end RisingWave.Hummock
