import Mathlib
import RisingWave.Hummock.Tombstone
import RisingWave.Lib.SortedMap
import RisingWave.Lib.Lex

/-!
# The delete ranges of a compaction

`delete_range_aggregator.rs`. A compaction reads the monotonic delete events of
every input SST. `CompactionDeleteRangesBuilder::build_for_compaction` turns each
list back into enter and exit events (the epoch of an event enters at its key
and exits at the next one) and merges them by key in a `BTreeMap`.
`CompactionDeleteRangeIterator` replays the merged events lazily: the compactor
asks for keys in ascending order, and `earliest_delete_which_can_see_key`
applies the events up to the key before answering from the set of active
epochs.

The set keeps one copy of an epoch, so the design rests on the condition stated
on `epochs`: intervals that cover each other carry different epochs. Over points
(`PointRange`s) this makes the replay exact; over user keys alone it does not,
since an interval can cover points and no user key.
-/

namespace RisingWave.Hummock

/-- `CompactionDeleteRangesBuilder`: the monotonic delete events of every SST added. -/
structure CompactionDeleteRangesBuilder where
  events : List (List MonotonicDeleteEvent)

/-- `CompactionDeleteRanges`: the merged events, keys ascending. -/
structure CompactionDeleteRanges where
  events : List CompactionDeleteRangeEvent

/-- The `BTreeMap` of `build_for_compaction`: exits and entries by key. -/
abbrev EnterExitMap :=
  SortedMap PointRange (List TombstoneEnterExitEvent × List TombstoneEnterExitEvent)

/-- The inner loop of `build_for_compaction` over the events of one SST: at each
event the previous epoch exits and the event's epoch enters, `MAX` being none. -/
def addMonotonicDeletes :
    EnterExitMap → HummockEpoch → List MonotonicDeleteEvent → EnterExitMap
  | ret, _, [] => ret
  | ret, lastExitEpoch, deleteEvent :: rest =>
    let ret := if lastExitEpoch ≠ HummockEpoch.MAX then
        ret.alter deleteEvent.eventKey fun entry => (entry.1 ++ [⟨lastExitEpoch⟩], entry.2)
      else ret
    let ret := if deleteEvent.newEpoch ≠ HummockEpoch.MAX then
        ret.alter deleteEvent.eventKey fun entry => (entry.1, entry.2 ++ [⟨deleteEvent.newEpoch⟩])
      else ret
    addMonotonicDeletes ret deleteEvent.newEpoch rest

/-- `CompactionDeleteRangesBuilder::build_for_compaction`. The map's entries
`(k, (exits, enters))` are the events `(k, exits, enters)`. -/
def CompactionDeleteRangesBuilder.buildForCompaction (self : CompactionDeleteRangesBuilder) :
    CompactionDeleteRanges :=
  let ret := self.events.foldl
    (fun ret monotonicDeletes => addMonotonicDeletes ret HummockEpoch.MAX monotonicDeletes)
    SortedMap.empty
  ⟨ret.entries⟩

/-- `CompactionDeleteRangeIterator`. -/
structure CompactionDeleteRangeIterator where
  events : CompactionDeleteRanges
  seekIdx : ℕ
  epochs : Finset HummockEpoch

/-- `CompactionDeleteRanges::iter`. -/
def CompactionDeleteRanges.iter (self : CompactionDeleteRanges) : CompactionDeleteRangeIterator :=
  ⟨self, 0, ∅⟩

namespace CompactionDeleteRangeIterator

/-- The `while let` loop of `earliest_delete_which_can_see_key`: apply the events
at keys up to `target`. Each round consumes an event, so the number of events
left is enough fuel. -/
def advanceLoop (target : PointRange) :
    ℕ → CompactionDeleteRangeIterator → CompactionDeleteRangeIterator
  | 0, self => self
  | fuel + 1, self =>
    match self.events.events[self.seekIdx]? with
    | some event =>
      if event.1 ≤ target then
        advanceLoop target fuel
          { self with seekIdx := self.seekIdx + 1, epochs := applyEvent self.epochs event }
      else self
    | none => self

/-- The loop of `earliest_delete_which_can_see_key`, run to its end. -/
def advance (self : CompactionDeleteRangeIterator) (target : PointRange) :
    CompactionDeleteRangeIterator :=
  advanceLoop target (self.events.events.length - self.seekIdx) self

/-- `earliest_delete_since`: the smallest active epoch at least `epoch`. -/
def earliestDeleteSince (self : CompactionDeleteRangeIterator) (epoch : HummockEpoch) :
    HummockEpoch :=
  firstEpoch (self.epochs.filter (epoch ≤ ·))

/-- `earliest_delete_which_can_see_key`: the iterator after the call, and the
answer. -/
def earliestDeleteWhichCanSeeKey (self : CompactionDeleteRangeIterator) (targetUserKey : UserKey)
    (epoch : HummockEpoch) : CompactionDeleteRangeIterator × HummockEpoch :=
  let self := self.advance (PointRange.fromUserKey targetUserKey false)
  (self, self.earliestDeleteSince epoch)

/-- `earliest_epoch`. -/
def earliestEpoch (self : CompactionDeleteRangeIterator) : HummockEpoch :=
  firstEpoch self.epochs

/-- `is_valid`. -/
def isValid (self : CompactionDeleteRangeIterator) : Bool :=
  self.seekIdx < self.events.events.length

/-- `next`. -/
def next (self : CompactionDeleteRangeIterator) : CompactionDeleteRangeIterator :=
  { self with seekIdx := self.seekIdx + 1 }

/-- `seek`: position after the events at keys up to the target, and replay them
from an empty set. -/
def seek (self : CompactionDeleteRangeIterator) (targetUserKey : UserKey) :
    CompactionDeleteRangeIterator :=
  let targetExtendedUserKey := PointRange.fromUserKey targetUserKey false
  let seekIdx := self.events.events.partitionPoint fun e => e.1 ≤ targetExtendedUserKey
  { self with seekIdx := seekIdx, epochs := (self.events.events.take seekIdx).foldl applyEvent ∅ }

/-- `rewind`. -/
def rewind (self : CompactionDeleteRangeIterator) : CompactionDeleteRangeIterator :=
  { self with seekIdx := 0, epochs := ∅ }

end CompactionDeleteRangeIterator

/-- The answers of successive `earliest_delete_which_can_see_key` calls. -/
def earliestDeletes :
    CompactionDeleteRangeIterator → List (UserKey × HummockEpoch) → List HummockEpoch
  | _, [] => []
  | it, (k, epoch) :: queries =>
    let (it, ret) := it.earliestDeleteWhichCanSeeKey k epoch
    ret :: earliestDeletes it queries

/-- The smallest epoch at least `epoch` that the events of some SST give `k`,
`HummockEpoch::MAX` if none. -/
def minDeleteEpochSince (ssts : List (List MonotonicDeleteEvent)) (k : UserKey)
    (epoch : HummockEpoch) : HummockEpoch :=
  firstEpoch ((ssts.map fun l => epochAt l (PointRange.fromUserKey k false)).toFinset.filter
    (epoch ≤ ·))

example : earliestDeletes
    (CompactionDeleteRangesBuilder.buildForCompaction
      ⟨[[⟨⟨⟨1, [1]⟩, false⟩, 5⟩, ⟨⟨⟨1, [3]⟩, false⟩, HummockEpoch.MAX⟩],
        [⟨⟨⟨1, [2]⟩, false⟩, 3⟩, ⟨⟨⟨1, [4]⟩, false⟩, HummockEpoch.MAX⟩]]⟩).iter
    [(⟨1, [0]⟩, 0), (⟨1, [2]⟩, 0), (⟨1, [2]⟩, 4), (⟨1, [3]⟩, 4), (⟨1, [5]⟩, 0)] =
    [HummockEpoch.MAX, 3, 5, HummockEpoch.MAX, HummockEpoch.MAX] := by
  decide

/-! ## The intervals behind the events of an SST

An SST's event list `[e₀, e₁, …]` says that `eᵢ.new_epoch` holds on
`[eᵢ.event_key, eᵢ₊₁.event_key)`. `build_for_compaction` pushes, at each event,
the exit of the previous epoch and the entry of the event's own: the sweep
events of those intervals. -/

/-- An SST's monotonic event list: keys strictly ascending, the last event
ending every tombstone. -/
structure IsMonotonicEvents (l : List MonotonicDeleteEvent) : Prop where
  sorted : l.Pairwise fun a b => a.eventKey < b.eventKey
  last_max : ∀ e ∈ l.getLast?, e.newEpoch = HummockEpoch.MAX

/-- The intervals of an SST's event list, labelled by their epoch (`MAX`, no
tombstone, gives none). -/
def monotonicIntervals : List MonotonicDeleteEvent → List (Sweep.Interval PointRange HummockEpoch)
  | a :: b :: rest =>
    (if a.newEpoch ≠ HummockEpoch.MAX then [⟨a.eventKey, b.eventKey, a.newEpoch⟩] else []) ++
      monotonicIntervals (b :: rest)
  | _ => []

/-- The sweep events `build_for_compaction` pushes for an SST's event list, after
an event of epoch `lastExitEpoch`. -/
def pushedEvents : HummockEpoch → List MonotonicDeleteEvent → List (Sweep.Event PointRange HummockEpoch)
  | _, [] => []
  | lastExitEpoch, e :: rest =>
    (if lastExitEpoch ≠ HummockEpoch.MAX then [⟨e.eventKey, false, lastExitEpoch⟩] else []) ++
      (if e.newEpoch ≠ HummockEpoch.MAX then [⟨e.eventKey, true, e.newEpoch⟩] else []) ++
      pushedEvents e.newEpoch rest

attribute [local simp] monotonicIntervals Sweep.events in
theorem pushedEvents_cons_eq (x : HummockEpoch) (e : MonotonicDeleteEvent)
    (rest : List MonotonicDeleteEvent)
    (hlast : ∀ l ∈ (e :: rest).getLast?, l.newEpoch = HummockEpoch.MAX) :
    pushedEvents x (e :: rest) =
      (if x ≠ HummockEpoch.MAX then [⟨e.eventKey, false, x⟩] else []) ++
        Sweep.events (monotonicIntervals (e :: rest)) := by
  induction rest generalizing x e with
  | nil =>
    have he : e.newEpoch = HummockEpoch.MAX := hlast e (by simp)
    simp [pushedEvents, monotonicIntervals, he, Sweep.events]
  | cons e' rest ih =>
    have ih := ih e.newEpoch e' (fun l hl => hlast l (by simpa [List.getLast?_cons_cons] using hl))
    rw [pushedEvents, ih, monotonicIntervals]
    -- The entry of `e` and the exit of its epoch at `e'` are the interval's two events.
    by_cases he : e.newEpoch = HummockEpoch.MAX
    · simp [he, Sweep.events]
    · simp [he, Sweep.events, Sweep.Interval.enterEvent, Sweep.Interval.exitEvent]

/-- The pushes of a whole monotonic list are the sweep events of its intervals. -/
theorem pushedEvents_eq_events {l : List MonotonicDeleteEvent}
    (hlast : ∀ e ∈ l.getLast?, e.newEpoch = HummockEpoch.MAX) :
    pushedEvents HummockEpoch.MAX l = Sweep.events (monotonicIntervals l) := by
  cases l with
  | nil => rfl
  | cons e rest => simp [pushedEvents_cons_eq _ e rest hlast]

/-! ## The merged map holds every pushed event -/

/-- The sweep events of an entry of the map. -/
def entryEvents (k : PointRange) (v : List TombstoneEnterExitEvent × List TombstoneEnterExitEvent) :
    List (Sweep.Event PointRange HummockEpoch) :=
  sweepEvents (k, v)

attribute [local simp] entryEvents sweepEvents in
theorem flatView_alter_exit (ret : EnterExitMap) (k : PointRange) (x : HummockEpoch) :
    (SortedMap.flatView entryEvents (ret.alter k fun entry => (entry.1 ++ [⟨x⟩], entry.2))).Perm
      (⟨k, false, x⟩ :: SortedMap.flatView entryEvents ret) :=
  SortedMap.flatView_alter_perm entryEvents ret rfl fun v => by
    simp only [entryEvents, sweepEvents, List.map_append, List.map_cons, List.map_nil,
      List.append_assoc, List.singleton_append]
    exact List.perm_middle

theorem flatView_alter_enter (ret : EnterExitMap) (k : PointRange) (x : HummockEpoch) :
    (SortedMap.flatView entryEvents (ret.alter k fun entry => (entry.1, entry.2 ++ [⟨x⟩]))).Perm
      (⟨k, true, x⟩ :: SortedMap.flatView entryEvents ret) :=
  SortedMap.flatView_alter_perm entryEvents ret rfl fun v => by
    simp only [entryEvents, sweepEvents, List.map_append, List.map_cons, List.map_nil]
    exact (List.perm_append_comm.append_left _).trans List.perm_middle

/-- The map after one SST's events holds its pushes besides what it held. -/
theorem flatView_addMonotonicDeletes (ret : EnterExitMap) (x : HummockEpoch)
    (l : List MonotonicDeleteEvent) :
    (SortedMap.flatView entryEvents (addMonotonicDeletes ret x l)).Perm
      (pushedEvents x l ++ SortedMap.flatView entryEvents ret) := by
  induction l generalizing ret x with
  | nil => rfl
  | cons e rest ih =>
    set exits : List (Sweep.Event PointRange HummockEpoch) :=
      if x ≠ HummockEpoch.MAX then [⟨e.eventKey, false, x⟩] else []
    set enters : List (Sweep.Event PointRange HummockEpoch) :=
      if e.newEpoch ≠ HummockEpoch.MAX then [⟨e.eventKey, true, e.newEpoch⟩] else []
    set ret₁ := if x ≠ HummockEpoch.MAX then
      ret.alter e.eventKey fun entry => (entry.1 ++ [⟨x⟩], entry.2) else ret
    set ret₂ := if e.newEpoch ≠ HummockEpoch.MAX then
      ret₁.alter e.eventKey fun entry => (entry.1, entry.2 ++ [⟨e.newEpoch⟩]) else ret₁
    have h₁ : (SortedMap.flatView entryEvents ret₁).Perm
        (exits ++ SortedMap.flatView entryEvents ret) := by
      by_cases hx : x = HummockEpoch.MAX
      · simp [ret₁, exits, hx]
      · simpa [ret₁, exits, hx] using flatView_alter_exit ret e.eventKey x
    have h₂ : (SortedMap.flatView entryEvents ret₂).Perm
        (enters ++ SortedMap.flatView entryEvents ret₁) := by
      by_cases he : e.newEpoch = HummockEpoch.MAX
      · simp [ret₂, enters, he]
      · simpa [ret₂, enters, he] using flatView_alter_enter ret₁ e.eventKey e.newEpoch
    have hstep : addMonotonicDeletes ret x (e :: rest) = addMonotonicDeletes ret₂ e.newEpoch rest := rfl
    have hpush : pushedEvents x (e :: rest) = exits ++ enters ++ pushedEvents e.newEpoch rest := rfl
    rw [hstep, hpush]
    -- Only the order differs: the pushes of the rest come first on the left.
    refine (ih ret₂ e.newEpoch).trans ?_
    refine ((h₂.trans (h₁.append_left enters)).append_left _).trans ?_
    rw [List.perm_iff_count]
    intro a
    simp only [List.count_append]
    omega

/-- `build_for_compaction` holds, up to order, the pushes of every SST. -/
theorem flatView_foldl_addMonotonicDeletes (ssts : List (List MonotonicDeleteEvent))
    (ret : EnterExitMap) :
    (SortedMap.flatView entryEvents
        (ssts.foldl (fun ret l => addMonotonicDeletes ret HummockEpoch.MAX l) ret)).Perm
      (ssts.flatMap (pushedEvents HummockEpoch.MAX) ++ SortedMap.flatView entryEvents ret) := by
  induction ssts generalizing ret with
  | nil => rfl
  | cons l ssts ih =>
    rw [List.foldl_cons, List.flatMap_cons]
    refine (ih _).trans ?_
    refine ((flatView_addMonotonicDeletes ret _ l).append_left _).trans ?_
    rw [List.perm_iff_count]
    intro a
    simp only [List.count_append]
    omega

/-! ## The intervals of one SST -/

theorem IsMonotonicEvents.tail {a : MonotonicDeleteEvent} {l : List MonotonicDeleteEvent}
    (h : IsMonotonicEvents (a :: l)) : IsMonotonicEvents l := by
  refine ⟨h.sorted.of_cons, fun e he => h.last_max e ?_⟩
  cases l with
  | nil => simp at he
  | cons b l => rwa [List.getLast?_cons_cons]

theorem lo_of_mem_monotonicIntervals {a : MonotonicDeleteEvent} {l : List MonotonicDeleteEvent}
    (hl : (a :: l).Pairwise fun x y => x.eventKey < y.eventKey)
    {t : Sweep.Interval PointRange HummockEpoch} (ht : t ∈ monotonicIntervals (a :: l)) :
    a.eventKey ≤ t.lo := by
  induction l generalizing a with
  | nil => simp [monotonicIntervals] at ht
  | cons b l ih =>
    have hab : a.eventKey < b.eventKey := List.rel_of_pairwise_cons hl List.mem_cons_self
    rw [monotonicIntervals, List.mem_append] at ht
    rcases ht with ht | ht
    · split at ht <;> simp_all
    · exact hab.le.trans (ih hl.of_cons ht)

theorem lo_lt_hi_of_mem_monotonicIntervals {l : List MonotonicDeleteEvent}
    (hl : l.Pairwise fun x y => x.eventKey < y.eventKey)
    {t : Sweep.Interval PointRange HummockEpoch} (ht : t ∈ monotonicIntervals l) : t.lo < t.hi := by
  induction l with
  | nil => simp [monotonicIntervals] at ht
  | cons a l ih =>
    cases l with
    | nil => simp [monotonicIntervals] at ht
    | cons b l =>
      rw [monotonicIntervals, List.mem_append] at ht
      rcases ht with ht | ht
      · have hab : a.eventKey < b.eventKey := List.rel_of_pairwise_cons hl List.mem_cons_self
        split at ht <;> simp_all
      · exact ih hl.of_cons ht

/-- The intervals of one SST never overlap. -/
theorem monotonicIntervals_pairwise_disjoint {l : List MonotonicDeleteEvent}
    (hl : l.Pairwise fun x y => x.eventKey < y.eventKey) :
    (monotonicIntervals l).Pairwise fun t u => ∀ x, t.Contains x → ¬ u.Contains x := by
  induction l with
  | nil => simp [monotonicIntervals]
  | cons a l ih =>
    cases l with
    | nil => simp [monotonicIntervals]
    | cons b l =>
      -- The first interval ends at `b`, where every later one starts or after.
      have hlater : ∀ u ∈ monotonicIntervals (b :: l), b.eventKey ≤ u.lo := fun u hu =>
        lo_of_mem_monotonicIntervals hl.of_cons hu
      rw [monotonicIntervals, List.pairwise_append]
      refine ⟨by split <;> simp, ih hl.of_cons, fun t ht u hu x htx hux => ?_⟩
      have hthi : t.hi = b.eventKey := by split at ht <;> simp_all
      exact absurd (htx.2.trans_le (hthi ▸ hlater u hu)) (not_lt.mpr hux.1)

/-- The intervals of an SST containing `p` carry the epoch its events give `p`,
unless that is `MAX`. -/
theorem mem_activeLabels_monotonicIntervals {l : List MonotonicDeleteEvent}
    (hl : IsMonotonicEvents l) (p : PointRange) (x : HummockEpoch) :
    x ∈ Sweep.activeLabels (monotonicIntervals l) p ↔ epochAt l p = x ∧ x ≠ HummockEpoch.MAX := by
  induction l with
  | nil => simp [monotonicIntervals, eq_comm]
  | cons a l ih =>
    cases l with
    | nil =>
      have ha : a.newEpoch = HummockEpoch.MAX := hl.last_max a (by simp)
      by_cases hp : a.eventKey ≤ p
      · simp [monotonicIntervals, epochAt_singleton hp, ha, eq_comm]
      · simp [monotonicIntervals, epochAt_cons_of_not_le hp, eq_comm]
    | cons b l =>
      have hab : a.eventKey < b.eventKey := List.rel_of_pairwise_cons hl.sorted List.mem_cons_self
      have hlater : ∀ u ∈ monotonicIntervals (b :: l), b.eventKey ≤ u.lo := fun u hu =>
        lo_of_mem_monotonicIntervals hl.sorted.of_cons hu
      rw [monotonicIntervals, Sweep.activeLabels_append]
      -- Where `p` lies: before `a`, in `[a, b)`, or at `b` or after.
      by_cases hpa : a.eventKey ≤ p
      · by_cases hpb : b.eventKey ≤ p
        · have hfirst : Sweep.activeLabels
              (if a.newEpoch ≠ HummockEpoch.MAX then [⟨a.eventKey, b.eventKey, a.newEpoch⟩] else [])
              p = ∅ :=
            Sweep.activeLabels_eq_empty fun t ht htp => by
              have hthi : t.hi = b.eventKey := by split at ht <;> simp_all
              have hlt : p < b.eventKey := hthi ▸ htp.2
              exact absurd hpb (not_le.mpr hlt)
          rw [hfirst, Finset.empty_union, ih hl.tail, epochAt_cons_cons_of_le hpa hpb]
        · have hrest : Sweep.activeLabels (monotonicIntervals (b :: l)) p = ∅ :=
            Sweep.activeLabels_eq_empty fun u hu hup =>
              hpb ((hlater u hu).trans hup.1)
          rw [hrest, Finset.union_empty, epochAt_cons_cons_of_not_le hpa hpb]
          by_cases hmax : a.newEpoch = HummockEpoch.MAX
          · simp [hmax, eq_comm]
          · simp only [ne_eq, hmax, not_false_eq_true, ↓reduceIte, Sweep.mem_activeLabels,
              List.mem_singleton, exists_eq_left, Sweep.Interval.Contains, hpa, not_le.mp hpb,
              and_self, true_and, eq_comm]
            constructor
            · rintro rfl
              exact ⟨rfl, hmax⟩
            · exact fun h => h.1
      · have hnone : ∀ t ∈ monotonicIntervals (a :: b :: l), ¬ t.Contains p := fun t ht htp =>
          hpa ((lo_of_mem_monotonicIntervals hl.sorted ht).trans htp.1)
        rw [← Sweep.activeLabels_append, ← monotonicIntervals, Sweep.activeLabels_eq_empty hnone,
          epochAt_cons_of_not_le hpa]
        simp [eq_comm]

/-! ## The merged events are a sweep -/

/-- No two SSTs give one point the same epoch, `MAX` apart: the condition on the
`epochs` of `CompactionDeleteRangeIterator`, over points. -/
def EpochsDisjoint (ssts : List (List MonotonicDeleteEvent)) : Prop :=
  ssts.Pairwise fun l₁ l₂ => ∀ p, epochAt l₁ p = epochAt l₂ p → epochAt l₁ p = HummockEpoch.MAX

theorem mem_activeLabels_flatMap {ssts : List (List MonotonicDeleteEvent)}
    (hssts : ∀ l ∈ ssts, IsMonotonicEvents l) (p : PointRange) (x : HummockEpoch) :
    x ∈ Sweep.activeLabels (ssts.flatMap monotonicIntervals) p ↔
      ∃ l ∈ ssts, epochAt l p = x ∧ x ≠ HummockEpoch.MAX := by
  simp only [Sweep.mem_activeLabels, List.mem_flatMap]
  constructor
  · rintro ⟨t, ⟨l, hl, ht⟩, htp, rfl⟩
    exact ⟨l, hl, (mem_activeLabels_monotonicIntervals (hssts l hl) p t.label).mp
      (Sweep.mem_activeLabels.mpr ⟨t, ht, htp, rfl⟩)⟩
  · rintro ⟨l, hl, hx⟩
    obtain ⟨t, ht, htp, rfl⟩ := Sweep.mem_activeLabels.mp
      ((mem_activeLabels_monotonicIntervals (hssts l hl) p x).mpr hx)
    exact ⟨t, ⟨l, hl, ht⟩, htp, rfl⟩

/-- Intervals of one epoch never share a point: within an SST none overlap, and
across SSTs `EpochsDisjoint` forbids it. -/
theorem labelsSeparate_flatMap {ssts : List (List MonotonicDeleteEvent)}
    (hssts : ∀ l ∈ ssts, IsMonotonicEvents l) (hsep : EpochsDisjoint ssts) :
    Sweep.LabelsSeparate (ssts.flatMap monotonicIntervals) := by
  rw [Sweep.LabelsSeparate, List.pairwise_flatMap]
  refine ⟨fun l hl => ?_, hsep.imp_of_mem fun hl₁ hl₂ h t ht u hu hlabel x htx hux => ?_⟩
  · refine List.Pairwise.imp ?_ (monotonicIntervals_pairwise_disjoint (hssts l hl).sorted)
    exact fun h _ => h
  · have h₁ := (mem_activeLabels_monotonicIntervals (hssts _ hl₁) x t.label).mp
      (Sweep.mem_activeLabels.mpr ⟨t, ht, htx, rfl⟩)
    have h₂ := (mem_activeLabels_monotonicIntervals (hssts _ hl₂) x u.label).mp
      (Sweep.mem_activeLabels.mpr ⟨u, hu, hux, rfl⟩)
    have hmax := h x (by rw [h₁.1, h₂.1, hlabel])
    exact h₁.2 (h₁.1.symm.trans hmax)

theorem buildForCompaction_sorted (b : CompactionDeleteRangesBuilder) :
    b.buildForCompaction.events.Pairwise fun x y => x.1 < y.1 :=
  SortedMap.sorted _

/-- The sweep events of events in strict key order are in sweep order. -/
theorem flatMap_sweepEvents_sorted {events : List CompactionDeleteRangeEvent}
    (hsorted : events.Pairwise fun x y => x.1 < y.1) :
    (events.flatMap sweepEvents).Pairwise fun a b => a.pos ≤ b.pos := by
  rw [List.pairwise_flatMap]
  refine ⟨fun ev _ => ?_, hsorted.imp fun hlt x hx y hy => ?_⟩
  · -- Within one event: one key, exits before entries.
    simp only [sweepEvents, List.pairwise_append, List.pairwise_map, List.mem_map]
    refine ⟨List.pairwise_of_forall fun _ _ => le_rfl, List.pairwise_of_forall fun _ _ => le_rfl, ?_⟩
    rintro _ ⟨_, _, rfl⟩ _ ⟨_, _, rfl⟩
    exact Prod.Lex.toLex_le_toLex.mpr (.inr ⟨rfl, Bool.false_le _⟩)
  · -- Across events: the keys already decide.
    have hkey : x.key < y.key := by
      rw [key_of_mem_sweepEvents hx, key_of_mem_sweepEvents hy]
      exact hlt
    exact (Prod.Lex.toLex_lt_toLex.mpr (.inl hkey)).le

/-- The sweep events of the merged events are, up to order, those of every
interval of every SST. -/
theorem buildForCompaction_perm {ssts : List (List MonotonicDeleteEvent)}
    (hssts : ∀ l ∈ ssts, IsMonotonicEvents l) :
    ((CompactionDeleteRangesBuilder.buildForCompaction ⟨ssts⟩).events.flatMap sweepEvents).Perm
      (Sweep.events (ssts.flatMap monotonicIntervals)) := by
  have hview := flatView_foldl_addMonotonicDeletes ssts SortedMap.empty
  have hpush : ssts.flatMap (pushedEvents HummockEpoch.MAX) =
      Sweep.events (ssts.flatMap monotonicIntervals) := by
    rw [Sweep.events, List.flatMap_assoc]
    exact List.flatMap_congr fun l hl => pushedEvents_eq_events (hssts l hl).last_max
  have hempty : SortedMap.flatView entryEvents (SortedMap.empty : EnterExitMap) = [] := rfl
  rw [hpush, hempty, List.append_nil] at hview
  exact hview

/-- After the merged events up to `p`, the active epochs are those the SSTs give
`p`. -/
theorem foldl_applyEvent_buildForCompaction {ssts : List (List MonotonicDeleteEvent)}
    (hssts : ∀ l ∈ ssts, IsMonotonicEvents l) (hsep : EpochsDisjoint ssts) (p : PointRange) :
    ((CompactionDeleteRangesBuilder.buildForCompaction ⟨ssts⟩).events.takeWhile
        fun ev => ev.1 ≤ p).foldl applyEvent ∅ =
      Sweep.activeLabels (ssts.flatMap monotonicIntervals) p := by
  have hsorted := buildForCompaction_sorted ⟨ssts⟩
  have hpos := flatMap_sweepEvents_sorted hsorted
  have hne : ∀ t ∈ ssts.flatMap monotonicIntervals, t.lo < t.hi := by
    intro t ht
    obtain ⟨l, hl, ht⟩ := List.mem_flatMap.mp ht
    exact lo_lt_hi_of_mem_monotonicIntervals (hssts l hl).sorted ht
  rw [foldl_applyEvent_takeWhile (hsorted.imp le_of_lt) p ∅,
    ← Sweep.takeWhile_eq_filter_of_pairwise _ p (hpos.imp Sweep.Event.key_le_of_pos_le)]
  exact Sweep.foldl_apply_takeWhile hne (labelsSeparate_flatMap hssts hsep)
    (buildForCompaction_perm hssts) hpos p

/-! ## The lazy cursor -/

namespace CompactionDeleteRangeIterator

/-- The iterator has applied exactly the events before its index. -/
def Replayed (it : CompactionDeleteRangeIterator) : Prop :=
  it.epochs = (it.events.events.take it.seekIdx).foldl applyEvent ∅

/-- From an index at or below the partition point `n` of `target`, the loop stops
at `n`, having applied the events in between. -/
theorem advanceLoop_eq (target : PointRange) (fuel : ℕ) (it : CompactionDeleteRangeIterator)
    {n : ℕ} (hn : n = it.events.events.partitionPoint fun e => e.1 ≤ target)
    (hidx : it.seekIdx ≤ n) (hfuel : n - it.seekIdx ≤ fuel) :
    advanceLoop target fuel it =
      { it with
        seekIdx := n
        epochs := ((it.events.events.take n).drop it.seekIdx).foldl applyEvent it.epochs } := by
  have hlen : n ≤ it.events.events.length := hn ▸ List.partitionPoint_le_length _ _
  induction fuel generalizing it with
  | zero =>
    have h : it.seekIdx = n := by omega
    have hdrop : (it.events.events.take n).drop it.seekIdx = [] :=
      List.drop_eq_nil_of_le (by simp [h])
    rw [advanceLoop, hdrop, List.foldl_nil, ← h]
  | succ fuel ih =>
    by_cases hlt : it.seekIdx < n
    · -- The event at the index is at or before `target`: apply it and go on.
      obtain ⟨ev, hev, hp⟩ := List.getElem?_of_lt_partitionPoint (hn ▸ hlt)
      have hp' : ev.1 ≤ target := of_decide_eq_true hp
      have hcons : (it.events.events.take n).drop it.seekIdx =
          ev :: (it.events.events.take n).drop (it.seekIdx + 1) := by
        have hlt' : it.seekIdx < (it.events.events.take n).length := by
          rw [List.length_take]
          omega
        rw [List.drop_eq_getElem_cons hlt', List.getElem_take]
        congr
        exact Option.some.inj ((List.getElem?_eq_getElem _).symm.trans hev)
      rw [advanceLoop, hev]
      simp only [hp', ↓reduceIte]
      rw [ih { it with seekIdx := it.seekIdx + 1, epochs := applyEvent it.epochs ev } hn
        (show it.seekIdx + 1 ≤ n by omega) (show n - (it.seekIdx + 1) ≤ fuel by omega) hlen,
        hcons, List.foldl_cons]
    · -- At the partition point the loop stops.
      have h : it.seekIdx = n := by omega
      have hdrop : (it.events.events.take n).drop it.seekIdx = [] :=
        List.drop_eq_nil_of_le (by simp [h])
      rw [hdrop, List.foldl_nil, ← h, advanceLoop]
      cases hev : it.events.events[it.seekIdx]? with
      | none => rfl
      | some ev =>
        have hev' : it.events.events[it.events.events.partitionPoint
            fun e => e.1 ≤ target]? = some ev := by
          rw [← hn, ← h]
          exact hev
        have hnp := List.getElem?_partitionPoint _ _ ev hev'
        simp only [decide_eq_true_eq] at hnp
        simp [hnp]

theorem advance_eq (it : CompactionDeleteRangeIterator) (target : PointRange) {n : ℕ}
    (hn : n = it.events.events.partitionPoint fun e => e.1 ≤ target) (hidx : it.seekIdx ≤ n) :
    it.advance target =
      { it with
        seekIdx := n
        epochs := ((it.events.events.take n).drop it.seekIdx).foldl applyEvent it.epochs } := by
  have hlen : n ≤ it.events.events.length := hn ▸ List.partitionPoint_le_length _ _
  exact advanceLoop_eq target _ it hn hidx (by omega)

theorem replayed_iter (r : CompactionDeleteRanges) : r.iter.Replayed := rfl

/-- The loop keeps the iterator replayed, and leaves it with the events at keys
up to `target` applied. -/
theorem advance_replayed {it : CompactionDeleteRangeIterator} (hrep : it.Replayed)
    (target : PointRange) {n : ℕ} (hn : n = it.events.events.partitionPoint fun e => e.1 ≤ target)
    (hidx : it.seekIdx ≤ n) :
    (it.advance target).events = it.events ∧ (it.advance target).seekIdx = n ∧
      (it.advance target).epochs =
        (it.events.events.takeWhile fun e => e.1 ≤ target).foldl applyEvent ∅ := by
  rw [advance_eq it target hn hidx]
  refine ⟨rfl, rfl, ?_⟩
  -- The events before the old index, then those up to the new one.
  have hsplit : it.events.events.take n =
      it.events.events.take it.seekIdx ++ (it.events.events.take n).drop it.seekIdx := by
    conv_lhs => rw [← List.take_append_drop it.seekIdx (it.events.events.take n)]
    rw [List.take_take, min_eq_left hidx]
  simp only
  rw [hrep, ← List.foldl_append, ← hsplit, hn, List.take_partitionPoint]

end CompactionDeleteRangeIterator

open CompactionDeleteRangeIterator in
/-- Successive queries at non-decreasing keys read each answer from the events at
keys up to the query. -/
theorem earliestDeletes_eq {it : CompactionDeleteRangeIterator} (hrep : it.Replayed)
    {queries : List (UserKey × HummockEpoch)} (hq : queries.Pairwise fun a b => a.1 ≤ b.1)
    (hidx : ∀ q ∈ queries,
      it.seekIdx ≤ it.events.events.partitionPoint fun e => e.1 ≤ PointRange.fromUserKey q.1 false) :
    earliestDeletes it queries = queries.map fun q =>
      firstEpoch (((it.events.events.takeWhile fun e => e.1 ≤ PointRange.fromUserKey q.1 false).foldl
        applyEvent ∅).filter (q.2 ≤ ·)) := by
  induction queries generalizing it with
  | nil => rfl
  | cons q queries ih =>
    obtain ⟨k, epoch⟩ := q
    obtain ⟨hev, hidx', hepochs⟩ := advance_replayed hrep (PointRange.fromUserKey k false) rfl
      (hidx (k, epoch) List.mem_cons_self)
    have hrep' : (it.advance (PointRange.fromUserKey k false)).Replayed := by
      rw [Replayed, hepochs, hev, hidx', List.take_partitionPoint]
    -- A later query has a later partition point: the cursor never has to go back.
    have hnext : ∀ q ∈ queries, (it.advance (PointRange.fromUserKey k false)).seekIdx ≤
        (it.advance (PointRange.fromUserKey k false)).events.events.partitionPoint
          fun e => e.1 ≤ PointRange.fromUserKey q.1 false := by
      intro q hq'
      have hkq : PointRange.fromUserKey k false ≤ PointRange.fromUserKey q.1 false :=
        PointRange.fromUserKey_mono (List.rel_of_pairwise_cons hq hq') false
      rw [hidx', hev]
      exact List.partitionPoint_mono (fun e he => decide_eq_true
        ((of_decide_eq_true he).trans hkq)) _
    simp only [earliestDeletes, earliestDeleteWhichCanSeeKey, List.map_cons]
    rw [ih hrep' hq.of_cons hnext, hev, earliestDeleteSince, hepochs]


/-! ## Compaction delete-range merging -/

/-- Merged from SSTs that never give one point the same epoch, the lazy cursor
answers queries at non-decreasing keys with the smallest epoch at least the
query's that some SST gives the key (`MAX` if none). -/
theorem earliestDeletes_buildForCompaction {ssts : List (List MonotonicDeleteEvent)}
    (hssts : ∀ l ∈ ssts, IsMonotonicEvents l) (hsep : EpochsDisjoint ssts)
    {queries : List (UserKey × HummockEpoch)} (hq : queries.Pairwise fun a b => a.1 ≤ b.1) :
    earliestDeletes (CompactionDeleteRangesBuilder.buildForCompaction ⟨ssts⟩).iter queries =
      queries.map fun q => minDeleteEpochSince ssts q.1 q.2 := by
  rw [earliestDeletes_eq (CompactionDeleteRangeIterator.replayed_iter _) hq
    fun _ _ => Nat.zero_le _]
  refine List.map_congr_left fun q _ => ?_
  rw [CompactionDeleteRanges.iter, foldl_applyEvent_buildForCompaction hssts hsep,
    minDeleteEpochSince]
  -- The two sets differ at most by `MAX`.
  refine firstEpoch_congr fun x hx => ?_
  simp only [Finset.mem_filter, mem_activeLabels_flatMap hssts, List.mem_toFinset, List.mem_map]
  constructor
  · rintro ⟨⟨l, hl, hlx, -⟩, hle⟩
    exact ⟨⟨l, hl, hlx⟩, hle⟩
  · rintro ⟨⟨l, hl, hlx⟩, hle⟩
    exact ⟨⟨l, hl, hlx, hx⟩, hle⟩

theorem earliestDeletes_buildForCompaction_two_ssts :
    (∀ l ∈ [[⟨⟨⟨1, [1]⟩, false⟩, 5⟩, ⟨⟨⟨1, [3]⟩, false⟩, HummockEpoch.MAX⟩],
        [⟨⟨⟨1, [2]⟩, false⟩, 3⟩, ⟨⟨⟨1, [4]⟩, false⟩, HummockEpoch.MAX⟩]],
        IsMonotonicEvents l) ∧
      EpochsDisjoint [[⟨⟨⟨1, [1]⟩, false⟩, 5⟩, ⟨⟨⟨1, [3]⟩, false⟩, HummockEpoch.MAX⟩],
        [⟨⟨⟨1, [2]⟩, false⟩, 3⟩, ⟨⟨⟨1, [4]⟩, false⟩, HummockEpoch.MAX⟩]] ∧
      earliestDeletes (CompactionDeleteRangesBuilder.buildForCompaction
          ⟨[[⟨⟨⟨1, [1]⟩, false⟩, 5⟩, ⟨⟨⟨1, [3]⟩, false⟩, HummockEpoch.MAX⟩],
            [⟨⟨⟨1, [2]⟩, false⟩, 3⟩, ⟨⟨⟨1, [4]⟩, false⟩, HummockEpoch.MAX⟩]]⟩).iter
          [(⟨1, [2]⟩, 0), (⟨1, [2]⟩, 4), (⟨1, [3]⟩, 4)] =
        [(⟨1, [2]⟩, 0), (⟨1, [2]⟩, 4), (⟨1, [3]⟩, 4)].map fun q =>
          minDeleteEpochSince [[⟨⟨⟨1, [1]⟩, false⟩, 5⟩, ⟨⟨⟨1, [3]⟩, false⟩, HummockEpoch.MAX⟩],
            [⟨⟨⟨1, [2]⟩, false⟩, 3⟩, ⟨⟨⟨1, [4]⟩, false⟩, HummockEpoch.MAX⟩]] q.1 q.2 := by
  have hssts : ∀ l ∈ [[⟨⟨⟨1, [1]⟩, false⟩, 5⟩, ⟨⟨⟨1, [3]⟩, false⟩, HummockEpoch.MAX⟩],
      [⟨⟨⟨1, [2]⟩, false⟩, 3⟩, ⟨⟨⟨1, [4]⟩, false⟩, HummockEpoch.MAX⟩]], IsMonotonicEvents l := by
    intro l hl
    simp only [List.mem_cons, List.not_mem_nil, or_false] at hl
    rcases hl with rfl | rfl <;> exact ⟨by decide, by decide⟩
  -- The SSTs carry the epochs `5` and `3`: they can only agree on `MAX`.
  have hsep : EpochsDisjoint [[⟨⟨⟨1, [1]⟩, false⟩, 5⟩, ⟨⟨⟨1, [3]⟩, false⟩, HummockEpoch.MAX⟩],
      [⟨⟨⟨1, [2]⟩, false⟩, 3⟩, ⟨⟨⟨1, [4]⟩, false⟩, HummockEpoch.MAX⟩]] := by
    refine List.pairwise_pair.mpr fun p h => ?_
    rcases epochAt_eq_max_or_mem [⟨⟨⟨1, [1]⟩, false⟩, 5⟩, ⟨⟨⟨1, [3]⟩, false⟩, HummockEpoch.MAX⟩] p
      with h₁ | ⟨e₁, he₁, h₁⟩
    · exact h₁
    rcases epochAt_eq_max_or_mem [⟨⟨⟨1, [2]⟩, false⟩, 3⟩, ⟨⟨⟨1, [4]⟩, false⟩, HummockEpoch.MAX⟩] p
      with h₂ | ⟨e₂, he₂, h₂⟩
    · exact h.trans h₂
    simp only [List.mem_cons, List.not_mem_nil, or_false] at he₁ he₂
    rcases he₁ with rfl | rfl <;> rcases he₂ with rfl | rfl <;> simp_all
  exact ⟨hssts, hsep, earliestDeletes_buildForCompaction hssts hsep (by decide)⟩

/-- Over user keys alone the condition is too weak. The first SST gives epoch `5`
to the points between `[1]` (excluded) and `[1, 0]`, where no user key lies; the
second gives `5` to every key after `[1]` up to `[3]`. No user key gets `5` from
both, yet the exit of the first SST's interval at `[1, 0]` removes the epoch the
second still needs, and the key `[1, 0]` is answered `MAX` instead of `5`. -/
theorem earliestDeletes_buildForCompaction_user_key_overlap :
    (∀ l ∈ [[⟨⟨⟨1, [1]⟩, true⟩, 5⟩, ⟨⟨⟨1, [1, 0]⟩, false⟩, HummockEpoch.MAX⟩],
        [⟨⟨⟨1, [1]⟩, true⟩, 5⟩, ⟨⟨⟨1, [3]⟩, false⟩, HummockEpoch.MAX⟩]],
        IsMonotonicEvents l) ∧
      (∀ k : UserKey,
        [[⟨⟨⟨1, [1]⟩, true⟩, 5⟩, ⟨⟨⟨1, [1, 0]⟩, false⟩, HummockEpoch.MAX⟩],
          [⟨⟨⟨1, [1]⟩, true⟩, 5⟩, ⟨⟨⟨1, [3]⟩, false⟩, HummockEpoch.MAX⟩]].Pairwise fun l₁ l₂ =>
          epochAt l₁ (PointRange.fromUserKey k false) = epochAt l₂ (PointRange.fromUserKey k false) →
            epochAt l₁ (PointRange.fromUserKey k false) = HummockEpoch.MAX) ∧
      earliestDeletes (CompactionDeleteRangesBuilder.buildForCompaction
          ⟨[[⟨⟨⟨1, [1]⟩, true⟩, 5⟩, ⟨⟨⟨1, [1, 0]⟩, false⟩, HummockEpoch.MAX⟩],
            [⟨⟨⟨1, [1]⟩, true⟩, 5⟩, ⟨⟨⟨1, [3]⟩, false⟩, HummockEpoch.MAX⟩]]⟩).iter
          [(⟨1, [1, 0]⟩, 0)] = [HummockEpoch.MAX] ∧
      minDeleteEpochSince [[⟨⟨⟨1, [1]⟩, true⟩, 5⟩, ⟨⟨⟨1, [1, 0]⟩, false⟩, HummockEpoch.MAX⟩],
          [⟨⟨⟨1, [1]⟩, true⟩, 5⟩, ⟨⟨⟨1, [3]⟩, false⟩, HummockEpoch.MAX⟩]] ⟨1, [1, 0]⟩ 0 = 5 := by
  refine ⟨?_, fun k => List.pairwise_pair.mpr fun _ => ?_, by decide, by decide⟩
  · intro l hl
    simp only [List.mem_cons, List.not_mem_nil, or_false] at hl
    rcases hl with rfl | rfl <;> exact ⟨by decide, by decide⟩
  · -- The first SST gives every user key `MAX`: a key past `[1]` is at `[1, 0]` or after.
    by_cases ha : (⟨⟨1, [1]⟩, true⟩ : PointRange) ≤ PointRange.fromUserKey k false
    · have hk : (⟨1, [1]⟩ : UserKey) < k := by
        rcases PointRange.le_iff.mp ha with h | ⟨-, h⟩
        · exact h
        · exact absurd h (by simp [PointRange.fromUserKey])
      have hb : (⟨⟨1, [1, 0]⟩, false⟩ : PointRange) ≤ PointRange.fromUserKey k false :=
        PointRange.fromUserKey_mono (not_lt.mp (UserKey.not_lt_append_zero hk)) false
      rw [epochAt_cons_cons_of_le ha hb, epochAt_singleton hb]
    · exact epochAt_cons_of_not_le ha _

end RisingWave.Hummock
