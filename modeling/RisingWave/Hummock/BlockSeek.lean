import Mathlib
import RisingWave.Hummock.BlockRoundTrip

/-!
# Seeking in a block

`BlockIterator::seek` and `seek_le` (`sstable/block_iterator.rs`). Both find the last
restart point whose key is at most the probe by a partition point over the restart
points (the first one when there is none), seek to it, and move forward while the key is
below the probe; `seek_le` then goes to the last entry when it has run off the end, and
back while the key is above the probe.

Over a block that holds a well-formed layout whose keys ascend, `seek` leaves the
iterator on the first entry at or above the probe and `seek_le` on the last entry at or
below it, each invalid when there is none (`AtFirstGe`, `AtLastLe`). From the keys and
values given to the builder this reads: forward from `seek`, the entries at or above the
probe; backward from `seek_le`, those at or below it (`block_seek`). The restart offsets
are `u32`: past `2 ^ 32` bytes the restart points wrap to the first entry and `seek` of
the first key panics (`block_seek_wraps`).
-/

namespace RisingWave.Hummock

open ByteCodec ByteBuf

/-- `slice::partition_point` by its contract: the length of the prefix on which the
predicate holds, the predicate holding on a prefix. The binary search calls the
predicate on some of the elements this reads, and panics where it does. -/
def partitionPoint {α : Type} (pred : α → Option Bool) : List α → Option ℕ
  | [] => some 0
  | x :: xs => do
    if (← pred x) then (· + 1) <$> partitionPoint pred xs else pure 0

namespace BlockIterator

/-- The predicate of `search_restart_point_index_by_key`: the key at the restart point `rp`
is at most `key`. -/
def restartKeyLe (self : BlockIterator) (key : FullKey) (rp : RestartPoint) : Option Bool := do
  let pfx ← self.decodePrefixAt rp.offset.toNat rp.keyLenType rp.valueLenType
  let probeKey ← slice self.data pfx.diffKeyRange
  let fullProbeKey ← FullKey.fromSliceWithoutTableId self.block.tableId probeKey
  pure (match FullKey.cmp fullProbeKey key with
    | .lt | .eq => true
    | .gt => false)

/-- `search_restart_point_index_by_key`; `saturating_sub(1)` is the subtraction of `ℕ`. -/
def searchRestartPointIndexByKey (self : BlockIterator) (key : FullKey) : Option ℕ := do
  let point ← partitionPoint (self.restartKeyLe key) self.block.restartPoints
  pure (point - 1)

/-- `seek_restart_point_by_key`. -/
def seekRestartPointByKey (self : BlockIterator) (key : FullKey) : Option BlockIterator := do
  let index ← self.searchRestartPointIndexByKey key
  self.seekRestartPointByIndex index

/-- `next_until_key`: forward while the key is below `key`. Each round moves past an
entry, so `fuel` rounds for a block of `fuel` bytes are enough. -/
def nextUntilKey (key : FullKey) : ℕ → BlockIterator → Option BlockIterator
  | 0, self => some self
  | fuel + 1, self =>
    if self.isValid then do
      let k ← self.key?
      if FullKey.cmp k key = .lt then self.nextInner >>= nextUntilKey key fuel else pure self
    else some self

/-- `prev_until_key`: back while the key is above `key`. -/
def prevUntilKey (key : FullKey) : ℕ → BlockIterator → Option BlockIterator
  | 0, self => some self
  | fuel + 1, self =>
    if self.isValid then do
      let k ← self.key?
      if FullKey.cmp k key = .gt then self.prevInner >>= prevUntilKey key fuel else pure self
    else some self

/-- `BlockIterator::seek`. -/
def seek (self : BlockIterator) (key : FullKey) : Option BlockIterator := do
  let self ← self.seekRestartPointByKey key
  nextUntilKey key self.block.dataLen self

/-- `BlockIterator::seek_le`. -/
def seekLe (self : BlockIterator) (key : FullKey) : Option BlockIterator := do
  let self ← self.seekRestartPointByKey key
  let self ← nextUntilKey key self.block.dataLen self
  let self ← if !self.isValid then self.seekToLast else pure self
  prevUntilKey key self.block.dataLen self

/-! ## Where the seeks leave the iterator -/

/-- `FullKey::cmp` at most `Equal` is `≤`. -/
theorem cmp_le_eq_decide (a b : FullKey) :
    (match FullKey.cmp a b with
      | .lt | .eq => true
      | .gt => false) = decide (a ≤ b) := by
  rw [FullKey.cmp_eq_compare]
  rcases lt_trichotomy a b with h | rfl | h
  · simp [compare_lt_iff_lt.mpr h, h.le]
  · simp
  · simp [compare_gt_iff_gt.mpr h, not_le.mpr h]

/-- The iterator is on the first entry of `L` whose key is at least `q`, or invalid when
there is none. -/
def AtFirstGe (blk : Block) (L : List EntryLayout) (keyOf : EntryLayout → FullKey) (q : FullKey)
    (it : BlockIterator) : Prop :=
  (∃ pre e post, L = pre ++ e :: post ∧ q ≤ keyOf e ∧ (∀ x ∈ pre, keyOf x < q) ∧
    it = atEntry blk pre e) ∨
  (it.block = blk ∧ it.isValid = false ∧ ∀ x ∈ L, keyOf x < q)

/-- The iterator is on the last entry of `L` whose key is at most `q`, or invalid when there
is none. -/
def AtLastLe (blk : Block) (L : List EntryLayout) (keyOf : EntryLayout → FullKey) (q : FullKey)
    (it : BlockIterator) : Prop :=
  (∃ pre e post, L = pre ++ e :: post ∧ keyOf e ≤ q ∧ (∀ x ∈ post, q < keyOf x) ∧
    it = atEntry blk pre e) ∨
  (it.block = blk ∧ it.isValid = false ∧ ∀ x ∈ L, q < keyOf x)

attribute [local simp] nextUntilKey in
theorem nextUntilKey_of_isValid_eq_false (q : FullKey) (fuel : ℕ) {it : BlockIterator}
    (h : it.isValid = false) : nextUntilKey q fuel it = some it := by
  cases fuel <;> simp [nextUntilKey, h]

attribute [local simp] prevUntilKey in
theorem prevUntilKey_of_isValid_eq_false (q : FullKey) (fuel : ℕ) {it : BlockIterator}
    (h : it.isValid = false) : prevUntilKey q fuel it = some it := by
  cases fuel <;> simp [prevUntilKey, h]

theorem nextUntilKey_of_cmp_lt {q k : FullKey} (fuel : ℕ) {it : BlockIterator}
    (hv : it.isValid = true) (hk : it.key? = some k) (hlt : FullKey.cmp k q = .lt) :
    nextUntilKey q (fuel + 1) it = it.nextInner >>= nextUntilKey q fuel := by
  simp [nextUntilKey, hv, hk, hlt]

theorem nextUntilKey_of_key?_eq_none (q : FullKey) (fuel : ℕ) {it : BlockIterator}
    (hv : it.isValid = true) (hk : it.key? = none) : nextUntilKey q (fuel + 1) it = none := by
  simp [nextUntilKey, hv, hk]

/-- `seek_restart_point_by_index` sets every field but the block. -/
theorem seekRestartPointByIndex_of_block_eq {it : BlockIterator} {blk : Block} (h : it.block = blk)
    (index : ℕ) :
    it.seekRestartPointByIndex index = (BlockIterator.new blk).seekRestartPointByIndex index := by
  cases it
  cases h
  rfl

theorem seekToLast_of_block_eq {it : BlockIterator} {blk : Block} (h : it.block = blk) :
    it.seekToLast = (BlockIterator.new blk).seekToLast := by
  unfold seekToLast
  rw [seekRestartPointByIndex_of_block_eq h, h]
  rfl

/-- A list whose every entry reads as `f` of it reads as its map by `f`. -/
theorem mapM_read_eq_map {tid : TableId} {l : List EntryLayout} {f : EntryLayout → FullKey × List UInt8}
    (h : ∀ e ∈ l, e.read tid = some (f e)) : l.mapM (EntryLayout.read tid) = some (l.map f) := by
  induction l with
  | nil => rfl
  | cons e l ih =>
    simp [List.mapM_cons, h e List.mem_cons_self, ih fun x hx => h x (List.mem_cons_of_mem e hx)]

section Seek

variable {blk : Block} {L : List EntryLayout} {keyOf : EntryLayout → FullKey}
  (hblk : blk.Holds L) (hwf : LayoutWF L) (hfits : (layoutBytes L).length ≤ 2 ^ 32)
  (hkey : ∀ e ∈ L, FullKey.fromSliceWithoutTableId blk.tableId e.key = some (keyOf e))
include hblk hkey

/-- The iterator at an entry reads the entry's key. -/
theorem key?_atEntry {pre post : List EntryLayout} {e : EntryLayout} (hL : L = pre ++ e :: post) :
    (atEntry blk pre e).key? = some (keyOf e) := by
  rw [key?, if_pos (isValid_atEntry hblk hL), atEntry_key, atEntry_block]
  exact hkey e (by simp [hL])

omit hblk in
theorem read_eq (e : EntryLayout) (he : e ∈ L) : e.read blk.tableId = some (keyOf e, e.value) := by
  simp [EntryLayout.read, hkey e he]

include hwf hfits

attribute [local simp] restartKeyLe KeyPrefix.diffKeyRange in
/-- The predicate of the search at the restart point of a restart entry compares the
entry's key. -/
theorem restartKeyLe_entry {it : BlockIterator} (hit : it.block = blk) {pre post : List EntryLayout}
    {e : EntryLayout} (hL : L = pre ++ e :: post) (hr : e.restart) (q : FullKey) :
    it.restartKeyLe q (e.restartPoint (layoutBytes pre).length) = some (decide (keyOf e ≤ q)) := by
  have he : e.Valid := hwf.valid e (by simp [hL])
  have hoffset : (e.restartPoint (layoutBytes pre).length).offset.toNat =
      (layoutBytes pre).length := by
    rw [EntryLayout.restartPoint_offset, UInt32.toNat_ofNat', Nat.mod_eq_of_lt (offset_lt hL hfits)]
  -- A restart entry writes its whole key.
  have hdiff : e.diffKey = e.key := by simp [EntryLayout.diffKey, he.overlap_eq_zero hr]
  simp only [restartKeyLe, hoffset]
  rw [EntryLayout.restartPoint, decodePrefixAt_entry hblk hit hL he]
  simp only [Option.bind_eq_bind, Option.bind_some, KeyPrefix.diffKeyRange]
  rw [slice_diffKey hblk hit hL, hdiff, Option.bind_some, hit, hkey e (by simp [hL]),
    Option.bind_some, cmp_le_eq_decide]
  rfl

attribute [local simp] partitionPoint in
/-- The partition point over the restart points of the entries `B`, after the entries `A`:
the restart entries of `B` up to the first whose key is above `q`. -/
theorem partitionPoint_pointsFrom {it : BlockIterator} (hit : it.block = blk) (q : FullKey)
    (B : List EntryLayout) :
    ∀ A : List EntryLayout, L = A ++ B →
      partitionPoint (it.restartKeyLe q) (pointsFrom EntryLayout.restart (layoutBytes A).length B) =
        some ((B.filter EntryLayout.restart).takeWhile fun e => decide (keyOf e ≤ q)).length := by
  induction B with
  | nil => intro A _; rfl
  | cons b B ih =>
    intro A hL
    have hnext := ih (A ++ [b]) (by simp [hL])
    simp only [layoutBytes_append, List.length_append, layoutBytes_cons, layoutBytes_nil,
      List.append_nil] at hnext
    rw [pointsFrom_cons]
    by_cases hr : b.restart
    · rw [if_pos hr, List.singleton_append, partitionPoint, restartKeyLe_entry hblk hwf hfits hkey hit hL hr,
        List.filter_cons_of_pos hr, List.takeWhile_cons]
      by_cases hle : keyOf b ≤ q
      · simp [-EntryLayout.bytes_length, hle, hnext]
      · simp [hle]
    · rw [if_neg hr, List.nil_append, List.filter_cons_of_neg hr]
      exact hnext

attribute [local simp] searchRestartPointIndexByKey seekRestartPointByKey in
/-- The search lands on a restart entry that nothing before it reaches `q`. -/
theorem seekRestartPointByKey_spec (hsorted : L.Pairwise fun a b => keyOf a < keyOf b) (hne : L ≠ [])
    {it : BlockIterator} (hit : it.block = blk) (q : FullKey) :
    ∃ pre e post, L = pre ++ e :: post ∧ (∀ x ∈ pre, keyOf x < q) ∧
      it.seekRestartPointByKey q = some (atEntry blk pre e) := by
  have hpoint := partitionPoint_pointsFrom hblk hwf hfits hkey hit q L [] rfl
  rw [layoutBytes_nil, List.length_nil, ← hblk.restartPoints_eq, ← hit] at hpoint
  set T := (L.filter EntryLayout.restart).takeWhile fun e => decide (keyOf e ≤ q) with hT
  have hsearch : it.searchRestartPointIndexByKey q = some (T.length - 1) := by
    simp [searchRestartPointIndexByKey, hpoint]
  rcases List.eq_nil_or_concat T with hnil | ⟨T', r, hTr⟩
  · -- no restart key is at most `q`: the first entry
    obtain ⟨e, post, hL⟩ := List.exists_cons_of_ne_nil hne
    have hr := (hwf.valid e (by simp [hL])).restart_of_typeChange (hwf.head e (by simp [hL]))
    refine ⟨[], e, post, hL, by simp, ?_⟩
    rw [seekRestartPointByKey, hsearch, Option.bind_eq_bind, Option.bind_some, hnil]
    exact seekRestartPointByIndex_atEntry hblk hwf hfits hit (show L = [] ++ e :: post from hL) hr
  · -- the last restart entry whose key is at most `q`
    have hsplit : L.filter EntryLayout.restart = T' ++ r :: ((L.filter EntryLayout.restart).dropWhile
        fun e => decide (keyOf e ≤ q)) := by
      have hwhole := List.takeWhile_append_dropWhile (p := fun e => decide (keyOf e ≤ q))
        (l := L.filter EntryLayout.restart)
      rw [← hT, hTr] at hwhole
      simpa using hwhole.symm
    obtain ⟨l₁, l₂, hL₁, hf₁, hf₂⟩ := List.filter_eq_append_iff.mp hsplit
    obtain ⟨m, post, hl₂, hm, hr, -⟩ := List.filter_eq_cons_iff.mp hf₂
    have hL : L = (l₁ ++ m) ++ r :: post := by simp [hL₁, hl₂]
    have hrq : keyOf r ≤ q := by
      have hmem : r ∈ T := by simp [hTr]
      simpa using List.mem_takeWhile_imp hmem
    have hcount : (l₁ ++ m).countP EntryLayout.restart = T.length - 1 := by
      have hm0 : m.countP EntryLayout.restart = 0 := List.countP_eq_zero.mpr hm
      rw [List.countP_append, hm0, List.countP_eq_length_filter, hf₁, hTr]
      simp
    refine ⟨l₁ ++ m, r, post, hL, fun x hx => ?_, ?_⟩
    · rw [hL] at hsorted
      exact lt_of_lt_of_le (List.pairwise_append.mp hsorted |>.2.2 x hx r List.mem_cons_self) hrq
    · rw [seekRestartPointByKey, hsearch, Option.bind_eq_bind, Option.bind_some, ← hcount]
      exact seekRestartPointByIndex_atEntry hblk hwf hfits hit hL hr

/-- `next_until_key` from an entry that nothing before reaches `q` stops at the first entry
at or above `q`, one `next_inner` per entry below it. -/
theorem nextUntilKey_atEntry (q : FullKey) (post : List EntryLayout) :
    ∀ (pre : List EntryLayout) (e : EntryLayout) (fuel : ℕ), L = pre ++ e :: post →
      (∀ x ∈ pre, keyOf x < q) → post.length < fuel →
      ∃ it, nextUntilKey q fuel (atEntry blk pre e) = some it ∧ AtFirstGe blk L keyOf q it := by
  induction post with
  | nil =>
    intro pre e fuel hL hpre hfuel
    obtain ⟨fuel, rfl⟩ : ∃ n, fuel = n + 1 := ⟨fuel - 1, by omega⟩
    by_cases hlt : keyOf e < q
    · -- the last entry is below `q`: the iterator runs off the end
      refine ⟨(atEntry blk pre e).invalidate, ?_, .inr ⟨rfl, isValid_invalidate _, ?_⟩⟩
      · simp [nextUntilKey, isValid_atEntry hblk hL, key?_atEntry hblk hkey hL, FullKey.cmp_eq_compare,
          compare_lt_iff_lt.mpr hlt, nextInner_atEntry_last hblk hL,
          nextUntilKey_of_isValid_eq_false]
      · intro x hx
        rw [hL] at hx
        rcases List.mem_append.mp hx with hx | hx
        · exact hpre x hx
        · rw [List.mem_singleton.mp hx]
          exact hlt
    · refine ⟨atEntry blk pre e, ?_, .inl ⟨pre, e, [], hL, not_lt.mp hlt, hpre, rfl⟩⟩
      simp [nextUntilKey, isValid_atEntry hblk hL, key?_atEntry hblk hkey hL, FullKey.cmp_eq_compare,
        compare_lt_iff_lt, hlt]
  | cons e' post ih =>
    intro pre e fuel hL hpre hfuel
    obtain ⟨fuel, rfl⟩ : ∃ n, fuel = n + 1 := ⟨fuel - 1, by omega⟩
    by_cases hlt : keyOf e < q
    · -- below `q`: on to the next entry, with `e` among those before
      have hL' : L = (pre ++ [e]) ++ e' :: post := by simp [hL]
      have hpre' : ∀ x ∈ pre ++ [e], keyOf x < q := by
        intro x hx
        rcases List.mem_append.mp hx with hx | hx
        · exact hpre x hx
        · rw [List.mem_singleton.mp hx]
          exact hlt
      obtain ⟨it, hit, hat⟩ := ih (pre ++ [e]) e' fuel hL' hpre' (by simpa using hfuel)
      refine ⟨it, ?_, hat⟩
      simp [nextUntilKey, isValid_atEntry hblk hL, key?_atEntry hblk hkey hL, FullKey.cmp_eq_compare,
        compare_lt_iff_lt.mpr hlt, nextInner_atEntry hblk hwf hfits hL, hit]
    · refine ⟨atEntry blk pre e, ?_, .inl ⟨pre, e, e' :: post, hL, not_lt.mp hlt, hpre, rfl⟩⟩
      simp [nextUntilKey, isValid_atEntry hblk hL, key?_atEntry hblk hkey hL, FullKey.cmp_eq_compare,
        compare_lt_iff_lt, hlt]

/-- `prev_until_key` from an entry that nothing after reaches down to `q` stops at the last
entry at or below `q`, one `prev_inner` per entry above it. -/
theorem prevUntilKey_atEntry (q : FullKey) (pre : List EntryLayout) :
    ∀ (e : EntryLayout) (post : List EntryLayout) (fuel : ℕ), L = pre ++ e :: post →
      (∀ x ∈ post, q < keyOf x) → pre.length < fuel →
      ∃ it, prevUntilKey q fuel (atEntry blk pre e) = some it ∧ AtLastLe blk L keyOf q it := by
  induction pre using List.reverseRecOn with
  | nil =>
    intro e post fuel hL hpost hfuel
    obtain ⟨fuel, rfl⟩ : ∃ n, fuel = n + 1 := ⟨fuel - 1, by omega⟩
    by_cases hgt : q < keyOf e
    · -- the first entry is above `q`: the iterator runs off the front
      have h0 : (atEntry blk [] e).offset = 0 := by simp
      refine ⟨(atEntry blk [] e).invalidate, ?_, .inr ⟨rfl, isValid_invalidate _, ?_⟩⟩
      · simp [prevUntilKey, isValid_atEntry hblk hL, key?_atEntry hblk hkey hL, FullKey.cmp_eq_compare,
          compare_gt_iff_gt.mpr hgt, prevInner_of_offset_eq_zero h0,
          prevUntilKey_of_isValid_eq_false]
      · intro x hx
        rw [hL, List.nil_append] at hx
        rcases List.mem_cons.mp hx with rfl | hx
        · exact hgt
        · exact hpost x hx
    · refine ⟨atEntry blk [] e, ?_, .inl ⟨[], e, post, hL, not_lt.mp hgt, hpost, rfl⟩⟩
      simp [prevUntilKey, isValid_atEntry hblk hL, key?_atEntry hblk hkey hL, FullKey.cmp_eq_compare,
        compare_gt_iff_gt, hgt]
  | append_singleton pre p ih =>
    intro e post fuel hL hpost hfuel
    obtain ⟨fuel, rfl⟩ : ∃ n, fuel = n + 1 := ⟨fuel - 1, by simp at hfuel; omega⟩
    by_cases hgt : q < keyOf e
    · -- above `q`: back to the entry before, with `e` among those after
      have hL' : L = pre ++ p :: e :: post := by simp [hL]
      have hpost' : ∀ x ∈ e :: post, q < keyOf x := by
        intro x hx
        rcases List.mem_cons.mp hx with rfl | hx
        · exact hgt
        · exact hpost x hx
      obtain ⟨it, hit, hat⟩ := ih p (e :: post) fuel (by simp [hL]) hpost' (by simpa using hfuel)
      refine ⟨it, ?_, hat⟩
      simp [prevUntilKey, isValid_atEntry hblk hL, key?_atEntry hblk hkey hL, FullKey.cmp_eq_compare,
        compare_gt_iff_gt.mpr hgt, prevInner_atEntry hblk hwf hfits hL', hit]
    · refine ⟨atEntry blk (pre ++ [p]) e, ?_, .inl ⟨pre ++ [p], e, post, hL, not_lt.mp hgt, hpost, rfl⟩⟩
      simp [prevUntilKey, isValid_atEntry hblk hL, key?_atEntry hblk hkey hL, FullKey.cmp_eq_compare,
        compare_gt_iff_gt, hgt]

omit hwf hfits hkey in
/-- At most as many entries as bytes are left for a walk from an entry. -/
theorem length_lt_dataLen {pre post : List EntryLayout} {e : EntryLayout} (hL : L = pre ++ e :: post) :
    pre.length < blk.dataLen ∧ post.length < blk.dataLen := by
  have hlen := length_le_dataLen hblk
  rw [hL] at hlen
  simp only [List.length_append, List.length_cons] at hlen
  omega

attribute [local simp] seek in
/-- `seek` leaves the iterator on the first entry at or above `q`, invalid when there is
none. -/
theorem seek_spec (hsorted : L.Pairwise fun a b => keyOf a < keyOf b) (hne : L ≠ [])
    {it : BlockIterator} (hit : it.block = blk) (q : FullKey) :
    ∃ s, it.seek q = some s ∧ AtFirstGe blk L keyOf q s := by
  obtain ⟨pre, e, post, hL, hpre, hseek⟩ :=
    seekRestartPointByKey_spec hblk hwf hfits hkey hsorted hne hit q
  obtain ⟨s, hs, hat⟩ := nextUntilKey_atEntry hblk hwf hfits hkey q post pre e blk.dataLen hL hpre
    (length_lt_dataLen hblk hL).2
  exact ⟨s, by simp [seek, hseek, hs], hat⟩

/-- `seek_le` leaves the iterator on the last entry at or below `q`, invalid when there is
none. -/
theorem seekLe_spec (hsorted : L.Pairwise fun a b => keyOf a < keyOf b) (hne : L ≠ [])
    {it : BlockIterator} (hit : it.block = blk) (q : FullKey) :
    ∃ s, it.seekLe q = some s ∧ AtLastLe blk L keyOf q s := by
  obtain ⟨pre, e, post, hL, hpre, hseek⟩ :=
    seekRestartPointByKey_spec hblk hwf hfits hkey hsorted hne hit q
  obtain ⟨s, hs, hat⟩ := nextUntilKey_atEntry hblk hwf hfits hkey q post pre e blk.dataLen hL hpre
    (length_lt_dataLen hblk hL).2
  rcases hat with ⟨pre', e', post', hL', hge, -, rfl⟩ | ⟨hblk', hinvalid, -⟩
  · -- on the first entry at or above `q`: back from it while above `q`
    have hpost' : ∀ x ∈ post', q < keyOf x := by
      intro x hx
      rw [hL'] at hsorted
      have hafter := (List.pairwise_append.mp hsorted).2.1
      exact lt_of_le_of_lt hge (List.pairwise_cons.mp hafter |>.1 x hx)
    obtain ⟨s', hs', hat'⟩ := prevUntilKey_atEntry hblk hwf hfits hkey q pre' e' post' blk.dataLen
      hL' hpost' (length_lt_dataLen hblk hL').1
    exact ⟨s', by simp [seekLe, hseek, hs, isValid_atEntry hblk hL', hs'], hat'⟩
  · -- past the end: to the last entry, and back from it
    obtain ⟨pre', f, hL'⟩ : ∃ pre' f, L = pre' ++ [f] := by
      rcases List.eq_nil_or_concat L with h | ⟨pre', f, h⟩
      · exact absurd h hne
      · exact ⟨pre', f, by simpa using h⟩
    have hlast : s.seekToLast = some (atEntry blk pre' f) := by
      rw [seekToLast_of_block_eq hblk']
      exact seekToLast_atEntry hblk hwf hfits hL'
    obtain ⟨s', hs', hat'⟩ := prevUntilKey_atEntry hblk hwf hfits hkey q pre' f [] blk.dataLen
      hL' (by simp) (length_lt_dataLen hblk hL').1
    exact ⟨s', by simp [seekLe, hseek, hs, hinvalid, hlast, hs'], hat'⟩

/-- Read forward from where `seek` leaves it, the iterator gives the entries at or above
`q`, and it is valid just when there is one. -/
theorem AtFirstGe.readWith_next (hsorted : L.Pairwise fun a b => keyOf a < keyOf b) {q : FullKey}
    {s : BlockIterator} (hat : AtFirstGe blk L keyOf q s) :
    s.isValid = L.any (fun e => decide (q ≤ keyOf e)) ∧
      readWith next (L.length + 1) s =
        some ((L.filter fun e => decide (q ≤ keyOf e)).map fun e => (keyOf e, e.value)) := by
  rcases hat with ⟨pre, e, post, hL, hge, hpre, rfl⟩ | ⟨-, hinvalid, hall⟩
  · have hpost : ∀ x ∈ post, q ≤ keyOf x := by
      intro x hx
      rw [hL] at hsorted
      exact hge.trans (List.pairwise_cons.mp (List.pairwise_append.mp hsorted).2.1 |>.1 x hx).le
    have hfilter : (L.filter fun e => decide (q ≤ keyOf e)) = e :: post := by
      rw [hL, List.filter_append, List.filter_eq_nil_iff.mpr fun x hx => by simpa using hpre x hx,
        List.filter_cons_of_pos (by simpa using hge),
        List.filter_eq_self.mpr fun x hx => by simpa using hpost x hx]
      rfl
    refine ⟨?_, ?_⟩
    · rw [isValid_atEntry hblk hL, eq_comm, List.any_eq_true]
      exact ⟨e, by simp [hL], by simpa using hge⟩
    · rw [readWith_next_atEntry hblk hwf hfits post pre e _ hL
          (by rw [hL, List.length_append, List.length_cons]; omega), hfilter,
        mapM_read_eq_map fun x hx => read_eq hkey x (by simp [hL, hx])]
  · have hnil : (L.filter fun e => decide (q ≤ keyOf e)) = [] :=
      List.filter_eq_nil_iff.mpr fun x hx => by simpa using hall x hx
    refine ⟨?_, ?_⟩
    · rw [hinvalid, eq_comm, List.any_eq_false]
      intro x hx
      simpa using hall x hx
    · rw [readWith_of_isValid_eq_false _ _ hinvalid, hnil]
      rfl

/-- Read backward from where `seek_le` leaves it, the iterator gives the entries at or below
`q`, nearest first, and it is valid just when there is one. -/
theorem AtLastLe.readWith_prev (hsorted : L.Pairwise fun a b => keyOf a < keyOf b) {q : FullKey}
    {s : BlockIterator} (hat : AtLastLe blk L keyOf q s) :
    s.isValid = L.any (fun e => decide (keyOf e ≤ q)) ∧
      readWith prev (L.length + 1) s =
        some ((L.filter fun e => decide (keyOf e ≤ q)).map fun e => (keyOf e, e.value)).reverse := by
  rcases hat with ⟨pre, e, post, hL, hle, hpost, rfl⟩ | ⟨-, hinvalid, hall⟩
  · have hpre : ∀ x ∈ pre, keyOf x ≤ q := by
      intro x hx
      rw [hL] at hsorted
      exact ((List.pairwise_append.mp hsorted).2.2 x hx e List.mem_cons_self).le.trans hle
    have hfilter : (L.filter fun e => decide (keyOf e ≤ q)) = pre ++ [e] := by
      rw [hL, List.filter_append, List.filter_eq_self.mpr fun x hx => by simpa using hpre x hx,
        List.filter_cons_of_pos (by simpa using hle),
        List.filter_eq_nil_iff.mpr fun x hx => by simpa using hpost x hx]
    refine ⟨?_, ?_⟩
    · rw [isValid_atEntry hblk hL, eq_comm, List.any_eq_true]
      exact ⟨e, by simp [hL], by simpa using hle⟩
    · rw [readWith_prev_atEntry hblk hwf hfits pre e post _ hL
          (by rw [hL, List.length_append, List.length_cons]; omega), hfilter,
        mapM_read_eq_map fun x hx => read_eq hkey x (by simp [hL] at hx ⊢; tauto)]
      simp
  · have hnil : (L.filter fun e => decide (keyOf e ≤ q)) = [] :=
      List.filter_eq_nil_iff.mpr fun x hx => by simpa using hall x hx
    refine ⟨?_, ?_⟩
    · rw [hinvalid, eq_comm, List.any_eq_false]
      intro x hx
      simpa using hall x hx
    · rw [readWith_of_isValid_eq_false _ _ hinvalid, hnil]
      rfl

end Seek

end BlockIterator

open BlockIterator

/-- Over a block built from the ascending full keys `kvs` of one table that fit the `u32`
offsets, `seek(q)` leaves any iterator of the block on the first entry at or above `q` and
`seek_le(q)` on the last entry at or below it, each invalid when there is none: forward
from the one the reader gets the entries at or above `q`, backward from the other those at
or below it. -/
theorem block_seek (restartInterval : ℕ) (hinterval : 0 < restartInterval)
    (compress : CompressionAlgorithm → List UInt8 → List UInt8)
    (decompress : CompressionAlgorithm → List UInt8 → Except String (List UInt8))
    (xxhash64Checksum : List UInt8 → UInt64) (kvs : List (FullKey × List UInt8))
    (hne : kvs ≠ []) (tid : TableId) (htid : ∀ kv ∈ kvs, kv.1.userKey.tableId = tid)
    (hsorted : kvs.Pairwise fun a b => a.1 < b.1)
    (hsize : (kvs.map fun kv => kv.1.encodeWithoutTableId.length + kv.2.length + 12).sum ≤ 2 ^ 32) :
    ∃ builder bytes blk,
      kvs.foldlM (fun b kv => b.add kv.1 kv.2) (BlockBuilder.new ⟨.none, restartInterval⟩) =
        some builder ∧
      builder.build compress xxhash64Checksum = some bytes ∧
      Block.decode decompress xxhash64Checksum bytes = some (.ok blk) ∧
      ∀ it : BlockIterator, it.block = blk → ∀ q : FullKey,
        (∃ s, it.seek q = some s ∧ s.isValid = kvs.any (fun kv => decide (q ≤ kv.1)) ∧
          readWith next (kvs.length + 1) s = some (kvs.filter fun kv => decide (q ≤ kv.1))) ∧
        (∃ s, it.seekLe q = some s ∧ s.isValid = kvs.any (fun kv => decide (kv.1 ≤ q)) ∧
          readWith prev (kvs.length + 1) s = some (kvs.filter fun kv => decide (kv.1 ≤ q)).reverse) := by
  obtain ⟨builder, bytes, blk, L, hrun, hbuild, hdecode, hblk, hwf, hfits, hLne, hblkTid, hmap⟩ :=
    build_decode_holds restartInterval hinterval compress decompress xxhash64Checksum kvs hne tid
      htid hsize
  -- The key each entry is read as.
  set keyOf : EntryLayout → FullKey := fun e => (FullKey.fromSliceWithoutTableId tid e.key).getD default
  have hdecodeKey : ∀ kv ∈ kvs, FullKey.fromSliceWithoutTableId tid kv.1.encodeWithoutTableId = some kv.1 :=
    fun kv hkv => htid kv hkv ▸ FullKey.fromSliceWithoutTableId_encodeWithoutTableId kv.1
  have hkvs : kvs = L.map fun e => (keyOf e, e.value) := by
    have hback := congrArg (List.map fun kv : List UInt8 × List UInt8 =>
      ((FullKey.fromSliceWithoutTableId tid kv.1).getD default, kv.2)) hmap
    simp only [List.map_map] at hback
    calc kvs = kvs.map ((fun kv : List UInt8 × List UInt8 =>
            ((FullKey.fromSliceWithoutTableId tid kv.1).getD default, kv.2)) ∘
            fun kv => (kv.1.encodeWithoutTableId, kv.2)) := by
          conv_lhs => rw [← List.map_id kvs]
          exact List.map_congr_left fun kv hkv => by simp [hdecodeKey kv hkv]
      _ = L.map fun e => (keyOf e, e.value) := hback.symm
  have hkey : ∀ e ∈ L, FullKey.fromSliceWithoutTableId blk.tableId e.key = some (keyOf e) := by
    intro e he
    obtain ⟨kv, hkv, hkve⟩ : ∃ kv ∈ kvs, (kv.1.encodeWithoutTableId, kv.2) = (e.key, e.value) := by
      have hmem : (e.key, e.value) ∈ L.map fun e => (e.key, e.value) := List.mem_map_of_mem he
      rw [hmap] at hmem
      simpa using hmem
    rw [hblkTid, ← (Prod.mk.inj hkve).1, hdecodeKey kv hkv]
    simp [keyOf, (Prod.mk.inj hkve).1.symm, hdecodeKey kv hkv]
  have hsortedL : L.Pairwise fun a b => keyOf a < keyOf b := by
    rw [hkvs] at hsorted
    exact (List.pairwise_map (R := fun a b : FullKey × List UInt8 => a.1 < b.1)).mp hsorted
  have hlen : kvs.length = L.length := by rw [hkvs, List.length_map]
  refine ⟨builder, bytes, blk, hrun, hbuild, hdecode, fun it hit q => ⟨?_, ?_⟩⟩
  · obtain ⟨s, hs, hat⟩ := seek_spec hblk hwf hfits hkey hsortedL hLne hit q
    obtain ⟨hvalid, hread⟩ := hat.readWith_next hblk hwf hfits hkey hsortedL
    refine ⟨s, hs, ?_, ?_⟩
    · rw [hvalid, hkvs, List.any_map]
      rfl
    · rw [hlen, hread, hkvs, List.filter_map]
      rfl
  · obtain ⟨s, hs, hat⟩ := seekLe_spec hblk hwf hfits hkey hsortedL hLne hit q
    obtain ⟨hvalid, hread⟩ := hat.readWith_prev hblk hwf hfits hkey hsortedL
    refine ⟨s, hs, ?_, ?_⟩
    · rw [hvalid, hkvs, List.any_map]
      rfl
    · rw [hlen, hread, hkvs, List.filter_map]
      rfl

theorem block_seek_two_entries :
    ∃ builder bytes blk,
      [((⟨⟨1, [1]⟩, 5⟩ : FullKey), [7]), (⟨⟨1, [2]⟩, 4⟩, [8, 9])].foldlM
          (fun b kv => b.add kv.1 kv.2) (BlockBuilder.new ⟨.none, 16⟩) = some builder ∧
      builder.build (fun _ bs => bs) (fun bs => UInt64.ofNat bs.length) = some bytes ∧
      Block.decode (fun _ bs => .ok bs) (fun bs => UInt64.ofNat bs.length) bytes = some (.ok blk) ∧
      ∀ it : BlockIterator, it.block = blk → ∀ q : FullKey,
        (∃ s, it.seek q = some s ∧
          s.isValid = [((⟨⟨1, [1]⟩, 5⟩ : FullKey), [7]), (⟨⟨1, [2]⟩, 4⟩, [8, 9])].any
            (fun kv => decide (q ≤ kv.1)) ∧
          readWith next 3 s = some ([((⟨⟨1, [1]⟩, 5⟩ : FullKey), [7]), (⟨⟨1, [2]⟩, 4⟩, [8, 9])].filter
            fun kv => decide (q ≤ kv.1))) ∧
        (∃ s, it.seekLe q = some s ∧
          s.isValid = [((⟨⟨1, [1]⟩, 5⟩ : FullKey), [7]), (⟨⟨1, [2]⟩, 4⟩, [8, 9])].any
            (fun kv => decide (kv.1 ≤ q)) ∧
          readWith prev 3 s = some ([((⟨⟨1, [1]⟩, 5⟩ : FullKey), [7]), (⟨⟨1, [2]⟩, 4⟩, [8, 9])].filter
            fun kv => decide (kv.1 ≤ q)).reverse) :=
  block_seek 16 (by decide) (fun _ bs => bs) (fun _ bs => .ok bs) (fun bs => UInt64.ofNat bs.length)
    [(⟨⟨1, [1]⟩, 5⟩, [7]), (⟨⟨1, [2]⟩, 4⟩, [8, 9])] (by simp) 1 (by decide)
    (List.pairwise_pair.mpr (by rw [FullKey.lt_iff]; decide)) (by decide)

/-! ## Past `2 ^ 32` bytes -/

section PastU32

variable {blk : Block} (v : List UInt8)
  (hdata : blk.data.take blk.dataLen = [0, 8, 255, 255, 255, 242, 0, 0, 0, 0, 0, 0, 0, 0] ++ v ++
    [0, 9, 0, 1, 0, 0, 0, 0, 0, 0, 0, 0])
  (htid : blk.tableId = 0) (hrp : blk.restartPoints = [⟨0, .u8, .u8⟩, ⟨0, .u8, .u8⟩])
include hdata

theorem data_past_u32 :
    blk.data.take blk.dataLen = [0, 8, 255, 255, 255, 242, 0, 0, 0, 0, 0] ++
      ([0, 0, 0] ++ v ++ [0, 9, 0, 1, 0, 0, 0, 0, 0, 0, 0, 0]) := by
  rw [hdata]
  simp

include htid hrp in
/-- Both restart keys read below the first key, with an epoch taken from the first value's
length, so the search picks the second restart point. -/
theorem searchRestartPointIndexByKey_past_u32 :
    (BlockIterator.new blk).searchRestartPointIndexByKey ⟨⟨0, []⟩, 0⟩ = some 1 := by
  have hle : (BlockIterator.new blk).restartKeyLe ⟨⟨0, []⟩, 0⟩ ⟨0, .u8, .u8⟩ = some true := by
    simp only [restartKeyLe, UInt32.toNat_zero]
    rw [decodePrefixAt_past_u32 _ (data_past_u32 v hdata)]
    simp only [Option.bind_eq_bind, Option.bind_some]
    rw [slice_key_past_u32 _ (data_past_u32 v hdata)]
    simp only [Option.bind_some, new_block, htid]
    rfl
  simp [searchRestartPointIndexByKey, hrp, partitionPoint, hle]

/-- Past the first prefix, three zero bytes of the value read as an empty entry. -/
theorem nextInner_past_u32 (hvlen : v.length = 4294967282) {w : List UInt8}
    (hz : v.drop 252 = [0, 0, 0] ++ w) (it : BlockIterator)
    (hit : it.block = blk) (hrp1 : blk.restartPoints[it.restartPointIndex + 1]? = none)
    (hoffset : it.offset + it.entryLen = 266) (hkt : it.lastKeyLenType = .u8)
    (hvt : it.lastValueLenType = .u8) :
    it.nextInner = some { it with
      key := it.key.take 0 ++ []
      valueRange := (269, 269)
      offset := 266
      entryLen := 3 } := by
  have hdrop : it.data.drop 266 = KeyPrefix.encode ⟨0, 0, 0, 0, 0⟩ .u8 .u8 ++
      (w ++ [0, 9, 0, 1, 0, 0, 0, 0, 0, 0, 0, 0]) := by
    rw [data, hit, hdata]
    simp only [List.append_assoc, List.drop_append]
    simp [hvlen, hz]
    rfl
  have hlen : 269 ≤ it.data.length := by
    rw [data, hit, hdata]
    simp [hvlen]
  have hdlen : ¬blk.dataLen ≤ 266 := by
    have := congrArg List.length hdata
    simp only [List.length_take, List.length_append, hvlen] at this
    omega
  have hrun := KeyPrefix.decode_run_encode ⟨0, 0, 0, 0, 0⟩ (k := .u8) (v := .u8) (by decide)
    (by decide) (by decide) 266 (w ++ [0, 9, 0, 1, 0, 0, 0, 0, 0, 0, 0, 0])
  have hpfx : it.decodePrefixAt 266 .u8 .u8 = some ⟨0, 0, 0, 266, 3⟩ := by
    rw [decodePrefixAt, if_neg (by omega), hdrop, hrun]
    rfl
  have hslice : slice it.data (KeyPrefix.diffKeyRange ⟨0, 0, 0, 266, 3⟩) = some [] := by
    simp [slice, KeyPrefix.diffKeyRange]
    omega
  simp only [nextInner, tryNextInner, hoffset, hit, hdlen, if_false, hrp1, hkt, hvt]
  simp only [Option.bind_eq_bind, pure, Option.bind_some, hkt, hvt, hpfx, hslice, hit, if_true]
  rfl

end PastU32

/-- With any first value of `2 ^ 32 - 14` bytes that has three zero bytes at 252, the
restart offset of the second entry wraps to zero, and `seek` of the first key reads on
from the first entry into the value, to a key shorter than an epoch. -/
theorem seek_past_u32 (v : List UInt8) (hvlen : v.length = 4294967282) {w : List UInt8}
    (hz : v.drop 252 = [0, 0, 0] ++ w) :
    ∃ builder bytes blk,
      [((⟨⟨0, []⟩, 0⟩ : FullKey), v), (⟨⟨0, [1]⟩, 0⟩, [])].foldlM
          (fun b kv => b.add kv.1 kv.2) (BlockBuilder.new ⟨.none, 16⟩) = some builder ∧
      builder.build (fun _ bs => bs) (fun _ => 0) = some bytes ∧
      Block.decode (fun _ bs => .ok bs) (fun _ => 0) bytes = some (.ok blk) ∧
      (BlockIterator.new blk).seek ⟨⟨0, []⟩, 0⟩ = none := by
  obtain ⟨bytes, blk, hbuild, hdecode, hdata, htid, hrp⟩ := decode_build_past_u32 v
  refine ⟨_, bytes, blk, foldlM_add_past_u32 v hvlen, hbuild, hdecode, ?_⟩
  have hlen : 269 ≤ blk.dataLen := by
    have := congrArg List.length hdata
    simp only [List.length_take, List.length_append, hvlen] at this
    omega
  obtain ⟨fuel, hfuel⟩ : ∃ fuel, blk.dataLen = fuel + 1 + 1 := ⟨blk.dataLen - 2, by omega⟩
  -- The search lands on the second restart point, which reads the first entry.
  set it1 : BlockIterator := { BlockIterator.new blk with
    restartPointIndex := 1
    offset := 0
    key := [255, 255, 242, 0, 0, 0, 0, 0]
    valueRange := (11, 266)
    entryLen := 266
    lastKeyLenType := .u8
    lastValueLenType := .u8 } with hit1
  have hseek : (BlockIterator.new blk).seekRestartPointByKey ⟨⟨0, []⟩, 0⟩ = some it1 := by
    simp only [seekRestartPointByKey, searchRestartPointIndexByKey_past_u32 v hdata htid hrp,
      Option.bind_eq_bind, Option.bind_some]
    exact seekRestartPointByIndex_past_u32 _ (data_past_u32 v hdata) (by rw [hrp]; rfl)
  have hvalid1 : it1.isValid = true := by
    simp [isValid, hit1]
    omega
  have hkey1 : it1.key? = some ⟨⟨0, []⟩, UInt64.ofNat (decodeBE [255, 255, 242, 0, 0, 0, 0, 0])⟩ := by
    rw [key?, if_pos hvalid1]
    simp only [hit1, new_block, htid]
    rfl
  have hcmp : FullKey.cmp ⟨⟨0, []⟩, UInt64.ofNat (decodeBE [255, 255, 242, 0, 0, 0, 0, 0])⟩
      ⟨⟨0, []⟩, 0⟩ = .lt := by
    decide
  -- One entry on, three zero bytes of the value read as an entry with an empty key.
  have hnext := nextInner_past_u32 v hdata hvlen hz it1 rfl (by rw [hrp]; rfl) rfl rfl rfl
  have hvalid2 : ({ it1 with
      key := it1.key.take 0 ++ []
      valueRange := (269, 269)
      offset := 266
      entryLen := 3 } : BlockIterator).isValid = true := by
    simp [isValid, hit1]
    omega
  simp only [seek, hseek, Option.bind_eq_bind, Option.bind_some]
  rw [show it1.block.dataLen = fuel + 1 + 1 from hfuel, nextUntilKey_of_cmp_lt _ hvalid1 hkey1 hcmp,
    hnext]
  simp only [Option.bind_eq_bind, Option.bind_some]
  exact nextUntilKey_of_key?_eq_none _ _ hvalid2 (by rw [key?, if_pos hvalid2]; rfl)

/-- With a first value of `2 ^ 32 - 14` bytes the restart offset of the second entry wraps
to zero: the search lands on the first prefix read with the second entry's widths, and
`seek` of the first key reads on into the value until it finds a key shorter than an epoch,
and panics. -/
theorem block_seek_wraps :
    ((⟨⟨0, []⟩, 0⟩ : FullKey) < ⟨⟨0, [1]⟩, 0⟩ ∧
      (List.replicate 4294967282 (0 : UInt8)).length < 2 ^ 32) ∧
    ∃ builder bytes blk,
      [((⟨⟨0, []⟩, 0⟩ : FullKey), List.replicate 4294967282 0), (⟨⟨0, [1]⟩, 0⟩, [])].foldlM
          (fun b kv => b.add kv.1 kv.2) (BlockBuilder.new ⟨.none, 16⟩) = some builder ∧
      builder.build (fun _ bs => bs) (fun _ => 0) = some bytes ∧
      Block.decode (fun _ bs => .ok bs) (fun _ => 0) bytes = some (.ok blk) ∧
      (BlockIterator.new blk).seek ⟨⟨0, []⟩, 0⟩ = none := by
  refine ⟨⟨by rw [FullKey.lt_iff]; decide, by rw [List.length_replicate]; decide⟩, ?_⟩
  refine seek_past_u32 _ (List.length_replicate ..) (w := List.replicate 4294967027 0) ?_
  rw [List.drop_replicate, show 4294967282 - 252 = 3 + 4294967027 from rfl, List.replicate_add]
  rfl

end RisingWave.Hummock
