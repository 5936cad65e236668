import RisingWave.Hummock.BlockLayout

/-!
# Reading a block back

`BlockIterator` over a block that holds a well-formed layout `L` (whose offsets
fit `u32`). The iterator at an entry is `BlockIterator.atEntry blk pre e`, for
`L = pre ++ e :: post`: at the entry's offset, with its whole key, its value
range and length, the index of its restart point and the widths of the entry.
From it, `next_inner` moves to the entry after (`nextInner_atEntry`), `prev_inner`
to the entry before (`prevInner_atEntry`), and both invalidate the iterator at
the ends; `seek_to_first` and `seek_to_last` reach the first and the last
entry. Reading the block then gives its entries in order and in reverse
(`readWith_next_atEntry`, `readWith_prev_atEntry`).
-/

namespace RisingWave.Hummock

open ByteCodec ByteBuf

/-- What a reader gets of an entry of table `tableId`: its full key and its value. -/
def EntryLayout.read (tableId : TableId) (e : EntryLayout) : Option (FullKey × List UInt8) :=
  (FullKey.fromSliceWithoutTableId tableId e.key).map fun k => (k, e.value)

namespace BlockIterator

/-- The iterator at the entry `e` after the entries `pre`. -/
def atEntry (blk : Block) (pre : List EntryLayout) (e : EntryLayout) : BlockIterator :=
  let offset := (layoutBytes pre).length
  let pfx : KeyPrefix := ⟨e.overlap, e.diffKey.length, e.value.length, offset,
    e.keyLenType.len * 2 + e.valueLenType.len⟩
  ⟨blk, (pre ++ [e]).countP EntryLayout.restart - 1, offset, e.key, pfx.valueRange,
    pfx.entryLen, e.keyLenType, e.valueLenType⟩

@[simp] theorem atEntry_block (blk : Block) (pre : List EntryLayout) (e : EntryLayout) :
    (atEntry blk pre e).block = blk := rfl

@[simp] theorem atEntry_key (blk : Block) (pre : List EntryLayout) (e : EntryLayout) :
    (atEntry blk pre e).key = e.key := rfl

@[simp] theorem atEntry_offset (blk : Block) (pre : List EntryLayout) (e : EntryLayout) :
    (atEntry blk pre e).offset = (layoutBytes pre).length := rfl

attribute [local simp] atEntry in
theorem atEntry_restartPointIndex (blk : Block) (pre : List EntryLayout) (e : EntryLayout) :
    (atEntry blk pre e).restartPointIndex =
      pre.countP EntryLayout.restart + (if e.restart then 1 else 0) - 1 := by
  simp [atEntry, List.countP_append]

/-- The entry's own bytes, and so the iterator's, end where the next entry starts. -/
theorem atEntry_offset_add_entryLen (blk : Block) (pre : List EntryLayout) (e : EntryLayout) :
    (atEntry blk pre e).offset + (atEntry blk pre e).entryLen =
      (layoutBytes (pre ++ [e])).length := by
  simp [atEntry, KeyPrefix.entryLen]

attribute [local simp] tryNextInner in
/-- `try_next_inner` short of the end: the restart point moves on when the next
entry reaches it, and the entry's prefix and key are decoded with the widths of
the restart point in force. -/
theorem tryNextInner_eq {it it' : BlockIterator} (hlt : it.offset + it.entryLen < it.block.dataLen)
    (hupdate : (∃ next, it.block.restartPoints[it.restartPointIndex + 1]? = some next ∧
        next.offset.toNat ≤ it.offset + it.entryLen ∧
        it.updateRestartPoint (it.restartPointIndex + 1) = some it') ∨
      ((∀ next ∈ it.block.restartPoints[it.restartPointIndex + 1]?,
        it.offset + it.entryLen < next.offset.toNat) ∧ it' = it)) :
    it.tryNextInner = (do
      let pfx ← it'.decodePrefixAt (it.offset + it.entryLen) it'.lastKeyLenType it'.lastValueLenType
      let diff ← slice it'.data pfx.diffKeyRange
      pure (true,
        { it' with
          key := it'.key.take pfx.overlap ++ diff
          valueRange := pfx.valueRange
          offset := it.offset + it.entryLen
          entryLen := pfx.entryLen })) := by
  rw [tryNextInner, if_neg (not_le.mpr hlt)]
  rcases hupdate with ⟨next, hnext, hle, hupd⟩ | ⟨hstay, rfl⟩
  · simp only [hnext, ge_iff_le, hle, if_true, hupd, Option.bind_eq_bind, Option.bind_some]
  · split
    · rename_i next hnext
      rw [if_neg (not_le.mpr (hstay next hnext))]
      rfl
    · rfl

attribute [local simp] isValid in
@[simp] theorem isValid_invalidate (it : BlockIterator) : it.invalidate.isValid = false := by
  simp [isValid, invalidate]

attribute [local simp] nextInner in
/-- `next_inner` past the last entry invalidates the iterator. -/
theorem nextInner_of_end {it : BlockIterator} (h : it.block.dataLen ≤ it.offset + it.entryLen) :
    it.nextInner = some it.invalidate := by
  simp [nextInner, tryNextInner, h]

attribute [local simp] tryPrevInner in
/-- `try_prev_inner` away from the first entry: back to the restart point of
the entry, or to the one before when the entry is a restart point, then
forward to the entry that ends where this one starts. -/
theorem tryPrevInner_eq {it : BlockIterator} {rp : RestartPoint} {index : ℕ}
    (h0 : it.offset ≠ 0) (hrp : it.block.restartPoints[it.restartPointIndex]? = some rp)
    (hindex : (rp.offset.toNat = it.offset ∧ it.restartPointIndex ≠ 0 ∧
        index = it.restartPointIndex - 1) ∨
      (rp.offset.toNat ≠ it.offset ∧ index = it.restartPointIndex)) :
    it.tryPrevInner = (do
      let s ← it.seekRestartPointByIndex index
      let s ← nextUntilPrevOffset it.offset s.block.dataLen s
      pure (true, s)) := by
  rw [tryPrevInner, if_neg h0]
  simp only [hrp, Option.bind_eq_bind, Option.bind_some]
  rcases hindex with ⟨heq, hne, rfl⟩ | ⟨hne, rfl⟩
  · simp only [heq, if_true, hne, if_false, Option.bind_some]
  · simp only [hne, if_false]

attribute [local simp] prevInner in
/-- `prev_inner` at the first entry invalidates the iterator. -/
theorem prevInner_of_offset_eq_zero {it : BlockIterator} (h0 : it.offset = 0) :
    it.prevInner = some it.invalidate := by
  simp [prevInner, tryPrevInner, h0]

attribute [local simp] readWith in
/-- A reader stops at an invalid iterator. -/
theorem readWith_of_isValid_eq_false (step : BlockIterator → Option BlockIterator) (fuel : ℕ)
    {it : BlockIterator} (h : it.isValid = false) : readWith step fuel it = some [] := by
  cases fuel <;> simp [readWith, h]

@[simp] theorem new_block (blk : Block) : (BlockIterator.new blk).block = blk := rfl

/-- What a reader reads first at a valid iterator is its key. -/
theorem readWith_eq_some_cons {step : BlockIterator → Option BlockIterator} {fuel : ℕ}
    {it : BlockIterator} {k : FullKey} {l : List (FullKey × List UInt8)}
    (hvalid : it.isValid = true) (hkey : it.key? = some k) (h : readWith step (fuel + 1) it = some l) :
    ∃ v rest, l = (k, v) :: rest := by
  rw [readWith, if_pos hvalid, hkey] at h
  simp only [Option.bind_eq_bind, Option.bind_some, Option.bind_eq_some_iff, Option.pure_def,
    Option.some.injEq] at h
  obtain ⟨v, -, -, -, rest, -, rfl⟩ := h
  exact ⟨v, rest, rfl⟩

section Holds

variable {blk : Block} {L : List EntryLayout}

/-- The entries of the block, as every iterator over it sees them. -/
theorem data_eq (hblk : blk.Holds L) {it : BlockIterator} (hit : it.block = blk) :
    it.data = layoutBytes L := by
  rw [data, hit, hblk.data_take]

theorem layoutBytes_eq_entry {pre post : List EntryLayout} {e : EntryLayout}
    (hL : L = pre ++ e :: post) :
    layoutBytes L = layoutBytes pre ++ e.keyPrefix.encode e.keyLenType e.valueLenType ++
      e.diffKey ++ e.value ++ layoutBytes post := by
  simp [hL, EntryLayout.bytes, List.append_assoc]

attribute [local simp] EntryLayout.diffKey in
/-- The prefix of an entry decodes at its offset with its widths. -/
theorem decodePrefixAt_entry (hblk : blk.Holds L) {it : BlockIterator} (hit : it.block = blk)
    {pre post : List EntryLayout} {e : EntryLayout} (hL : L = pre ++ e :: post) (he : e.Valid) :
    it.decodePrefixAt (layoutBytes pre).length e.keyLenType e.valueLenType =
      some ⟨e.overlap, e.diffKey.length, e.value.length, (layoutBytes pre).length,
        e.keyLenType.len * 2 + e.valueLenType.len⟩ := by
  have hdata := data_eq hblk hit
  rw [layoutBytes_eq_entry hL] at hdata
  have hdiff : e.diffKey.length ≤ e.key.length := by simp [EntryLayout.diffKey]
  have hrun := KeyPrefix.decode_run_encode e.keyPrefix (he.overlap_le.trans_lt he.key_lt)
    (hdiff.trans_lt he.key_lt) he.value_lt (layoutBytes pre).length
    (e.diffKey ++ e.value ++ layoutBytes post)
  rw [decodePrefixAt, hdata, if_neg (by simp)]
  simp only [List.append_assoc] at hrun ⊢
  rw [List.drop_left, hrun]
  rfl

/-- The rest of an entry's key is where its prefix says. -/
theorem slice_diffKey (hblk : blk.Holds L) {it : BlockIterator} (hit : it.block = blk)
    {pre post : List EntryLayout} {e : EntryLayout} (hL : L = pre ++ e :: post) :
    slice it.data ((layoutBytes pre).length + (e.keyLenType.len * 2 + e.valueLenType.len),
        (layoutBytes pre).length + (e.keyLenType.len * 2 + e.valueLenType.len) +
          e.diffKey.length) =
      some e.diffKey := by
  rw [data_eq hblk hit, layoutBytes_eq_entry hL]
  have := slice_append (layoutBytes pre ++ e.keyPrefix.encode e.keyLenType e.valueLenType)
    e.diffKey (e.value ++ layoutBytes post)
  simp only [List.length_append, KeyPrefix.encode_length, List.append_assoc] at this ⊢
  exact this

/-- The value of an entry is where its prefix says. -/
theorem slice_value (hblk : blk.Holds L) {it : BlockIterator} (hit : it.block = blk)
    {pre post : List EntryLayout} {e : EntryLayout} (hL : L = pre ++ e :: post) :
    slice it.data ((atEntry blk pre e).valueRange) = some e.value := by
  rw [data_eq hblk hit, layoutBytes_eq_entry hL]
  have := slice_append (layoutBytes pre ++ e.keyPrefix.encode e.keyLenType e.valueLenType ++
    e.diffKey) e.value (layoutBytes post)
  simp only [List.length_append, KeyPrefix.encode_length] at this
  simp only [atEntry, KeyPrefix.valueRange]
  convert this using 3

/-- The restart points after the entries `pre` are those of the entries after them. -/
theorem restartPoints_getElem? (hblk : blk.Holds L) {pre post : List EntryLayout}
    (hL : L = pre ++ post) (i : ℕ) :
    blk.restartPoints[pre.countP EntryLayout.restart + i]? =
      (pointsFrom EntryLayout.restart (layoutBytes pre).length post)[i]? := by
  rw [hblk.restartPoints_eq, hL, pointsFrom_append, List.getElem?_append_right (by simp)]
  simp

/-- An entry's offset fits its `u32`. -/
theorem offset_lt {pre post : List EntryLayout} {e : EntryLayout} (hL : L = pre ++ e :: post)
    (hfits : (layoutBytes L).length ≤ 2 ^ 32) : (layoutBytes pre).length < 2 ^ 32 := by
  have := e.two_le_bytes_length
  rw [hL] at hfits
  simp only [layoutBytes_append, layoutBytes_cons, List.length_append] at hfits
  omega

/-- The restart point of a restart entry is at the entry. -/
theorem restartPoints_getElem?_entry (hblk : blk.Holds L) {pre post : List EntryLayout}
    {e : EntryLayout} (hL : L = pre ++ e :: post) (hr : e.restart) :
    blk.restartPoints[pre.countP EntryLayout.restart]? =
      some (e.restartPoint (layoutBytes pre).length) := by
  rw [← Nat.add_zero (pre.countP _), restartPoints_getElem? hblk hL 0]
  simp [pointsFrom_cons, hr]

attribute [local simp] KeyPrefix.diffKeyRange updateRestartPoint in
/-- Seeking the restart point of a restart entry reaches the entry. -/
theorem seekRestartPointByIndex_atEntry (hblk : blk.Holds L) (hwf : LayoutWF L)
    (hfits : (layoutBytes L).length ≤ 2 ^ 32) {it : BlockIterator} (hit : it.block = blk)
    {pre post : List EntryLayout} {e : EntryLayout} (hL : L = pre ++ e :: post)
    (hr : e.restart) :
    it.seekRestartPointByIndex (pre.countP EntryLayout.restart) = some (atEntry blk pre e) := by
  have he : e.Valid := hwf.valid e (by simp [hL])
  have hrp := restartPoints_getElem?_entry hblk hL hr
  have hoffset : (e.restartPoint (layoutBytes pre).length).offset.toNat =
      (layoutBytes pre).length := by
    rw [EntryLayout.restartPoint_offset, UInt32.toNat_ofNat', Nat.mod_eq_of_lt (offset_lt hL hfits)]
  -- A restart entry writes its whole key.
  have hkey : e.diffKey = e.key := by simp [EntryLayout.diffKey, he.overlap_eq_zero hr]
  simp only [seekRestartPointByIndex, hit, hrp, Option.bind_eq_bind, Option.bind_some, hoffset]
  rw [EntryLayout.restartPoint, decodePrefixAt_entry hblk hit hL he]
  simp only [Option.bind_some, KeyPrefix.diffKeyRange]
  rw [slice_diffKey hblk hit hL]
  simp only [Option.bind_some, updateRestartPoint, hrp]
  obtain ⟨blk', _, _, _, _, _, _, _⟩ := it
  cases hit
  simp [atEntry, hr, EntryLayout.restartPoint, hkey]

/-- Every nonempty prefix of a well-formed layout holds a restart entry: the first. -/
theorem countP_restart_pos (hwf : LayoutWF L) {pre post : List EntryLayout}
    (hL : L = pre ++ post) (hpre : pre ≠ []) : 0 < pre.countP EntryLayout.restart := by
  obtain ⟨f, pre', rfl⟩ := List.exists_cons_of_ne_nil hpre
  have hf : f.typeChange := hwf.head f (by simp [hL])
  have hr := (hwf.valid f (by simp [hL])).restart_of_typeChange hf
  simp [hr]

/-- `next_inner` moves from an entry to the entry after it. -/
theorem nextInner_atEntry (hblk : blk.Holds L) (hwf : LayoutWF L)
    (hfits : (layoutBytes L).length ≤ 2 ^ 32) {pre post : List EntryLayout} {e e' : EntryLayout}
    (hL : L = pre ++ e :: e' :: post) :
    (atEntry blk pre e).nextInner = some (atEntry blk (pre ++ [e]) e') := by
  have hL' : L = (pre ++ [e]) ++ e' :: post := by simp [hL]
  have he' : e'.Valid := hwf.valid e' (by simp [hL])
  have hfollow : e.Follows e' := by
    rw [hL] at hwf
    exact (List.isChain_cons_cons.mp (hwf.chain.right_of_append)).1
  have hcount := countP_restart_pos hwf hL' (by simp)
  have hdata : blk.dataLen = (layoutBytes (pre ++ [e])).length + e'.bytes.length +
      (layoutBytes post).length := by
    rw [hblk.dataLen_eq, hL']
    simp [Nat.add_assoc]
  have hpos := e'.two_le_bytes_length
  have hlookup := restartPoints_getElem? hblk hL' 0
  rw [Nat.add_zero] at hlookup
  have hindex : (atEntry blk pre e).restartPointIndex + 1 =
      (pre ++ [e]).countP EntryLayout.restart := by
    simp only [atEntry]
    omega
  -- The restart point in force at `e'`, with the widths of `e'`.
  set it' : BlockIterator :=
    { atEntry blk pre e with
      restartPointIndex := (pre ++ [e, e']).countP EntryLayout.restart - 1
      lastKeyLenType := e'.keyLenType
      lastValueLenType := e'.valueLenType } with hit'
  have hupdate : (∃ next, (atEntry blk pre e).block.restartPoints[
        (atEntry blk pre e).restartPointIndex + 1]? = some next ∧
        next.offset.toNat ≤ (atEntry blk pre e).offset + (atEntry blk pre e).entryLen ∧
        (atEntry blk pre e).updateRestartPoint ((atEntry blk pre e).restartPointIndex + 1) =
          some it') ∨
      ((∀ next ∈ (atEntry blk pre e).block.restartPoints[
          (atEntry blk pre e).restartPointIndex + 1]?,
        (atEntry blk pre e).offset + (atEntry blk pre e).entryLen < next.offset.toNat) ∧
        it' = atEntry blk pre e) := by
    rw [atEntry_block, hindex, hlookup, atEntry_offset_add_entryLen, pointsFrom_cons]
    cases hr : e'.restart
    · -- Not a restart point: the next one, if any, lies past `e'`.
      right
      refine ⟨fun next hn => ?_, ?_⟩
      · have hfits' : (layoutBytes (pre ++ [e])).length + e'.bytes.length +
            (layoutBytes post).length ≤ 2 ^ 32 := by
          rw [← hdata, hblk.dataLen_eq]
          exact hfits
        simp only [Bool.false_eq_true, ↓reduceIte, List.nil_append] at hn
        have := (offset_toNat_of_mem_pointsFrom hfits' (List.mem_of_getElem? hn)).1
        omega
      · have ht : e'.typeChange = false := by
          cases h : e'.typeChange
          · rfl
          · simpa [hr] using he'.restart_of_typeChange h
        simp only [hit', atEntry, List.countP_append, List.countP_cons, hr, (hfollow.types_eq ht).1,
          (hfollow.types_eq ht).2]
        simp
    · left
      refine ⟨e'.restartPoint (layoutBytes (pre ++ [e])).length, by simp, ?_, ?_⟩
      · rw [EntryLayout.restartPoint_offset, UInt32.toNat_ofNat',
          Nat.mod_eq_of_lt (offset_lt hL' hfits)]
      · have hcount' : (pre ++ [e, e']).countP EntryLayout.restart - 1 =
            (pre ++ [e]).countP EntryLayout.restart := by
          rw [show pre ++ [e, e'] = (pre ++ [e]) ++ [e'] by simp, List.countP_append]
          simp [hr]
        simp only [updateRestartPoint, atEntry_block, hlookup, pointsFrom_cons, hr]
        simp only [↓reduceIte, List.singleton_append, List.getElem?_cons_zero, Option.bind_eq_bind,
          Option.bind_some, hit', hcount']
        rfl
  have hlt : (atEntry blk pre e).offset + (atEntry blk pre e).entryLen <
      (atEntry blk pre e).block.dataLen := by
    rw [atEntry_offset_add_entryLen, atEntry_block, hdata]
    omega
  have hblock' : it'.block = blk := rfl
  rw [nextInner, tryNextInner_eq hlt hupdate, atEntry_offset_add_entryLen]
  simp only [hit']
  rw [decodePrefixAt_entry hblk hblock' hL' he']
  simp only [Option.bind_eq_bind, Option.bind_some, KeyPrefix.diffKeyRange]
  rw [slice_diffKey hblk hblock' hL']
  -- The key is the overlap with `e`'s key and the rest of `e'`'s.
  have hkey : e.key.take e'.overlap ++ e'.diffKey = e'.key := by
    cases hr : e'.restart
    · rw [hfollow.take_eq hr, e'.take_append_diffKey]
    · rw [(hwf.valid e' (by simp [hL])).overlap_eq_zero hr, List.take_zero, List.nil_append]
      simp [EntryLayout.diffKey, (hwf.valid e' (by simp [hL])).overlap_eq_zero hr]
  simp [atEntry, hkey]

/-- `next_inner` from the last entry invalidates the iterator. -/
theorem nextInner_atEntry_last (hblk : blk.Holds L) {pre : List EntryLayout} {e : EntryLayout}
    (hL : L = pre ++ [e]) : (atEntry blk pre e).nextInner = some (atEntry blk pre e).invalidate :=
  nextInner_of_end (by rw [atEntry_offset_add_entryLen, atEntry_block, hblk.dataLen_eq, hL])

/-- `next_until_prev_offset` walks from the entry `e` to the entry `f` that ends
at the offset it is given, one `next_inner` per entry in between. -/
theorem nextUntilPrevOffset_atEntry (hblk : blk.Holds L) (hwf : LayoutWF L)
    (hfits : (layoutBytes L).length ≤ 2 ^ 32) (mid : List EntryLayout) :
    ∀ (pre init post : List EntryLayout) (e f : EntryLayout) (fuel : ℕ),
      L = pre ++ init ++ f :: post → e :: mid = init ++ [f] → mid.length < fuel →
      nextUntilPrevOffset (layoutBytes (pre ++ init ++ [f])).length fuel (atEntry blk pre e) =
        some (atEntry blk (pre ++ init) f) := by
  induction mid with
  | nil =>
    intro pre init post e f fuel hL hmid hfuel
    obtain ⟨rfl, rfl⟩ : init = [] ∧ e = f := by
      rcases List.singleton_eq_append_iff.mp hmid with ⟨h₁, h₂⟩ | ⟨-, h₂⟩
      · exact ⟨h₁, (List.singleton_inj.mp h₂).symm⟩
      · cases h₂
    obtain ⟨fuel, rfl⟩ : ∃ n, fuel = n + 1 := ⟨fuel - 1, by omega⟩
    -- The entry already ends at the offset.
    rw [nextUntilPrevOffset, if_neg (by rw [atEntry_offset_add_entryLen]; simp)]
    simp
  | cons m mid ih =>
    intro pre init post e f fuel hL hmid hfuel
    obtain ⟨init, rfl, hinit⟩ : ∃ init', init = e :: init' ∧ m :: mid = init' ++ [f] := by
      rcases List.cons_eq_append_iff.mp hmid with ⟨-, h⟩ | ⟨init', h₁, h₂⟩
      · simp at h
      · exact ⟨init', h₁, h₂⟩
    obtain ⟨fuel, rfl⟩ : ∃ n, fuel = n + 1 := ⟨fuel - 1, by omega⟩
    have hL' : L = pre ++ e :: m :: (mid ++ post) := by
      have : m :: (mid ++ post) = init ++ f :: post := by
        rw [← List.cons_append, hinit]
        simp
      rw [hL, this]
      simp
    have hlen := f.two_le_bytes_length
    have hend : (layoutBytes (pre ++ e :: init ++ [f])).length ≤ blk.dataLen := by
      rw [hblk.dataLen_eq, hL]
      simp
    -- `e` ends before the offset: one step, then the rest of the walk.
    have hlt : (atEntry blk pre e).offset + (atEntry blk pre e).entryLen <
        min (atEntry blk pre e).block.dataLen (layoutBytes (pre ++ e :: init ++ [f])).length := by
      have hsplit : (layoutBytes (pre ++ e :: init ++ [f])).length =
          (layoutBytes (pre ++ [e])).length + (layoutBytes init).length + f.bytes.length := by
        simp
        omega
      rw [atEntry_offset_add_entryLen, atEntry_block, Nat.lt_min]
      omega
    rw [nextUntilPrevOffset, if_pos hlt, nextInner_atEntry hblk hwf hfits hL', Option.bind_eq_bind,
      Option.bind_some]
    have := ih (pre ++ [e]) init post m f fuel (by simp [hL]) hinit (by simpa using hfuel)
    simpa using this

/-- The restart point an entry is read from: the last restart entry at or before it. -/
theorem exists_last_restart (hwf : LayoutWF L) {pre post : List EntryLayout}
    (hL : L = pre ++ post) (hpre : pre ≠ []) :
    ∃ pre₁ r mid, pre = pre₁ ++ r :: mid ∧ r.restart ∧ ∀ m ∈ mid, m.restart = false := by
  have hpos := countP_restart_pos hwf hL hpre
  obtain ⟨x, hx, hrx⟩ := List.countP_pos_iff.mp hpos
  exact List.exists_split_last ⟨x, hx, hrx⟩

theorem countP_restart_split {pre₁ mid : List EntryLayout} {r : EntryLayout} (hr : r.restart)
    (hmid : ∀ m ∈ mid, m.restart = false) :
    (pre₁ ++ r :: mid).countP EntryLayout.restart = pre₁.countP EntryLayout.restart + 1 := by
  have hmid0 : mid.countP EntryLayout.restart = 0 := List.countP_eq_zero.mpr (by simpa using hmid)
  rw [List.countP_append, List.countP_cons, hmid0]
  simp [hr]

/-- A block holds at least as many bytes as entries. -/
theorem length_le_dataLen (hblk : blk.Holds L) : L.length ≤ blk.dataLen := by
  have := two_mul_length_le L
  rw [hblk.dataLen_eq]
  omega

/-- `prev_inner` moves from an entry to the entry before it. -/
theorem prevInner_atEntry (hblk : blk.Holds L) (hwf : LayoutWF L)
    (hfits : (layoutBytes L).length ≤ 2 ^ 32) {pre post : List EntryLayout} {p e : EntryLayout}
    (hL : L = pre ++ p :: e :: post) :
    (atEntry blk (pre ++ [p]) e).prevInner = some (atEntry blk pre p) := by
  have hL' : L = (pre ++ [p]) ++ e :: post := by simp [hL]
  obtain ⟨pre₁, r, mid, hsplit, hr, hmid⟩ := exists_last_restart hwf hL' (by simp)
  have hcount : (pre ++ [p]).countP EntryLayout.restart =
      pre₁.countP EntryLayout.restart + 1 := by
    rw [hsplit, countP_restart_split hr hmid]
  have hLr : L = pre₁ ++ r :: (mid ++ e :: post) := by simp [hL', hsplit]
  have hpos := p.two_le_bytes_length
  have hrlen := r.two_le_bytes_length
  have hpre_len : (layoutBytes (pre ++ [p])).length = (layoutBytes pre).length + p.bytes.length := by
    simp
  have hoffset : (atEntry blk (pre ++ [p]) e).offset ≠ 0 := by
    rw [atEntry_offset, hpre_len]
    omega
  -- The index of the restart point to seek, in both cases `pre₁`'s count.
  obtain ⟨rp, hrp, hindex⟩ : ∃ rp, blk.restartPoints[
      (atEntry blk (pre ++ [p]) e).restartPointIndex]? = some rp ∧
      ((rp.offset.toNat = (atEntry blk (pre ++ [p]) e).offset ∧
        (atEntry blk (pre ++ [p]) e).restartPointIndex ≠ 0 ∧
        pre₁.countP EntryLayout.restart = (atEntry blk (pre ++ [p]) e).restartPointIndex - 1) ∨
      (rp.offset.toNat ≠ (atEntry blk (pre ++ [p]) e).offset ∧
        pre₁.countP EntryLayout.restart = (atEntry blk (pre ++ [p]) e).restartPointIndex)) := by
    rw [atEntry_restartPointIndex, hcount]
    cases he : e.restart
    · -- `e` is read from `r`'s restart point, which lies before it.
      refine ⟨r.restartPoint (layoutBytes pre₁).length, ?_, .inr ⟨?_, by simp⟩⟩
      · simpa using restartPoints_getElem?_entry hblk hLr hr
      · have hsplit_len : (layoutBytes (pre ++ [p])).length =
            (layoutBytes pre₁).length + r.bytes.length + (layoutBytes mid).length := by
          rw [hsplit]
          simp
          omega
        rw [EntryLayout.restartPoint_offset, UInt32.toNat_ofNat',
          Nat.mod_eq_of_lt (offset_lt hLr hfits), atEntry_offset, hsplit_len]
        omega
    · -- `e` is a restart point itself: the one before is `r`'s.
      refine ⟨e.restartPoint (layoutBytes (pre ++ [p])).length, ?_, .inl ⟨?_, by simp, by simp⟩⟩
      · rw [if_pos rfl, Nat.add_sub_cancel, ← hcount]
        exact restartPoints_getElem?_entry hblk hL' he
      · rw [EntryLayout.restartPoint_offset, UInt32.toNat_ofNat',
          Nat.mod_eq_of_lt (offset_lt hL' hfits), atEntry_offset]
  obtain ⟨init, hinit, hpre⟩ := List.exists_of_append_cons_eq_concat hsplit.symm
  have hfuel : mid.length < blk.dataLen := by
    have := length_le_dataLen hblk
    rw [hLr] at this
    simp at this
    omega
  rw [prevInner, tryPrevInner_eq hoffset (by rw [atEntry_block]; exact hrp) hindex]
  rw [seekRestartPointByIndex_atEntry hblk hwf hfits (atEntry_block _ _ _) hLr hr]
  simp only [Option.bind_eq_bind, Option.bind_some, atEntry_block, atEntry_offset]
  have hwalk := nextUntilPrevOffset_atEntry hblk hwf hfits mid pre₁ init (e :: post) r p
    blk.dataLen (by rw [hL, ← hpre]) hinit hfuel
  rw [show pre ++ [p] = pre₁ ++ init ++ [p] by rw [hpre], hwalk, hpre]
  rfl

/-- `seek_to_first` reaches the first entry. -/
theorem seekToFirst_atEntry (hblk : blk.Holds L) (hwf : LayoutWF L)
    (hfits : (layoutBytes L).length ≤ 2 ^ 32) {e : EntryLayout} {post : List EntryLayout}
    (hL : L = e :: post) : (BlockIterator.new blk).seekToFirst = some (atEntry blk [] e) := by
  have hr := (hwf.valid e (by simp [hL])).restart_of_typeChange (hwf.head e (by simp [hL]))
  have hL' : L = [] ++ e :: post := hL
  exact seekRestartPointByIndex_atEntry hblk hwf hfits
    (show (BlockIterator.new blk).block = blk from rfl) hL' hr

/-- `seek_to_last` reaches the last entry: the last restart point, then forward. -/
theorem seekToLast_atEntry (hblk : blk.Holds L) (hwf : LayoutWF L)
    (hfits : (layoutBytes L).length ≤ 2 ^ 32) {pre : List EntryLayout} {e : EntryLayout}
    (hL : L = pre ++ [e]) : (BlockIterator.new blk).seekToLast = some (atEntry blk pre e) := by
  have hL0 : L = L ++ [] := by simp
  obtain ⟨pre₁, r, mid, hsplit, hr, hmid⟩ := exists_last_restart hwf hL0 (by simp [hL])
  have hcount : L.countP EntryLayout.restart = pre₁.countP EntryLayout.restart + 1 := by
    rw [hsplit, countP_restart_split hr hmid]
  have hne : blk.restartPoints ≠ [] := by
    rw [hblk.restartPoints_eq, ← List.length_pos_iff, length_pointsFrom, hcount]
    omega
  have hlast : blk.restartPoints.length - 1 = pre₁.countP EntryLayout.restart := by
    rw [hblk.restartPoints_eq, length_pointsFrom, hcount, Nat.add_sub_cancel]
  have hLr : L = pre₁ ++ r :: (mid ++ []) := by simp [hsplit]
  obtain ⟨init, hinit, hpre⟩ := List.exists_of_append_cons_eq_concat (hsplit.symm.trans hL)
  have hfuel : mid.length < blk.dataLen := by
    have := length_le_dataLen hblk
    rw [hsplit] at this
    simp at this
    omega
  -- The last restart point, then forward to the end of the entries.
  have hwalk := nextUntilPrevOffset_atEntry hblk hwf hfits mid pre₁ init [] r e blk.dataLen
    (by rw [hL, ← hpre]) hinit hfuel
  have hend : (layoutBytes (pre₁ ++ init ++ [e])).length = blk.dataLen := by
    rw [hblk.dataLen_eq, hL, ← hpre]
  rw [hend, hpre] at hwalk
  simp only [seekToLast, BlockIterator.new, if_neg hne, hlast]
  rw [seekRestartPointByIndex_atEntry hblk hwf hfits rfl hLr hr]
  simpa using hwalk

theorem isValid_atEntry (hblk : blk.Holds L) {pre post : List EntryLayout} {e : EntryLayout}
    (hL : L = pre ++ e :: post) : (atEntry blk pre e).isValid = true := by
  have := e.two_le_bytes_length
  simp only [isValid, atEntry_offset, atEntry_block, hblk.dataLen_eq, hL, decide_eq_true_eq,
    layoutBytes_append, layoutBytes_cons, List.length_append]
  omega

/-- The reader's view of an entry: its key and its value. -/
theorem read_atEntry (hblk : blk.Holds L) {pre post : List EntryLayout} {e : EntryLayout}
    (hL : L = pre ++ e :: post) :
    ((atEntry blk pre e).key?.bind fun k => ((atEntry blk pre e).value?).map fun v => (k, v)) =
      e.read blk.tableId := by
  have hvalid := isValid_atEntry hblk hL
  simp only [key?, value?, hvalid, if_true, slice_value hblk (atEntry_block _ _ _) hL,
    atEntry_block, atEntry_key, EntryLayout.read]
  cases FullKey.fromSliceWithoutTableId blk.tableId e.key <;> rfl

/-- Reading forward from an entry with `next` gives it and every entry after it,
then stops at the invalid iterator. -/
theorem readWith_next_atEntry (hblk : blk.Holds L) (hwf : LayoutWF L)
    (hfits : (layoutBytes L).length ≤ 2 ^ 32) (post : List EntryLayout) :
    ∀ (pre : List EntryLayout) (e : EntryLayout) (fuel : ℕ), L = pre ++ e :: post →
      post.length < fuel →
      readWith next fuel (atEntry blk pre e) = (e :: post).mapM (EntryLayout.read blk.tableId) := by
  induction post with
  | nil =>
    intro pre e fuel hL hfuel
    obtain ⟨fuel, rfl⟩ : ∃ n, fuel = n + 1 := ⟨fuel - 1, by omega⟩
    have hread := read_atEntry hblk hL
    have hnext : (atEntry blk pre e).next = some (atEntry blk pre e).invalidate := by
      rw [next, isValid_atEntry hblk hL, if_pos rfl, nextInner_atEntry_last hblk hL]
    rw [readWith, if_pos (isValid_atEntry hblk hL)]
    simp only [hnext, readWith_of_isValid_eq_false _ _ (isValid_invalidate _), Option.bind_eq_bind,
      Option.bind_some, List.mapM_cons, List.mapM_nil, ← hread]
    cases (atEntry blk pre e).key? <;> cases (atEntry blk pre e).value? <;> rfl
  | cons e' post ih =>
    intro pre e fuel hL hfuel
    obtain ⟨fuel, rfl⟩ : ∃ n, fuel = n + 1 := ⟨fuel - 1, by omega⟩
    have hread := read_atEntry hblk hL
    have hnext : (atEntry blk pre e).next = some (atEntry blk (pre ++ [e]) e') := by
      rw [next, isValid_atEntry hblk hL, if_pos rfl, nextInner_atEntry hblk hwf hfits hL]
    have hrest := ih (pre ++ [e]) e' fuel (by simp [hL]) (by simpa using hfuel)
    rw [readWith, if_pos (isValid_atEntry hblk hL)]
    simp only [hnext, hrest, Option.bind_eq_bind, Option.bind_some, List.mapM_cons, ← hread]
    cases (atEntry blk pre e).key? <;> cases (atEntry blk pre e).value? <;> rfl

/-- Reading backward from an entry with `prev` gives it and every entry before
it, nearest first, then stops at the invalid iterator. -/
theorem readWith_prev_atEntry (hblk : blk.Holds L) (hwf : LayoutWF L)
    (hfits : (layoutBytes L).length ≤ 2 ^ 32) (pre : List EntryLayout) :
    ∀ (e : EntryLayout) (post : List EntryLayout) (fuel : ℕ), L = pre ++ e :: post →
      pre.length < fuel →
      readWith prev fuel (atEntry blk pre e) =
        (e :: pre.reverse).mapM (EntryLayout.read blk.tableId) := by
  induction pre using List.reverseRecOn with
  | nil =>
    intro e post fuel hL hfuel
    obtain ⟨fuel, rfl⟩ : ∃ n, fuel = n + 1 := ⟨fuel - 1, by omega⟩
    have hread := read_atEntry hblk hL
    have hprev : (atEntry blk [] e).prev = some (atEntry blk [] e).invalidate := by
      rw [prev, isValid_atEntry hblk hL, if_pos rfl, prevInner_of_offset_eq_zero rfl]
    rw [readWith, if_pos (isValid_atEntry hblk hL)]
    simp only [hprev, readWith_of_isValid_eq_false _ _ (isValid_invalidate _), Option.bind_eq_bind,
      Option.bind_some, List.reverse_nil, List.mapM_cons, List.mapM_nil, ← hread]
    cases (atEntry blk [] e).key? <;> cases (atEntry blk [] e).value? <;> rfl
  | append_singleton pre p ih =>
    intro e post fuel hL hfuel
    obtain ⟨fuel, rfl⟩ : ∃ n, fuel = n + 1 := ⟨fuel - 1, by omega⟩
    have hread := read_atEntry hblk hL
    have hL' : L = pre ++ p :: e :: post := by simp [hL]
    have hprev : (atEntry blk (pre ++ [p]) e).prev = some (atEntry blk pre p) := by
      rw [prev, isValid_atEntry hblk hL, if_pos rfl, prevInner_atEntry hblk hwf hfits hL']
    have hrest := ih p (e :: post) fuel hL' (by simpa using hfuel)
    rw [readWith, if_pos (isValid_atEntry hblk hL)]
    simp only [hprev, hrest, Option.bind_eq_bind, Option.bind_some, List.reverse_append,
      List.reverse_singleton, List.singleton_append, List.mapM_cons, ← hread]
    cases (atEntry blk (pre ++ [p]) e).key? <;> cases (atEntry blk (pre ++ [p]) e).value? <;> rfl

end Holds

end BlockIterator

end RisingWave.Hummock
