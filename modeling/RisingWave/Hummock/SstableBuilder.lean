import RisingWave.Hummock.Block
import RisingWave.Hummock.XorFilter
import RisingWave.Hummock.UserIterator

/-!
# Building an SST: its blocks and its filter

`sstable/builder.rs`. `SstableBuilder::add` takes the entries of an SST in key order. Before a
new user key it may build the block (at a new table, or once the block has reached its
capacity); the first entry of each block gives the block's meta its smallest key, and the
filter key of every entry goes to the filter builder, which is told when a block is built.
`finish` builds the last block, then the filter.

The writer is the bytes written so far. The key range, the statistics and the delete events
of the SST are not modelled, nor are the table ids it records. The filter key extractor, the
compressor and the checksum are parameters; `bloom_false_positive`, an `f64`, is a rational.
-/

namespace RisingWave.Hummock

open ByteCodec ByteBuf
open RisingWave.Storage (Bound inRange)

/-- `VALUE_PUT`. -/
def VALUE_PUT : UInt8 := 0

/-- `VALUE_DELETE`. -/
def VALUE_DELETE : UInt8 := 1

/-- `HummockValue::encode`: a flag byte, then the value of a put. -/
def HummockValue.encode : HummockValue (List UInt8) → List UInt8
  | .put val => putU8 VALUE_PUT ++ val
  | .delete => putU8 VALUE_DELETE

/-- `user_key`: an encoded full key without its epoch; panics on fewer than eight bytes. -/
def userKey (fullKey : List UInt8) : Option (List UInt8) :=
  if fullKey.length < EPOCH_LEN then none else some (fullKey.take (fullKey.length - EPOCH_LEN))

/-- `SstableBuilderOptions`: the fields the builder reads for its blocks and its filter. -/
structure SstableBuilderOptions where
  blockCapacity : ℕ
  restartInterval : ℕ
  bloomFalsePositive : ℚ
  compressionAlgorithm : CompressionAlgorithm

/-- `SstableBuilder`, over the state of its filter builder. -/
structure SstableBuilder (F : Type) where
  options : SstableBuilderOptions
  writer : List UInt8
  blockBuilder : BlockBuilder
  blockMetas : List BlockMeta
  lastTableId : Option TableId
  filterBuilder : F

namespace SstableBuilder

/-- The arguments of one `add`: the full key, the value and `is_new_user_key`. -/
abbrev Entry := FullKey × HummockValue (List UInt8) × Bool

variable {F : Type} (fb : FilterBuilder F) (extract : List UInt8 → List UInt8)
  (compress : CompressionAlgorithm → List UInt8 → List UInt8)
  (xxhash64Checksum : List UInt8 → UInt64)

/-- `SstableBuilder::new`, with a writer that has written nothing. -/
def new (options : SstableBuilderOptions) (filterBuilder : F) : SstableBuilder F :=
  ⟨options, [], BlockBuilder.new ⟨options.compressionAlgorithm, options.restartInterval⟩, [], none,
    filterBuilder⟩

/-- `build_block`: an empty block only drops the meta pushed for it. Otherwise the block is
written, its meta completed, the filter builder moves on to the next block and the block
builder is cleared. -/
def buildBlock (self : SstableBuilder F) : Option (SstableBuilder F) :=
  if self.blockBuilder.isEmpty then some { self with blockMetas := self.blockMetas.dropLast }
  else do
    let blockMeta ← self.blockMetas.getLast?
    let uncompressedSize := UInt32.ofNat self.blockBuilder.uncompressedBlockSize
    let block ← self.blockBuilder.build compress xxhash64Checksum
    let writer := self.writer ++ block
    pure { self with
      writer
      blockMetas := self.blockMetas.dropLast ++
        [{ blockMeta with uncompressedSize, len := UInt32.ofNat writer.length - blockMeta.offset }]
      filterBuilder := fb.switchBlock self.filterBuilder
      blockBuilder := self.blockBuilder.clear }

/-- The first part of `add`: before a new user key the block is built at a new table, or once
it has reached the block capacity. Also returns whether the key starts a new table. -/
def startUserKey (self : SstableBuilder F) (tableId : TableId) (isNewUserKey : Bool) :
    Option (SstableBuilder F × Bool) :=
  if isNewUserKey then
    if self.lastTableId.isNone || self.lastTableId.any (· ≠ tableId) then
      let self := { self with lastTableId := some tableId }
      if !self.blockBuilder.isEmpty then
        (buildBlock fb compress xxhash64Checksum self).map (·, true)
      else some (self, true)
    else if self.options.blockCapacity ≤ self.blockBuilder.approximateLen then
      (buildBlock fb compress xxhash64Checksum self).map (·, false)
    else some (self, false)
  else some (self, false)

/-- `add`. -/
def add (self : SstableBuilder F) (fullKey : FullKey) (value : HummockValue (List UInt8))
    (isNewUserKey : Bool) : Option (SstableBuilder F) := do
  let rawKey := fullKey.encode
  let rawValue := value.encode
  let tableId := fullKey.userKey.tableId
  let (self, isNewTable) ← self.startUserKey fb compress xxhash64Checksum tableId isNewUserKey
  let self ← (if isNewTable && !self.blockBuilder.isEmpty then
      buildBlock fb compress xxhash64Checksum self
    else pure self)
  -- the first entry of a block starts its meta
  let self := if self.blockBuilder.isEmpty then
      { self with
        blockMetas := self.blockMetas ++ [⟨rawKey, UInt32.ofNat self.writer.length, 0, 0⟩] }
    else self
  let extractKey := extract (← userKey rawKey)
  let self := if !extractKey.isEmpty then
      { self with filterBuilder := fb.addKey self.filterBuilder extractKey tableId }
    else self
  let blockBuilder ← self.blockBuilder.add fullKey rawValue
  pure { self with blockBuilder }

/-- `add` of each entry in turn. -/
def addAll (self : SstableBuilder F) : List Entry → Option (SstableBuilder F)
  | [] => some self
  | (fullKey, value, isNewUserKey) :: entries =>
    (self.add fb extract compress xxhash64Checksum fullKey value isNewUserKey).bind
      (addAll · entries)

/-- `finish`: the last block is built, then the filter, left empty when the false positive
rate is not positive. Returns the block metas and the filter of the SST's meta. -/
def finish (self : SstableBuilder F) : Option (List BlockMeta × List UInt8) := do
  let self ← buildBlock fb compress xxhash64Checksum self
  let bloomFilter := if 0 < self.options.bloomFalsePositive then (fb.finish self.filterBuilder).1
    else []
  pure (self.blockMetas, bloomFilter)

/-- `user_key` of an encoded full key. -/
theorem userKey_encode (k : FullKey) : userKey k.encode = some k.userKey.encode := by
  have hlen : ¬ k.encode.length < EPOCH_LEN := by simp [FullKey.encodedLen]
  have hpos : k.encode.length - EPOCH_LEN = k.userKey.encode.length := by
    simp [FullKey.encodedLen]
  rw [userKey, if_neg hlen, hpos, FullKey.encode, List.take_left]

attribute [local simp] buildBlock in
/-- `build_block` of a block with entries: the block metas keep their smallest keys, the
filter builder moves on to the next block, and the block builder is left empty. -/
theorem buildBlock_spec {self b : SstableBuilder F} (hne : self.blockBuilder.isEmpty = false)
    (h : buildBlock fb compress xxhash64Checksum self = some b) :
    b.blockBuilder.isEmpty = true ∧
      b.blockMetas.map (·.smallestKey) = self.blockMetas.map (·.smallestKey) ∧
      b.filterBuilder = fb.switchBlock self.filterBuilder := by
  simp only [buildBlock, hne, Bool.false_eq_true, if_false, Option.bind_eq_bind,
    Option.bind_eq_some_iff, Option.pure_def, Option.some.injEq] at h
  obtain ⟨blockMeta, hlast, block, -, rfl⟩ := h
  refine ⟨BlockBuilder.clear_isEmpty _, ?_, rfl⟩
  obtain ⟨ys, hys⟩ := List.getLast?_eq_some_iff.mp hlast
  simp [hys]

/-- The filter builder after the filter key of an entry, if it has one. -/
def addFilterKey (f : F) (fullKey : FullKey) : F :=
  let extractKey := extract fullKey.userKey.encode
  if !extractKey.isEmpty then fb.addKey f extractKey fullKey.userKey.tableId else f

attribute [local simp] startUserKey in
/-- Before a new user key, `add` either keeps the block, or, for a new user key only, builds
it. -/
theorem startUserKey_spec {self s : SstableBuilder F} {tableId : TableId}
    {isNewUserKey isNewTable : Bool} (hne : self.blockBuilder.isEmpty = false)
    (h : self.startUserKey fb compress xxhash64Checksum tableId isNewUserKey =
      some (s, isNewTable)) :
    (isNewTable = false ∧ s.blockBuilder = self.blockBuilder ∧ s.blockMetas = self.blockMetas ∧
        s.filterBuilder = self.filterBuilder) ∨
      (isNewUserKey = true ∧ s.blockBuilder.isEmpty = true ∧
        s.blockMetas.map (·.smallestKey) = self.blockMetas.map (·.smallestKey) ∧
        s.filterBuilder = fb.switchBlock self.filterBuilder) := by
  unfold startUserKey at h
  cases isNewUserKey with
  | false =>
    simp only [Bool.false_eq_true, if_false, Option.some.injEq, Prod.mk.injEq] at h
    obtain ⟨rfl, rfl⟩ := h
    exact .inl ⟨rfl, rfl, rfl, rfl⟩
  | true =>
    simp only [if_true] at h
    split at h
    · simp only [hne, Bool.not_false, if_true, Option.map_eq_some_iff, Prod.mk.injEq] at h
      obtain ⟨b, hb, rfl, -⟩ := h
      -- the table id noted does not change the block
      have hbuilt := buildBlock_spec fb compress xxhash64Checksum (by exact hne) hb
      exact .inr ⟨rfl, hbuilt⟩
    · split at h
      · simp only [Option.map_eq_some_iff, Prod.mk.injEq] at h
        obtain ⟨b, hb, rfl, -⟩ := h
        exact .inr ⟨rfl, buildBlock_spec fb compress xxhash64Checksum hne hb⟩
      · simp only [Option.some.injEq, Prod.mk.injEq] at h
        obtain ⟨rfl, rfl⟩ := h
        exact .inl ⟨rfl, rfl, rfl, rfl⟩

attribute [local simp] addFilterKey in
/-- `add` when it does not panic: the user key started, the block built again at a new table,
the meta of a new block pushed, the filter key added and the entry put into the block. -/
theorem add_spec {self b : SstableBuilder F} {fullKey : FullKey}
    {value : HummockValue (List UInt8)} {isNewUserKey : Bool}
    (h : self.add fb extract compress xxhash64Checksum fullKey value isNewUserKey = some b) :
    ∃ s isNewTable s',
      self.startUserKey fb compress xxhash64Checksum fullKey.userKey.tableId isNewUserKey =
        some (s, isNewTable) ∧
      (if isNewTable && !s.blockBuilder.isEmpty then buildBlock fb compress xxhash64Checksum s
        else some s) = some s' ∧
      b.blockBuilder.isEmpty = false ∧
      b.blockMetas = (if s'.blockBuilder.isEmpty then
          s'.blockMetas ++ [⟨fullKey.encode, UInt32.ofNat s'.writer.length, 0, 0⟩]
        else s'.blockMetas) ∧
      b.filterBuilder = addFilterKey fb extract s'.filterBuilder fullKey := by
  simp only [add, userKey_encode, Option.bind_eq_bind, Option.bind_eq_some_iff,
    Option.some.injEq, exists_eq_left', Option.pure_def] at h
  obtain ⟨⟨s, isNewTable⟩, hstart, s', hs', bb, hbb, rfl⟩ := h
  refine ⟨s, isNewTable, s', hstart, hs', BlockBuilder.isEmpty_of_add hbb, ?_, ?_⟩
  · by_cases he : s'.blockBuilder.isEmpty <;>
      by_cases hk : (extract fullKey.userKey.encode).isEmpty <;> simp [he, hk]
  · by_cases he : s'.blockBuilder.isEmpty <;>
      by_cases hk : (extract fullKey.userKey.encode).isEmpty <;> simp [addFilterKey, he, hk]

/-- Before the first user key, nothing is built: the block stays empty and no meta is
dropped. -/
theorem startUserKey_of_isEmpty {self s : SstableBuilder F} {tableId : TableId}
    {isNewUserKey isNewTable : Bool} (he : self.blockBuilder.isEmpty = true)
    (hm : self.blockMetas = [])
    (h : self.startUserKey fb compress xxhash64Checksum tableId isNewUserKey =
      some (s, isNewTable)) :
    s.blockBuilder.isEmpty = true ∧ s.blockMetas = [] ∧ s.filterBuilder = self.filterBuilder := by
  unfold startUserKey at h
  cases isNewUserKey with
  | false =>
    simp only [Bool.false_eq_true, if_false, Option.some.injEq, Prod.mk.injEq] at h
    obtain ⟨rfl, -⟩ := h
    exact ⟨he, hm, rfl⟩
  | true =>
    simp only [if_true, he, Bool.not_true, Bool.false_eq_true, if_false] at h
    split at h
    · simp only [Option.some.injEq, Prod.mk.injEq] at h
      obtain ⟨rfl, -⟩ := h
      exact ⟨he, hm, rfl⟩
    · split at h
      · -- building the empty block drops the meta of no block
        simp only [buildBlock, he, if_true, hm, List.dropLast_nil, Option.map_some,
          Option.some.injEq, Prod.mk.injEq] at h
        obtain ⟨rfl, -⟩ := h
        exact ⟨he, rfl, rfl⟩
      · simp only [Option.some.injEq, Prod.mk.injEq] at h
        obtain ⟨rfl, -⟩ := h
        exact ⟨he, hm, rfl⟩

/-- `add` of a block's later entry, or of the first entry of a new block. -/
theorem add_step {self b : SstableBuilder F} {fullKey : FullKey}
    {value : HummockValue (List UInt8)} {isNewUserKey : Bool}
    (hne : self.blockBuilder.isEmpty = false)
    (h : self.add fb extract compress xxhash64Checksum fullKey value isNewUserKey = some b) :
    b.blockBuilder.isEmpty = false ∧
      ((b.blockMetas.map (·.smallestKey) = self.blockMetas.map (·.smallestKey) ∧
          b.filterBuilder = addFilterKey fb extract self.filterBuilder fullKey) ∨
        (isNewUserKey = true ∧
          b.blockMetas.map (·.smallestKey) =
            self.blockMetas.map (·.smallestKey) ++ [fullKey.encode] ∧
          b.filterBuilder = addFilterKey fb extract (fb.switchBlock self.filterBuilder) fullKey)) := by
  obtain ⟨s, isNewTable, s', hstart, hs', hbb, hm, hf⟩ := add_spec fb extract compress
    xxhash64Checksum h
  refine ⟨hbb, ?_⟩
  rcases startUserKey_spec fb compress xxhash64Checksum hne hstart with
    ⟨rfl, hsb, hsm, hsf⟩ | ⟨hnew, hse, hsm, hsf⟩
  · -- the block goes on
    simp only [Bool.false_and, Bool.false_eq_true, if_false, Option.some.injEq] at hs'
    subst hs'
    left
    simp [hm, hsb, hne, hsm, hf, hsf]
  · -- the block was built: the entry starts the next one
    simp only [hse, Bool.not_true, Bool.and_false, Bool.false_eq_true, if_false,
      Option.some.injEq] at hs'
    subst hs'
    right
    simp [hm, hse, hsm, hf, hsf, hnew]

/-- The first `add` starts the first block. -/
theorem add_of_isEmpty {self b : SstableBuilder F} {fullKey : FullKey}
    {value : HummockValue (List UInt8)} {isNewUserKey : Bool}
    (he : self.blockBuilder.isEmpty = true) (hm : self.blockMetas = [])
    (h : self.add fb extract compress xxhash64Checksum fullKey value isNewUserKey = some b) :
    b.blockBuilder.isEmpty = false ∧ b.blockMetas.map (·.smallestKey) = [fullKey.encode] ∧
      b.filterBuilder = addFilterKey fb extract self.filterBuilder fullKey := by
  obtain ⟨s, isNewTable, s', hstart, hs', hbb, hbm, hf⟩ := add_spec fb extract compress
    xxhash64Checksum h
  obtain ⟨hse, hsm, hsf⟩ := startUserKey_of_isEmpty fb compress xxhash64Checksum he hm hstart
  simp only [hse, Bool.not_true, Bool.and_false, Bool.false_eq_true, if_false,
    Option.some.injEq] at hs'
  subst hs'
  simp [hbb, hbm, hse, hsm, hf, hsf]

/-! ## The blocks of a run -/

/-- The entries of blocks, each a first entry and the rest, in order. -/
def entriesOf (blocks : List (Entry × List Entry)) : List Entry :=
  blocks.flatMap fun blk => blk.1 :: blk.2

/-- The filter builder after the filter keys of a block's entries. -/
def feedBlock (f : F) (blk : Entry × List Entry) : F :=
  (blk.1 :: blk.2).foldl (fun f a => addFilterKey fb extract f a.1) f

/-- The filter builder after blocks built: the filter keys of each, then a switch. -/
def feedBlocks (f : F) (blocks : List (Entry × List Entry)) : F :=
  blocks.foldl (fun f blk => fb.switchBlock (feedBlock fb extract f blk)) f

attribute [local simp] entriesOf in
@[simp] theorem entriesOf_append (l l' : List (Entry × List Entry)) :
    entriesOf (l ++ l') = entriesOf l ++ entriesOf l' := by
  simp [entriesOf]

@[simp] theorem entriesOf_singleton (blk : Entry × List Entry) :
    entriesOf [blk] = blk.1 :: blk.2 := by
  simp [entriesOf]

/-- A builder with the blocks `done` built and the block `cur` open, started from `init`:
every block but the first starts at a new user key, the block metas hold the blocks' first
keys, and the filter builder has had the filter keys of every entry, and a switch after each
block built. -/
structure Built (init : F) (builder : SstableBuilder F) (done : List (Entry × List Entry))
    (cur : Entry × List Entry) : Prop where
  starts : ∀ a ∈ ((done ++ [cur]).map (·.1)).tail, a.2.2 = true
  smallestKeys : builder.blockMetas.map (·.smallestKey) = (done ++ [cur]).map (·.1.1.encode)
  open_block : builder.blockBuilder.isEmpty = false
  filter : builder.filterBuilder = feedBlock fb extract (feedBlocks fb extract init done) cur

attribute [local simp] feedBlock feedBlocks in
/-- An `add` puts its entry in the open block, or, at a new user key, in a new block. -/
theorem Built.add {init : F} {self b : SstableBuilder F} {done : List (Entry × List Entry)}
    {cur : Entry × List Entry} (hb : Built fb extract init self done cur) {fullKey : FullKey}
    {value : HummockValue (List UInt8)} {isNewUserKey : Bool}
    (h : self.add fb extract compress xxhash64Checksum fullKey value isNewUserKey = some b) :
    Built fb extract init b done (cur.1, cur.2 ++ [(fullKey, value, isNewUserKey)]) ∨
      Built fb extract init b (done ++ [cur]) ((fullKey, value, isNewUserKey), []) := by
  obtain ⟨hne, ⟨hm, hf⟩ | ⟨hnew, hm, hf⟩⟩ := add_step fb extract compress xxhash64Checksum
    hb.open_block h
  · left
    refine ⟨by simpa using hb.starts, by simpa [hm] using hb.smallestKeys, hne, ?_⟩
    rw [hf, hb.filter]
    simp [feedBlock, List.foldl_append]
  · right
    refine ⟨?_, by simp [hm, hb.smallestKeys], hne, ?_⟩
    · rw [List.map_append, List.tail_append_of_ne_nil (by simp)]
      intro a ha
      rcases List.mem_append.mp ha with ha | ha
      · exact hb.starts a ha
      · simp only [List.map_cons, List.map_nil, List.mem_singleton] at ha
        rw [ha]
        exact hnew
    · rw [hf, hb.filter]
      simp [feedBlock, feedBlocks, List.foldl_append]

attribute [local simp] SstableBuilder.addAll in
/-- The run: the blocks after `add` of each entry hold the entries before and these. -/
theorem Built.addAll {init : F} {self b : SstableBuilder F} {done : List (Entry × List Entry)}
    {cur : Entry × List Entry} (hb : Built fb extract init self done cur) {ws : List Entry}
    (h : self.addAll fb extract compress xxhash64Checksum ws = some b) :
    ∃ done' cur', Built fb extract init b done' cur' ∧
      entriesOf (done' ++ [cur']) = entriesOf (done ++ [cur]) ++ ws := by
  induction ws generalizing self done cur with
  | nil =>
    simp only [SstableBuilder.addAll, Option.some.injEq] at h
    exact ⟨done, cur, h ▸ hb, by simp⟩
  | cons a ws ih =>
    obtain ⟨fullKey, value, isNewUserKey⟩ := a
    simp only [SstableBuilder.addAll, Option.bind_eq_some_iff] at h
    obtain ⟨b₁, h₁, hrest⟩ := h
    rcases hb.add fb extract compress xxhash64Checksum h₁ with hb₁ | hb₁
    · obtain ⟨done', cur', hb', hws⟩ := ih hb₁ hrest
      exact ⟨done', cur', hb', by simp [hws]⟩
    · obtain ⟨done', cur', hb', hws⟩ := ih hb₁ hrest
      exact ⟨done', cur', hb', by rw [hws]; simp [entriesOf]⟩

attribute [local simp] new in
/-- The first entry starts the first block. -/
theorem built_first {options : SstableBuilderOptions} {init : F} {b : SstableBuilder F}
    {fullKey : FullKey} {value : HummockValue (List UInt8)} {isNewUserKey : Bool}
    (h : (new options init).add fb extract compress xxhash64Checksum fullKey value isNewUserKey =
      some b) :
    Built fb extract init b [] ((fullKey, value, isNewUserKey), []) := by
  obtain ⟨hne, hm, hf⟩ := add_of_isEmpty fb extract compress xxhash64Checksum rfl rfl h
  exact ⟨by simp, by simp [hm], hne, by simp [hf, feedBlock, feedBlocks, new]⟩

attribute [local simp] SstableBuilder.finish in
/-- `finish` builds the open block: the metas hold every block's first key, and the filter
is the filter builder's after every block. -/
theorem Built.finish {init : F} {self : SstableBuilder F} {done : List (Entry × List Entry)}
    {cur : Entry × List Entry} (hb : Built fb extract init self done cur)
    {metas : List BlockMeta} {filter : List UInt8}
    (h : self.finish fb compress xxhash64Checksum = some (metas, filter)) :
    metas.map (·.smallestKey) = (done ++ [cur]).map (·.1.1.encode) ∧
      (filter = [] ∨ filter = (fb.finish (feedBlocks fb extract init (done ++ [cur]))).1) := by
  simp only [SstableBuilder.finish, Option.bind_eq_bind, Option.bind_eq_some_iff,
    Option.pure_def, Option.some.injEq, Prod.mk.injEq] at h
  obtain ⟨s, hs, rfl, rfl⟩ := h
  obtain ⟨-, hm, hf⟩ := buildBlock_spec fb compress xxhash64Checksum hb.open_block hs
  refine ⟨hm.trans hb.smallestKeys, ?_⟩
  have hfeed : s.filterBuilder = feedBlocks fb extract init (done ++ [cur]) := by
    rw [hf, hb.filter]
    simp [feedBlocks, List.foldl_append]
  split_ifs
  · exact .inr (by rw [hfeed])
  · exact .inl rfl

/-- An SST with no entries has no block metas. -/
theorem finish_new (options : SstableBuilderOptions) (init : F) :
    (new options init).finish fb compress xxhash64Checksum =
      some ([], if 0 < options.bloomFalsePositive then (fb.finish init).1 else []) := by
  simp [SstableBuilder.finish, buildBlock, new, BlockBuilder.isEmpty, BlockBuilder.new]

/-- The SST built from entries: the entries cut into blocks, each but the first started by a
new user key; the block metas hold the blocks' first full keys, and the filter is the filter
builder's after the filter keys of each block and a switch. -/
theorem sst_blocks {options : SstableBuilderOptions} {init : F} {ws : List Entry}
    {b : SstableBuilder F} {metas : List BlockMeta} {filter : List UInt8}
    (hrun : (new options init).addAll fb extract compress xxhash64Checksum ws = some b)
    (hfin : b.finish fb compress xxhash64Checksum = some (metas, filter)) :
    ∃ blocks : List (Entry × List Entry), entriesOf blocks = ws ∧
      (∀ a ∈ (blocks.map (·.1)).tail, a.2.2 = true) ∧
      metas.map (·.smallestKey) = blocks.map (·.1.1.encode) ∧
      (filter = [] ∨ filter = (fb.finish (feedBlocks fb extract init blocks)).1) := by
  cases ws with
  | nil =>
    simp only [SstableBuilder.addAll, Option.some.injEq] at hrun
    subst hrun
    rw [finish_new, Option.some.injEq, Prod.mk.injEq] at hfin
    obtain ⟨rfl, rfl⟩ := hfin
    refine ⟨[], rfl, by simp, rfl, ?_⟩
    split_ifs
    · exact .inr rfl
    · exact .inl rfl
  | cons a ws =>
    obtain ⟨fullKey, value, isNewUserKey⟩ := a
    simp only [SstableBuilder.addAll, Option.bind_eq_some_iff] at hrun
    obtain ⟨b₁, h₁, hrest⟩ := hrun
    obtain ⟨done, cur, hb, hws⟩ :=
      (built_first fb extract compress xxhash64Checksum h₁).addAll fb extract compress
        xxhash64Checksum hrest
    obtain ⟨hm, hf⟩ := hb.finish fb extract compress xxhash64Checksum hfin
    exact ⟨done ++ [cur], by simp [hws], hb.starts, hm, hf⟩

/-! ## Entries in key order -/

/-- The entries `add` is given: full keys strictly ascending, and `is_new_user_key` set exactly
on the first version of each user key. -/
def EntriesOrdered (ws : List Entry) : Prop :=
  ws.Pairwise (fun a b => a.1 < b.1) ∧
    ∀ i (hi : i < ws.length),
      (ws[i].2.2 = true ↔ ∀ j (hj : j < i), ws[j].1.userKey ≠ ws[i].1.userKey)

instance (ws : List Entry) : Decidable (EntriesOrdered ws) :=
  inferInstanceAs (Decidable (ws.Pairwise (fun a b => a.1 < b.1) ∧
    ∀ i (hi : i < ws.length),
      (ws[i].2.2 = true ↔ ∀ j (hj : j < i), ws[j].1.userKey ≠ ws[i].1.userKey)))

theorem userKey_le_of_lt {a b : FullKey} (h : a < b) : a.userKey ≤ b.userKey := by
  rcases FullKey.lt_iff.mp h with h | ⟨h, -⟩
  · exact h.le
  · exact h.le

/-- A new user key is above the user key of every entry before it. -/
theorem EntriesOrdered.userKey_lt {ws pre post : List Entry} {a : Entry}
    (hord : EntriesOrdered ws) (hws : ws = pre ++ a :: post) (ha : a.2.2 = true) :
    ∀ c ∈ pre, c.1.userKey < a.1.userKey := by
  intro c hc
  have hlt : c.1 < a.1 := by
    have := hord.1
    rw [hws, List.pairwise_append] at this
    exact this.2.2 c hc a List.mem_cons_self
  obtain ⟨j, hj, rfl⟩ := List.getElem_of_mem hc
  have hi : pre.length < ws.length := by simp [hws]
  have hai : ws[pre.length] = a := by simp [hws]
  have hcj : ws[j] = pre[j] := by simp [hws, List.getElem_append_left hj]
  have hnew := (hord.2 pre.length hi).mp (by rw [hai]; exact ha) j hj
  rw [hai, hcj] at hnew
  exact lt_of_le_of_ne (userKey_le_of_lt hlt) hnew

/-- Where an entry's block lies among the blocks of ordered entries, each but the first
started by a new user key: the blocks before it start at or below it, its first key is at or
below the entry, and the block after it starts above the entry. -/
theorem EntriesOrdered.block_bounds {blocks pre post : List (Entry × List Entry)}
    {blk : Entry × List Entry} {a : Entry} (hord : EntriesOrdered (entriesOf blocks))
    (hstarts : ∀ c ∈ (blocks.map (·.1)).tail, c.2.2 = true) (hblocks : blocks = pre ++ blk :: post)
    (ha : a ∈ blk.1 :: blk.2) :
    (∀ c ∈ pre, c.1.1.userKey ≤ blk.1.1.userKey) ∧ blk.1.1.userKey ≤ a.1.userKey ∧
      ∀ c ∈ post.head?, a.1.userKey < c.1.1.userKey := by
  have hws : entriesOf blocks = entriesOf pre ++ (blk.1 :: blk.2 ++ entriesOf post) := by
    simp [hblocks, entriesOf]
  have hpair := hord.1
  rw [hws, List.pairwise_append] at hpair
  refine ⟨fun c hc => ?_, ?_, fun c hc => ?_⟩
  · -- the first entry of an earlier block comes before this block's first
    have hc' : c.1 ∈ entriesOf pre := List.mem_flatMap.mpr ⟨c, hc, List.mem_cons_self⟩
    exact userKey_le_of_lt (hpair.2.2 c.1 hc' blk.1 (by simp))
  · rcases List.mem_cons.mp ha with rfl | ha
    · exact le_rfl
    · exact userKey_le_of_lt ((List.pairwise_cons.mp (List.pairwise_append.mp hpair.2.1).1).1 a ha)
  · -- the next block starts at a new user key, above every entry before it
    obtain ⟨c', post', rfl⟩ : ∃ c' post', post = c' :: post' := by
      cases post with
      | nil => simp at hc
      | cons c' post' => exact ⟨c', post', rfl⟩
    simp only [List.head?_cons, Option.mem_def, Option.some.injEq] at hc
    subst hc
    have hnew : c'.1.2.2 = true := hstarts c'.1 (by
      rw [hblocks]
      cases pre <;> simp)
    have hsplit : entriesOf blocks =
        (entriesOf pre ++ (blk.1 :: blk.2)) ++ c'.1 :: (c'.2 ++ entriesOf post') := by
      simp [hblocks, entriesOf]
    exact hord.userKey_lt hsplit hnew a (List.mem_append_right _ ha)

/-! ## The three filters -/

section Filters

variable (xxh64 : List UInt8 → UInt64)

/-- The hash of an entry's filter key, where it has one. -/
def entryHash (a : Entry) : Option UInt64 :=
  let extractKey := extract a.1.userKey.encode
  if !extractKey.isEmpty then some (hashForBloomFilter xxh64 extractKey a.1.userKey.tableId)
  else none

attribute [local simp] entryHash in
/-- The filter keys of a block, for a filter builder that keeps the hashes of its keys: they
push the hashes of the block's entries. -/
theorem feedBlock_push (push : F → List UInt64 → F)
    (hadd : ∀ f key tableId, fb.addKey f key tableId = push f [hashForBloomFilter xxh64 key tableId])
    (hpush : ∀ f hs hs', push (push f hs) hs' = push f (hs ++ hs')) (hnil : ∀ f, push f [] = f)
    (f : F) (blk : Entry × List Entry) :
    feedBlock fb extract f blk = push f ((blk.1 :: blk.2).filterMap (entryHash extract xxh64)) := by
  have hstep : ∀ f (a : Entry), addFilterKey fb extract f a.1 =
      push f (entryHash extract xxh64 a).toList := by
    intro f a
    dsimp only [addFilterKey, entryHash]
    by_cases he : (extract a.1.userKey.encode).isEmpty <;> simp [he, hadd, hnil]
  rw [feedBlock]
  generalize blk.1 :: blk.2 = l
  induction l generalizing f with
  | nil => exact (hnil f).symm
  | cons a l ih =>
    rw [List.foldl_cons, ih, hstep, hpush, List.filterMap_cons]
    cases entryHash extract xxh64 a <;> rfl

/-- Blocks for a filter builder that keeps the hashes of its keys and ignores the switches:
the hashes of all entries. -/
theorem feedBlocks_push (push : F → List UInt64 → F)
    (hadd : ∀ f key tableId, fb.addKey f key tableId = push f [hashForBloomFilter xxh64 key tableId])
    (hpush : ∀ f hs hs', push (push f hs) hs' = push f (hs ++ hs')) (hnil : ∀ f, push f [] = f)
    (hswitch : ∀ f, fb.switchBlock f = f) (f : F) (blocks : List (Entry × List Entry)) :
    feedBlocks fb extract f blocks = push f ((entriesOf blocks).filterMap (entryHash extract xxh64)) := by
  induction blocks generalizing f with
  | nil => exact (hnil f).symm
  | cons blk blocks ih =>
    rw [feedBlocks, List.foldl_cons, ← feedBlocks, ih, hswitch,
      feedBlock_push fb extract xxh64 push hadd hpush hnil, hpush, ← List.filterMap_append]
    rfl

variable (xorf8 : Xorf UInt8) (xorf16 : Xorf UInt16)

/-- No false negatives in the SSTs built with the filter builder `fb` from `init`, of the
ordered entries that `Fits` allows: the reader of the finished SST's filter and block metas
exists, and the hash of every entry's filter key may match in every range holding its user
key. -/
def NoFalseNegatives (Fits : List Entry → Prop) (fb : FilterBuilder F) (init : F) : Prop :=
  ∀ (options : SstableBuilderOptions) (ws : List Entry) (b : SstableBuilder F)
    (metas : List BlockMeta) (filter : List UInt8),
    EntriesOrdered ws → Fits ws →
    (new options init).addAll fb extract compress xxhash64Checksum ws = some b →
    b.finish fb compress xxhash64Checksum = some (metas, filter) →
    ∃ reader, XorFilterReader.new filter metas = some reader ∧
      ∀ a ∈ ws, extract a.1.userKey.encode ≠ [] →
        ∀ range, inRange range a.1.userKey = true →
          reader.mayMatch xorf8 xorf16 range
            (hashForBloomFilter xxh64 (extract a.1.userKey.encode) a.1.userKey.tableId) = some true

/-- An entry with a filter key has its hash among the entries' hashes. -/
theorem hash_mem_filterMap {ws : List Entry} {a : Entry} (ha : a ∈ ws)
    (he : extract a.1.userKey.encode ≠ []) :
    hashForBloomFilter xxh64 (extract a.1.userKey.encode) a.1.userKey.tableId ∈
      ws.filterMap (entryHash extract xxh64) :=
  List.mem_filterMap.mpr ⟨a, ha, by simp [entryHash, he]⟩

/-- A filter builder that writes one xorf filter of the hashes of all entries has no false
negatives where the block length fits: the reader reads the filter back, and the crate's
filter contains every hash it was built from. -/
theorem noFalseNegatives_of_one_filter {G : Type} (xorf : Xorf G) (put : G → List UInt8)
    (footer : UInt8) (hsound : xorf.Sound)
    (hread : ∀ (f : Xor G) (metas : List BlockMeta), f.blockLength < 2 ^ 32 →
      ∃ r, XorFilterReader.new (encodeXor put footer f) metas = some r ∧
        ∀ range h, xorf.contains f h = true → r.mayMatch xorf8 xorf16 range h = some true)
    (init : F) (hfinish : ∀ blocks, (fb.finish (feedBlocks fb extract init blocks)).1 =
      encodeXor put footer (xorf.ofKeys (sortDedup ((entriesOf blocks).filterMap
        (entryHash extract xxh64))))) :
    NoFalseNegatives extract compress xxhash64Checksum xxh64 xorf8 xorf16
      (fun ws => xorf.BlockLengthFits ws.length) fb init := by
  intro options ws b metas filter _ hfit hrun hfin
  obtain ⟨blocks, hws, -, -, hf⟩ := sst_blocks fb extract compress xxhash64Checksum hrun hfin
  rcases hf with rfl | rfl
  · -- no filter: the reader may match everything
    exact ⟨_, XorFilterReader.new_of_length_le_one metas (by simp),
      fun _ _ _ _ _ => XorFilterReader.mayMatch_of_isEmpty _ _ _ _ rfl⟩
  · have hbl : (xorf.ofKeys (sortDedup (ws.filterMap (entryHash extract xxh64)))).blockLength <
        2 ^ 32 :=
      hfit _ ((length_sortDedup_le _).trans (List.length_filterMap_le _ _))
    obtain ⟨r, hr, hmatch⟩ := hread _ metas hbl
    refine ⟨r, by rw [hfinish, hws]; exact hr, fun a ha he range _ => hmatch range _ ?_⟩
    exact hsound _ _ (mem_sortDedup.mpr (hash_mem_filterMap extract xxh64 ha he))

/-- The `Xor16` filter of all entries. -/
theorem xor16_noFalseNegatives (h16 : xorf16.Sound) :
    NoFalseNegatives extract compress xxhash64Checksum xxh64 xorf8 xorf16
      (fun ws => xorf16.BlockLengthFits ws.length) (xor16FilterBuilder xxh64 xorf16) .new := by
  refine noFalseNegatives_of_one_filter (xor16FilterBuilder xxh64 xorf16) extract compress
    xxhash64Checksum xxh64 xorf8 xorf16 xorf16 putU16Le FOOTER_XOR16 h16
    (fun f metas hf => ⟨_, XorFilterReader.new_xor16 metas hf,
      fun _ _ hc => XorFilterReader.mayMatch_xor16 _ _ _ _ hc⟩) .new fun blocks => ?_
  rw [feedBlocks_push (xor16FilterBuilder xxh64 xorf16) extract xxh64
    (fun f hs => ⟨f.keyHashEntries ++ hs⟩) (fun _ _ _ => rfl) (by simp) (fun _ => by simp)
    (fun _ => rfl)]
  rfl

/-- The `Xor8` filter of all entries. -/
theorem xor8_noFalseNegatives (h8 : xorf8.Sound) :
    NoFalseNegatives extract compress xxhash64Checksum xxh64 xorf8 xorf16
      (fun ws => xorf8.BlockLengthFits ws.length) (xor8FilterBuilder xxh64 xorf8) .new := by
  refine noFalseNegatives_of_one_filter (xor8FilterBuilder xxh64 xorf8) extract compress
    xxhash64Checksum xxh64 xorf8 xorf16 xorf8 putU8 FOOTER_XOR8 h8
    (fun f metas hf => ⟨_, XorFilterReader.new_xor8 metas hf,
      fun _ _ hc => XorFilterReader.mayMatch_xor8 _ _ _ _ hc⟩) .new fun blocks => ?_
  rw [feedBlocks_push (xor8FilterBuilder xxh64 xorf8) extract xxh64
    (fun f hs => ⟨f.keyHashEntries ++ hs⟩) (fun _ _ _ => rfl) (by simp) (fun _ => by simp)
    (fun _ => rfl)]
  rfl

/-- The filter of a block in a blocked filter: the `Xor16` of its entries' hashes. -/
def blockFilter (blk : Entry × List Entry) : Xor UInt16 :=
  xorf16.ofKeys (sortDedup ((blk.1 :: blk.2).filterMap (entryHash extract xxh64)))

/-- The blocked builder after blocks: the filter of each after the filters before. -/
theorem feedBlocks_blocked (data : List UInt8) (n : ℕ) (blocks : List (Entry × List Entry)) :
    feedBlocks (blockedXor16FilterBuilder xxh64 xorf16) extract ⟨.new, data, n⟩ blocks =
      ⟨.new, data ++ (blocks.map (blockFilter extract xxh64 xorf16)).flatMap
        (fun f => blockFilterEntry (encodeXor putU16Le FOOTER_XOR16 f)), n + blocks.length⟩ := by
  induction blocks generalizing data n with
  | nil => simp [feedBlocks]
  | cons blk blocks ih =>
    have hfeed := feedBlock_push (blockedXor16FilterBuilder xxh64 xorf16) extract xxh64
      (fun f hs => { f with current := ⟨f.current.keyHashEntries ++ hs⟩ }) (fun _ _ _ => rfl)
      (by simp) (by simp) ⟨.new, data, n⟩ blk
    -- the switch writes the filter of the block's hashes and clears them
    have hswitch : ∀ hs : List UInt64,
        (blockedXor16FilterBuilder xxh64 xorf16).switchBlock ⟨⟨hs⟩, data, n⟩ =
          ⟨.new, data ++ blockFilterEntry (encodeXor putU16Le FOOTER_XOR16
            (xorf16.ofKeys (sortDedup hs))), n + 1⟩ := fun _ => rfl
    rw [feedBlocks, List.foldl_cons, ← feedBlocks, hfeed]
    simp only [Xor16FilterBuilder.new, List.nil_append, hswitch]
    rw [show (⟨[]⟩ : Xor16FilterBuilder) = .new from rfl, ih]
    simp [blockFilter, Nat.add_assoc, Nat.add_comm 1]

/-- What the `u32`s of a blocked filter need of the entries: fewer than `2 ^ 32` of them, so
as many blocks, and for every filter of no more hashes a block length and an encoded length
below `2 ^ 32`. -/
def BlockedFits (ws : List Entry) : Prop :=
  ws.length < 2 ^ 32 ∧ xorf16.BlockLengthFits ws.length ∧
    ∀ keys : List UInt64, keys.length ≤ ws.length →
      (encodeXor putU16Le FOOTER_XOR16 (xorf16.ofKeys keys)).length < 2 ^ 32

theorem length_le_entriesOf (blocks : List (Entry × List Entry)) :
    blocks.length ≤ (entriesOf blocks).length := by
  induction blocks with
  | nil => simp [entriesOf]
  | cons blk blocks ih => simp [entriesOf] at ih ⊢; omega

/-- The hashes of a block are no more than the entries. -/
theorem length_blockHashes_le {blocks : List (Entry × List Entry)} {blk : Entry × List Entry}
    (hblk : blk ∈ blocks) :
    (sortDedup ((blk.1 :: blk.2).filterMap (entryHash extract xxh64))).length ≤
      (entriesOf blocks).length :=
  calc _ ≤ ((blk.1 :: blk.2).filterMap (entryHash extract xxh64)).length := length_sortDedup_le _
    _ ≤ (blk.1 :: blk.2).length := List.length_filterMap_le _ _
    _ ≤ (entriesOf blocks).length := by
      unfold entriesOf
      rw [List.flatMap_def]
      exact (List.sublist_flatten_of_mem
        (List.mem_map_of_mem (f := fun blk : Entry × List Entry => blk.1 :: blk.2) hblk)).length_le

/-- The blocked filter: the entry's block is the last whose first user key is at or below the
entry's, the filter read for it is the block's, and that filter has the entry's hash. -/
theorem blocked_noFalseNegatives (h16 : xorf16.Sound) :
    NoFalseNegatives extract compress xxhash64Checksum xxh64 xorf8 xorf16 (BlockedFits xorf16)
      (blockedXor16FilterBuilder xxh64 xorf16) .new := by
  intro options ws b metas filter hord ⟨hcount, hbl, henc⟩ hrun hfin
  obtain ⟨blocks, hws, hstarts, hm, hf⟩ := sst_blocks _ extract compress xxhash64Checksum hrun hfin
  subst hws
  rcases hf with rfl | rfl
  · exact ⟨_, XorFilterReader.new_of_length_le_one metas (by simp),
      fun _ _ _ _ _ => XorFilterReader.mayMatch_of_isEmpty _ _ _ _ rfl⟩
  set fs := blocks.map (blockFilter extract xxh64 xorf16) with hfs
  have hbytes : ((blockedXor16FilterBuilder xxh64 xorf16).finish (feedBlocks
      (blockedXor16FilterBuilder xxh64 xorf16) extract .new blocks)).1 = blockedFilterBytes fs := by
    rw [show BlockedXor16FilterBuilder.new = ⟨.new, [], 0⟩ from rfl, feedBlocks_blocked]
    simp [blockedXor16FilterBuilder, BlockedXor16FilterBuilder.finish, blockedFilterBytes, fs]
  have hlen : metas.length = fs.length := by simpa [fs] using congrArg List.length hm
  have hfits : ∀ f ∈ fs, f.blockLength < 2 ^ 32 ∧
      (encodeXor putU16Le FOOTER_XOR16 f).length < 2 ^ 32 := by
    intro f hf
    obtain ⟨blk, hblk, rfl⟩ := List.mem_map.mp hf
    have hkeys := length_blockHashes_le extract xxh64 hblk
    exact ⟨hbl _ hkeys, henc _ hkeys⟩
  have hreader := XorFilterReader.new_blockedFilterBytes metas fs hlen
    (by simp [fs]; exact (length_le_entriesOf blocks).trans_lt hcount) hfits
  refine ⟨_, hbytes ▸ hreader, fun a ha he range hr => ?_⟩
  apply XorFilterReader.mayMatch_blockXor16
  -- the entry's block, and the blocks around it
  obtain ⟨blk, hblk, hablk⟩ := List.mem_flatMap.mp ha
  obtain ⟨pre, post, hsplit⟩ := List.append_of_mem hblk
  obtain ⟨hpre, hfk, hpost⟩ := hord.block_bounds hstarts hsplit hablk
  let withFilter := fun c : Entry × List Entry => (c.1.1, blockFilter extract xxh64 xorf16 c)
  have hzip : (metas.map (·.smallestKey)).zip fs =
      (pre.map withFilter ++ withFilter blk :: post.map withFilter).map
        fun b => (b.1.encode, b.2) := by
    rw [hm, hfs, List.zip_map', hsplit]
    simp [withFilter, Function.comp_def]
  rw [hzip]
  refine BlockBasedXor16Filter.mayExist_eq_some_true xorf16 ?_ hfk ?_ hr ?_
  · intro c hc
    obtain ⟨c', hc', rfl⟩ := List.mem_map.mp hc
    exact hpre c' hc'
  · intro c hc
    cases post with
    | nil => simp at hc
    | cons c' post' =>
      simp only [List.map_cons, List.head?_cons, Option.mem_def, Option.some.injEq] at hc
      subst hc
      exact hpost c' rfl
  · exact h16 _ _ (mem_sortDedup.mpr (hash_mem_filterMap extract xxh64 hablk he))

end Filters

/-- A filter that keeps a fingerprint of each hash and looks the hash's up. -/
def listXorf {F : Type} [DecidableEq F] (fingerprint : UInt64 → F) : Xorf F where
  ofKeys keys := ⟨0, keys.length, keys.map fingerprint⟩
  contains f h := f.fingerprints.contains (fingerprint h)

theorem listXorf_sound {F : Type} [DecidableEq F] (fingerprint : UInt64 → F) :
    (listXorf fingerprint).Sound := by
  intro keys h hh
  simpa [listXorf] using ⟨h, hh, rfl⟩

/-- A sound filter whose block length does not fit a \`u32\`: \`2 ^ 32 + 1\`, read back as \`1\`,
where its filters contain nothing. -/
def truncatedXorf : Xorf UInt16 where
  ofKeys _ := ⟨0, 2 ^ 32 + 1, []⟩
  contains f _ := f.blockLength != 1

/-- One put of a one-byte table key of table \`0\`, the first version of its user key. -/
def oneEntry : List Entry := [(⟨⟨0, [1]⟩, 0⟩, .put [], true)]

def oneEntryOptions : SstableBuilderOptions := ⟨1, 1, 1, .none⟩

end SstableBuilder

end RisingWave.Hummock
