import RisingWave.Hummock.SstableMeta
import RisingWave.Lib.Prefix
import RisingWave.Storage.MemTable

/-!
# Xor filters

`sstable/xor_filter.rs`. The filter of an SST is built from the hashes of the filter keys
of its entries. `Xor8FilterBuilder` and `Xor16FilterBuilder` build one xor filter of all of
them; `BlockedXor16FilterBuilder` builds one `Xor16` for each data block, each written after
its length, then the number of blocks. A footer byte tells the three apart.
`XorFilterReader::new` reads a filter back, and `may_match` answers whether a hash may be in
the table; for a blocked filter it looks only at the blocks whose keys can fall in the user
key range.

The filters come from the xorf crate: its `from` and `contains` are parameters here, and
the one property of them used is that a filter contains every hash it was built from. The
key hash `xxh64` is a parameter too. Panics (`unwrap`, `assert_eq!`, a slice or a read out
of range) are `none`.
-/

namespace RisingWave.Hummock

open ByteCodec ByteBuf
open RisingWave.Storage (Bound inRange)

/-- `FOOTER_XOR8`. -/
def FOOTER_XOR8 : UInt8 := 254

/-- `FOOTER_XOR16`. -/
def FOOTER_XOR16 : UInt8 := 255

/-- `FOOTER_BLOCKED_XOR16`. -/
def FOOTER_BLOCKED_XOR16 : UInt8 := 253

/-- `Sstable::hash_for_bloom_filter`: the table id xor the `xxh64` (seed `0`) of the key. -/
def hashForBloomFilter (xxh64 : List UInt8 → UInt64) (distKey : List UInt8) (tableId : TableId) :
    UInt64 :=
  tableId.toUInt64 ^^^ xxh64 distKey

/-! ## The xorf crate -/

/-- An xorf filter: `Xor8` has `u8` fingerprints, `Xor16` `u16` ones. -/
structure Xor (F : Type) where
  seed : UInt64
  blockLength : ℕ
  fingerprints : List F
  deriving DecidableEq, Repr

/-- The xorf crate for one width of fingerprint: `from` a slice of hashes, and `contains`. -/
structure Xorf (F : Type) where
  ofKeys : List UInt64 → Xor F
  contains : Xor F → UInt64 → Bool

/-- What the crate promises: a filter contains every hash it was built from. -/
def Xorf.Sound {F : Type} (xorf : Xorf F) : Prop :=
  ∀ keys, ∀ h ∈ keys, xorf.contains (xorf.ofKeys keys) h = true

/-- The filters the crate builds of at most `n` hashes have a block length that fits the `u32`
it is written in. -/
def Xorf.BlockLengthFits {F : Type} (xorf : Xorf F) (n : ℕ) : Prop :=
  ∀ keys : List UInt64, keys.length ≤ n → (xorf.ofKeys keys).blockLength < 2 ^ 32

/-! ## Building -/

/-- `sort` then `dedup` of a `Vec<u64>`: ascending, each run of equal hashes kept once. -/
def sortDedup (l : List UInt64) : List UInt64 :=
  (l.mergeSort fun a b => decide (a ≤ b)).destutter (· ≠ ·)

/-- The bytes of an xorf filter: the seed, the block length as a `u32`, the fingerprints,
then the footer. -/
def encodeXor {F : Type} (putFingerprint : F → List UInt8) (footer : UInt8) (filter : Xor F) :
    List UInt8 :=
  putU64Le filter.seed ++ putU32Le (UInt32.ofNat filter.blockLength) ++
    filter.fingerprints.flatMap putFingerprint ++ putU8 footer

/-- `FilterBuilder`: the calls `SstableBuilder` makes. `switch_block` does nothing but in
the blocked builder. -/
structure FilterBuilder (F : Type) where
  addKey : F → List UInt8 → TableId → F
  finish : F → List UInt8 × F
  switchBlock : F → F

/-- `Xor16FilterBuilder`. -/
structure Xor16FilterBuilder where
  keyHashEntries : List UInt64
  deriving DecidableEq, Repr

namespace Xor16FilterBuilder

def new : Xor16FilterBuilder := ⟨[]⟩

def addKey (xxh64 : List UInt8 → UInt64) (self : Xor16FilterBuilder) (key : List UInt8)
    (tableId : TableId) : Xor16FilterBuilder :=
  ⟨self.keyHashEntries ++ [hashForBloomFilter xxh64 key tableId]⟩

/-- `finish`: the filter of the hashes, which are then cleared. -/
def finish (xorf : Xorf UInt16) (self : Xor16FilterBuilder) : List UInt8 × Xor16FilterBuilder :=
  (encodeXor putU16Le FOOTER_XOR16 (xorf.ofKeys (sortDedup self.keyHashEntries)), ⟨[]⟩)

end Xor16FilterBuilder

/-- `Xor8FilterBuilder`. -/
structure Xor8FilterBuilder where
  keyHashEntries : List UInt64
  deriving DecidableEq, Repr

namespace Xor8FilterBuilder

def new : Xor8FilterBuilder := ⟨[]⟩

def addKey (xxh64 : List UInt8 → UInt64) (self : Xor8FilterBuilder) (key : List UInt8)
    (tableId : TableId) : Xor8FilterBuilder :=
  ⟨self.keyHashEntries ++ [hashForBloomFilter xxh64 key tableId]⟩

/-- `finish`: the hashes are left sorted and deduplicated. -/
def finish (xorf : Xorf UInt8) (self : Xor8FilterBuilder) : List UInt8 × Xor8FilterBuilder :=
  let keyHashEntries := sortDedup self.keyHashEntries
  (encodeXor putU8 FOOTER_XOR8 (xorf.ofKeys keyHashEntries), ⟨keyHashEntries⟩)

end Xor8FilterBuilder

/-- `BlockedXor16FilterBuilder`: the builder of the open block, and the filters written. -/
structure BlockedXor16FilterBuilder where
  current : Xor16FilterBuilder
  data : List UInt8
  blockCount : ℕ
  deriving DecidableEq, Repr

/-- One block's filter in a blocked filter: its length as a `u32`, then its bytes. -/
def blockFilterEntry (block : List UInt8) : List UInt8 :=
  putU32Le (UInt32.ofNat block.length) ++ block

namespace BlockedXor16FilterBuilder

def new : BlockedXor16FilterBuilder := ⟨.new, [], 0⟩

def addKey (xxh64 : List UInt8 → UInt64) (self : BlockedXor16FilterBuilder) (key : List UInt8)
    (tableId : TableId) : BlockedXor16FilterBuilder :=
  { self with current := self.current.addKey xxh64 key tableId }

/-- `finish`: the block count and the footer after the blocks' filters; `data` is taken. -/
def finish (self : BlockedXor16FilterBuilder) : List UInt8 × BlockedXor16FilterBuilder :=
  (self.data ++ putU32Le (UInt32.ofNat self.blockCount) ++ putU8 FOOTER_BLOCKED_XOR16,
    { self with data := [] })

/-- `switch_block`: the filter of the block's hashes joins the data. -/
def switchBlock (xorf : Xorf UInt16) (self : BlockedXor16FilterBuilder) :
    BlockedXor16FilterBuilder :=
  let (block, current) := self.current.finish xorf
  ⟨current, self.data ++ blockFilterEntry block, self.blockCount + 1⟩

end BlockedXor16FilterBuilder

/-- `Xor8FilterBuilder` as a `FilterBuilder`. -/
def xor8FilterBuilder (xxh64 : List UInt8 → UInt64) (xorf : Xorf UInt8) :
    FilterBuilder Xor8FilterBuilder :=
  ⟨Xor8FilterBuilder.addKey xxh64, Xor8FilterBuilder.finish xorf, id⟩

/-- `Xor16FilterBuilder` as a `FilterBuilder`. -/
def xor16FilterBuilder (xxh64 : List UInt8 → UInt64) (xorf : Xorf UInt16) :
    FilterBuilder Xor16FilterBuilder :=
  ⟨Xor16FilterBuilder.addKey xxh64, Xor16FilterBuilder.finish xorf, id⟩

/-- `BlockedXor16FilterBuilder` as a `FilterBuilder`. -/
def blockedXor16FilterBuilder (xxh64 : List UInt8 → UInt64) (xorf : Xorf UInt16) :
    FilterBuilder BlockedXor16FilterBuilder :=
  ⟨BlockedXor16FilterBuilder.addKey xxh64, BlockedXor16FilterBuilder.finish,
    BlockedXor16FilterBuilder.switchBlock xorf⟩

/-! ## Reading -/

/-- `BlockBasedXor16Filter`: each block's smallest full key, encoded, with its filter. -/
structure BlockBasedXor16Filter where
  filters : List (List UInt8 × Xor UInt16)
  deriving DecidableEq, Repr

namespace BlockBasedXor16Filter

/-- Whether the loop of `may_exist` stops at a block starting at `smallest`: past an
included end, or at an excluded one. -/
def readBound (right : Bound UserKey) (smallest : UserKey) : Bool :=
  match right with
  | .unbounded => false
  | .included right => decide (right < smallest)
  | .excluded right => decide (right ≤ smallest)

/-- The loop of `may_exist`, from a block on. -/
def mayExistLoop (xorf : Xorf UInt16) (right : Bound UserKey) (h : UInt64) :
    List (UserKey × Xor UInt16) → Bool
  | [] => false
  | (smallest, filter) :: rest =>
    if readBound right smallest then false
    else xorf.contains filter h || mayExistLoop xorf right h rest

/-- `may_exist`: from the last block whose smallest user key is at most the start of the
range. `FullKey::decode` panics on a key shorter than an epoch; here every block's key is
decoded first, where the source decodes those its search visits. -/
def mayExist (xorf : Xorf UInt16) (self : BlockBasedXor16Filter)
    (userKeyRange : Bound UserKey × Bound UserKey) (h : UInt64) : Option Bool := do
  let smallestKeys ← self.filters.mapM fun f => (FullKey.decode f.1).map (·.userKey)
  let blockIdx := match userKeyRange.1 with
    | .unbounded => 0
    | .included left | .excluded left =>
      List.partitionPoint (fun k => decide (k ≤ left)) smallestKeys - 1
  pure (mayExistLoop xorf userKeyRange.2 h
    ((smallestKeys.zip (self.filters.map Prod.snd)).drop blockIdx))

end BlockBasedXor16Filter

/-- `XorFilter`. -/
inductive XorFilter where
  | xor8 (filter : Xor UInt8)
  | xor16 (filter : Xor UInt16)
  | blockXor16 (filter : BlockBasedXor16Filter)
  deriving DecidableEq, Repr

/-- `XorFilterReader`. -/
structure XorFilterReader where
  filter : XorFilter
  deriving DecidableEq, Repr

namespace XorFilterReader

/-- `to_xor8`: the fingerprints are the bytes after the block length, but the footer. -/
def toXor8 (data : List UInt8) : Option (Xor UInt8) := do
  let (seed, buf) ← getU64Le.run data
  let (blockLength, buf) ← getU32Le.run buf
  -- `mbuf.len() - 1` underflows when nothing is left
  if buf = [] then none
  pure ⟨seed, blockLength.toNat, buf.dropLast⟩

/-- `to_xor16`: `len / 2` fingerprints, which leaves out the footer. -/
def toXor16 (data : List UInt8) : Option (Xor UInt16) := do
  let kind ← data.getLast?
  if kind ≠ FOOTER_XOR16 then none
  if data.length ≤ 1 then pure ⟨0, 0, []⟩
  else
    let (seed, buf) ← getU64Le.run data
    let (blockLength, buf) ← getU32Le.run buf
    let (fingerprints, _) ← (readMany getU16Le (buf.length / 2)).run buf
    pure ⟨seed, blockLength.toNat, fingerprints⟩

/-- The loop of `to_block_xor16`: a filter for each block meta, each after its length. -/
def readBlockFilters : List BlockMeta → List UInt8 → Option (List (List UInt8 × Xor UInt16))
  | [], _ => some []
  | blockMeta :: metas, reader => do
    let (len, reader) ← getU32Le.run reader
    let (block, reader) ← (take len.toNat).run reader
    let xor16 ← toXor16 block
    let rest ← readBlockFilters metas reader
    pure ((blockMeta.smallestKey, xor16) :: rest)

/-- `to_block_xor16`: the block count is the `u32` before the footer, and must be the number
of block metas. -/
def toBlockXor16 (data : List UInt8) (metas : List BlockMeta) :
    Option BlockBasedXor16Filter := do
  -- `data[(l - 5)..]` panics on fewer than five bytes
  if data.length < 5 then none
  let (blockCount, _) ← getU32Le.run (data.drop (data.length - 5))
  if blockCount.toNat ≠ metas.length then none
  let filters ← readBlockFilters metas data
  pure ⟨filters⟩

/-- `XorFilterReader::new`, by the footer; a filter of at most one byte is an empty
`Xor16`. -/
def new (data : List UInt8) (metas : List BlockMeta) : Option XorFilterReader :=
  if data.length ≤ 1 then some ⟨.xor16 ⟨0, 0, []⟩⟩
  else
    let kind := data.getLastD 0
    if kind = FOOTER_BLOCKED_XOR16 then (toBlockXor16 data metas).map fun f => ⟨.blockXor16 f⟩
    else if kind = FOOTER_XOR16 then (toXor16 data).map fun f => ⟨.xor16 f⟩
    else (toXor8 data).map fun f => ⟨.xor8 f⟩

def isEmpty (self : XorFilterReader) : Bool :=
  match self.filter with
  | .xor8 filter => filter.blockLength == 0
  | .xor16 filter => filter.blockLength == 0
  | .blockXor16 reader => reader.filters.isEmpty

/-- `may_match`: `false` only where the hash is surely not in the table. -/
def mayMatch (xorf8 : Xorf UInt8) (xorf16 : Xorf UInt16) (self : XorFilterReader)
    (userKeyRange : Bound UserKey × Bound UserKey) (h : UInt64) : Option Bool :=
  if self.isEmpty then some true
  else
    match self.filter with
    | .xor8 filter => some (xorf8.contains filter h)
    | .xor16 filter => some (xorf16.contains filter h)
    | .blockXor16 reader => reader.mayExist xorf16 userKeyRange h

end XorFilterReader

/-! ## Reading back what was written -/

/-- The bytes of a blocked filter of the filters `fs`, one for each block. -/
def blockedFilterBytes (fs : List (Xor UInt16)) : List UInt8 :=
  (fs.flatMap fun f => blockFilterEntry (encodeXor putU16Le FOOTER_XOR16 f)) ++
    putU32Le (UInt32.ofNat fs.length) ++ putU8 FOOTER_BLOCKED_XOR16

attribute [local simp] sortDedup in
theorem length_sortDedup_le (l : List UInt64) : (sortDedup l).length ≤ l.length := by
  have hsub := List.destutter_sublist (fun a b : UInt64 => a ≠ b) (l.mergeSort fun a b => decide (a ≤ b))
  simpa [sortDedup] using hsub.length_le

@[simp] theorem mem_sortDedup {h : UInt64} {l : List UInt64} : h ∈ sortDedup l ↔ h ∈ l := by
  have hsorted := List.pairwise_mergeSort' (fun a b : UInt64 => a ≤ b) l
  rw [sortDedup, hsorted.destutter_eq_dedup, List.mem_dedup, List.mem_mergeSort]

namespace XorFilterReader

attribute [local simp] encodeXor putU8 in
theorem toXor16_encodeXor {f : Xor UInt16} (hf : f.blockLength < 2 ^ 32) :
    toXor16 (encodeXor putU16Le FOOTER_XOR16 f) = some f := by
  obtain ⟨seed, blockLength, fingerprints⟩ := f
  have hbl : (UInt32.ofNat blockLength).toNat = blockLength := by
    rw [UInt32.toNat_ofNat', Nat.mod_eq_of_lt hf]
  -- `len / 2` of the fingerprints and the footer is the number of fingerprints
  have hn : (fingerprints.length * 2 + 1) / 2 = fingerprints.length := by omega
  have hfps : (readMany getU16Le fingerprints.length).run
      (fingerprints.flatMap putU16Le ++ [FOOTER_XOR16]) = some (fingerprints, [FOOTER_XOR16]) :=
    readMany_run (fun x _ s => getU16Le_run x s) fingerprints (fun _ _ => trivial) _
  have hlong : ¬ 8 + (4 + (fingerprints.length * 2 + 1)) ≤ 1 := by omega
  simp [toXor16, encodeXor, List.append_assoc, hbl, putU8, hn, hfps, hlong]

theorem toXor8_encodeXor {f : Xor UInt8} (hf : f.blockLength < 2 ^ 32) (footer : UInt8) :
    toXor8 (encodeXor putU8 footer f) = some f := by
  obtain ⟨seed, blockLength, fingerprints⟩ := f
  have hbl : (UInt32.ofNat blockLength).toNat = blockLength := by
    rw [UInt32.toNat_ofNat', Nat.mod_eq_of_lt hf]
  simp [toXor8, encodeXor, List.append_assoc, hbl, putU8]

theorem readBlockFilters_run (metas : List BlockMeta) (fs : List (Xor UInt16))
    (hlen : metas.length = fs.length)
    (hfit : ∀ f ∈ fs, f.blockLength < 2 ^ 32 ∧ (encodeXor putU16Le FOOTER_XOR16 f).length < 2 ^ 32)
    (s : List UInt8) :
    readBlockFilters metas
        ((fs.flatMap fun f => blockFilterEntry (encodeXor putU16Le FOOTER_XOR16 f)) ++ s) =
      some ((metas.map (·.smallestKey)).zip fs) := by
  induction metas generalizing fs with
  | nil => rfl
  | cons m metas ih =>
    obtain _ | ⟨f, fs⟩ := fs
    · simp at hlen
    · have hf := hfit f List.mem_cons_self
      have hrest := ih fs (by simpa using hlen) fun g hg => hfit g (List.mem_cons_of_mem f hg)
      have hmod : (encodeXor putU16Le FOOTER_XOR16 f).length % 2 ^ 32 =
          (encodeXor putU16Le FOOTER_XOR16 f).length := Nat.mod_eq_of_lt hf.2
      simp only [Nat.reducePow] at hmod
      simp only [blockFilterEntry] at hrest
      simp [readBlockFilters, blockFilterEntry, List.append_assoc, hmod, take_run,
        toXor16_encodeXor hf.1, hrest]

attribute [local simp] blockedFilterBytes in
theorem toBlockXor16_blockedFilterBytes (metas : List BlockMeta) (fs : List (Xor UInt16))
    (hlen : metas.length = fs.length) (hcount : fs.length < 2 ^ 32)
    (hfit : ∀ f ∈ fs, f.blockLength < 2 ^ 32 ∧ (encodeXor putU16Le FOOTER_XOR16 f).length < 2 ^ 32) :
    toBlockXor16 (blockedFilterBytes fs) metas = some ⟨(metas.map (·.smallestKey)).zip fs⟩ := by
  have hfilters := readBlockFilters_run metas fs hlen hfit
    (putU32Le (UInt32.ofNat fs.length) ++ putU8 FOOTER_BLOCKED_XOR16)
  -- the block count is read from the five bytes before the end
  simp [toBlockXor16, blockedFilterBytes, List.append_assoc, toNat_ofNat_length hcount, hlen,
    hfilters]

attribute [local simp] new in
theorem new_of_length_le_one {data : List UInt8} (metas : List BlockMeta) (h : data.length ≤ 1) :
    new data metas = some ⟨.xor16 ⟨0, 0, []⟩⟩ := by
  simp [new, h]

theorem new_xor8 {f : Xor UInt8} (metas : List BlockMeta) (hf : f.blockLength < 2 ^ 32) :
    new (encodeXor putU8 FOOTER_XOR8 f) metas = some ⟨.xor8 f⟩ := by
  have hlong : ¬ (encodeXor putU8 FOOTER_XOR8 f).length ≤ 1 := by simp [encodeXor, putU8]; omega
  have hkind : (encodeXor putU8 FOOTER_XOR8 f).getLastD 0 = FOOTER_XOR8 := by
    simp [encodeXor, putU8]
  have hne : FOOTER_XOR8 ≠ FOOTER_BLOCKED_XOR16 ∧ FOOTER_XOR8 ≠ FOOTER_XOR16 := by decide
  simp only [new, hlong, hkind, hne, if_false, toXor8_encodeXor hf, Option.map_some]

theorem new_xor16 {f : Xor UInt16} (metas : List BlockMeta) (hf : f.blockLength < 2 ^ 32) :
    new (encodeXor putU16Le FOOTER_XOR16 f) metas = some ⟨.xor16 f⟩ := by
  have hlong : ¬ (encodeXor putU16Le FOOTER_XOR16 f).length ≤ 1 := by
    simp [encodeXor, putU8]; omega
  have hkind : (encodeXor putU16Le FOOTER_XOR16 f).getLastD 0 = FOOTER_XOR16 := by
    simp [encodeXor, putU8]
  have hne : FOOTER_XOR16 ≠ FOOTER_BLOCKED_XOR16 := by decide
  simp only [new, hlong, hkind, hne, if_false, if_true, toXor16_encodeXor hf, Option.map_some]

theorem new_blockedFilterBytes (metas : List BlockMeta) (fs : List (Xor UInt16))
    (hlen : metas.length = fs.length) (hcount : fs.length < 2 ^ 32)
    (hfit : ∀ f ∈ fs, f.blockLength < 2 ^ 32 ∧ (encodeXor putU16Le FOOTER_XOR16 f).length < 2 ^ 32) :
    new (blockedFilterBytes fs) metas =
      some ⟨.blockXor16 ⟨(metas.map (·.smallestKey)).zip fs⟩⟩ := by
  have hlong : ¬ (blockedFilterBytes fs).length ≤ 1 := by simp [blockedFilterBytes, putU8]
  have hkind : (blockedFilterBytes fs).getLastD 0 = FOOTER_BLOCKED_XOR16 := by
    simp [blockedFilterBytes, putU8]
  simp only [new, hlong, hkind, if_false, if_true,
    toBlockXor16_blockedFilterBytes metas fs hlen hcount hfit, Option.map_some]

section MayMatch

variable (xorf8 : Xorf UInt8) (xorf16 : Xorf UInt16) (userKeyRange : Bound UserKey × Bound UserKey)
  (h : UInt64)

attribute [local simp] mayMatch in
theorem mayMatch_of_isEmpty {r : XorFilterReader} (he : r.isEmpty = true) :
    r.mayMatch xorf8 xorf16 userKeyRange h = some true := by
  simp [mayMatch, he]

theorem mayMatch_xor8 {f : Xor UInt8} (hc : xorf8.contains f h = true) :
    (⟨.xor8 f⟩ : XorFilterReader).mayMatch xorf8 xorf16 userKeyRange h = some true := by
  simp [mayMatch, hc]

theorem mayMatch_xor16 {f : Xor UInt16} (hc : xorf16.contains f h = true) :
    (⟨.xor16 f⟩ : XorFilterReader).mayMatch xorf8 xorf16 userKeyRange h = some true := by
  simp [mayMatch, hc]

theorem mayMatch_blockXor16 {b : BlockBasedXor16Filter}
    (hb : b.mayExist xorf16 userKeyRange h = some true) :
    (⟨.blockXor16 b⟩ : XorFilterReader).mayMatch xorf8 xorf16 userKeyRange h = some true := by
  simp [mayMatch, hb]

end MayMatch

end XorFilterReader

namespace BlockBasedXor16Filter

attribute [local simp] inRange in
theorem readBound_eq_false {range : Bound UserKey × Bound UserKey} {x k : UserKey}
    (hk : inRange range k = true) (hx : x ≤ k) : readBound range.2 x = false := by
  obtain ⟨lo, hi⟩ := range
  cases hi with
  | unbounded => rfl
  | included r =>
    have hkr : k ≤ r := by cases lo <;> simp_all [inRange]
    simpa [readBound] using hx.trans hkr
  | excluded r =>
    have hkr : k < r := by cases lo <;> simp_all [inRange]
    simpa [readBound] using lt_of_le_of_lt hx hkr

/-- The loop finds a block's filter when no block before it, nor the block, is past the end. -/
theorem mayExistLoop_append {xorf : Xorf UInt16} {right : Bound UserKey} {h : UInt64}
    (pre post : List (UserKey × Xor UInt16)) (e : UserKey × Xor UInt16)
    (hpre : ∀ b ∈ pre, readBound right b.1 = false) (he : readBound right e.1 = false)
    (hc : xorf.contains e.2 h = true) : mayExistLoop xorf right h (pre ++ e :: post) = true := by
  induction pre with
  | nil => obtain ⟨k, f⟩ := e; simp_all [mayExistLoop]
  | cons b pre ih =>
    obtain ⟨k, f⟩ := b
    have hb := hpre (k, f) List.mem_cons_self
    simp only at hb
    simp [mayExistLoop, hb, ih fun b' hb' => hpre b' (List.mem_cons_of_mem _ hb')]

theorem mapM_decode_encode {α : Type} (l : List (FullKey × α)) :
    (l.map fun b => (b.1.encode, b.2)).mapM (fun f => (FullKey.decode f.1).map (·.userKey)) =
      some (l.map (·.1.userKey)) := by
  induction l with
  | nil => rfl
  | cons b l ih => simp [List.mapM_cons, FullKey.decode_encode, ih]

/-- The search of `may_exist` from a start at most `k` begins no later than the block holding
`k`, when the block after it starts above `k`. -/
theorem partitionPoint_sub_one_le {pre post : List (FullKey × Xor UInt16)} {fk : FullKey}
    {f : Xor UInt16} {left k : UserKey} (hleft : left ≤ k)
    (hpost : ∀ b ∈ post.head?, k < b.1.userKey) :
    List.partitionPoint (fun x => decide (x ≤ left)) ((pre ++ (fk, f) :: post).map (·.1.userKey)) - 1
      ≤ pre.length := by
  cases post with
  | nil =>
    have := List.partitionPoint_le_length (fun x => decide (x ≤ left))
      ((pre ++ [(fk, f)]).map (·.1.userKey))
    simp only [List.length_map, List.length_append, List.length_cons, List.length_nil] at this
    omega
  | cons b post =>
    have hb : ((pre ++ (fk, f) :: b :: post).map (·.1.userKey))[pre.length + 1]? =
        some b.1.userKey := by
      simp
    have hlt : left < b.1.userKey := lt_of_le_of_lt hleft (hpost b (by simp))
    have := List.partitionPoint_le_of_getElem? (p := fun x => decide (x ≤ left)) hb
      (by simpa using hlt)
    omega

/-- `may_exist` finds the filter of the block holding `k`, from any range holding `k`: the
blocks before it start at or below its start, and the block after it starts above `k`. -/
theorem mayExist_eq_some_true (xorf : Xorf UInt16) {pre post : List (FullKey × Xor UInt16)}
    {fk : FullKey} {f : Xor UInt16} {range : Bound UserKey × Bound UserKey} {k : UserKey}
    {h : UInt64} (hpre : ∀ b ∈ pre, b.1.userKey ≤ fk.userKey) (hfk : fk.userKey ≤ k)
    (hpost : ∀ b ∈ post.head?, k < b.1.userKey) (hk : inRange range k = true)
    (hc : xorf.contains f h = true) :
    mayExist xorf ⟨(pre ++ (fk, f) :: post).map fun b => (b.1.encode, b.2)⟩ range h =
      some true := by
  -- from a block no later than the key's, the loop reaches it without passing the range's end
  have hloop : ∀ i ≤ pre.length, mayExistLoop xorf range.2 h
      (((pre ++ (fk, f) :: post).map fun b => (b.1.userKey, b.2)).drop i) = true := by
    intro i hi
    rw [List.map_append, List.map_cons, List.drop_append_of_le_length (by simpa using hi)]
    apply mayExistLoop_append
    · intro b hb
      obtain ⟨b', hb', rfl⟩ := List.mem_map.mp (List.mem_of_mem_drop hb)
      exact readBound_eq_false hk ((hpre b' hb').trans hfk)
    · exact readBound_eq_false hk hfk
    · exact hc
  have hzip : (((pre ++ (fk, f) :: post).map (·.1.userKey)).zip
      (((pre ++ (fk, f) :: post).map fun b => (b.1.encode, b.2)).map Prod.snd)) =
        (pre ++ (fk, f) :: post).map fun b => (b.1.userKey, b.2) := by
    rw [List.map_map, List.zip_map']
    rfl
  simp only [mayExist, mapM_decode_encode, Option.bind_eq_bind, Option.bind_some, hzip,
    Option.pure_def, Option.some.injEq]
  obtain ⟨lo, hi⟩ := range
  cases lo with
  | unbounded => exact hloop 0 (Nat.zero_le _)
  | included left =>
    have hleft : left ≤ k := by simp_all [inRange]
    exact hloop _ (partitionPoint_sub_one_le hleft hpost)
  | excluded left =>
    have hleft : left < k := by simp_all [inRange]
    exact hloop _ (partitionPoint_sub_one_le hleft.le hpost)

end BlockBasedXor16Filter

end RisingWave.Hummock
