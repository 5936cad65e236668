import RisingWave.Hummock.BlockRead

/-!
# Block round trip

What a reader gets back from a block: the keys and values given to
`BlockBuilder::add`, in order from `seek_to_first` with `next`, and in reverse
from `seek_to_last` with `prev`, after `build` without compression and
`Block::decode`, as long as the block's entries take at most `2 ^ 32` bytes
(`block_round_trip`). Past that size the restart offsets, written as `u32`,
wrap around, and the first entry is read with the widths of a later one
(`block_round_trip_wraps`).
-/

namespace RisingWave.Hummock

open ByteCodec ByteBuf BlockIterator

/-- The entries take at most their keys, their values and twelve bytes each. -/
theorem layoutBytes_length_le (L : List EntryLayout) :
    (layoutBytes L).length ≤ (L.map fun e => e.key.length + e.value.length + 12).sum := by
  induction L with
  | nil => simp
  | cons e L ih =>
    have := e.bytes_length_le
    simp only [layoutBytes_cons, List.length_append, List.map_cons, List.sum_cons]
    omega

/-- The entries of keys of one table read back as those keys and values. -/
theorem mapM_read_eq {tid : TableId} :
    ∀ (L : List EntryLayout) (kvs : List (FullKey × List UInt8)),
      L.map (fun e => (e.key, e.value)) = kvs.map (fun kv => (kv.1.encodeWithoutTableId, kv.2)) →
      (∀ kv ∈ kvs, kv.1.userKey.tableId = tid) → L.mapM (EntryLayout.read tid) = some kvs
  | [], [], _, _ => rfl
  | e :: L, kv :: kvs, hmap, htid => by
    simp only [List.map_cons, List.cons.injEq, Prod.mk.injEq] at hmap
    obtain ⟨⟨hkey, hvalue⟩, hmap⟩ := hmap
    have hrest := mapM_read_eq L kvs hmap fun kv' h => htid kv' (List.mem_cons_of_mem kv h)
    have hread : e.read tid = some kv := by
      rw [EntryLayout.read, hkey, ← htid kv List.mem_cons_self,
        FullKey.fromSliceWithoutTableId_encodeWithoutTableId, hvalue]
      rfl
    simp [List.mapM_cons, hread, hrest]
  | [], _ :: _, hmap, _ => by simp at hmap
  | _ :: _, [], hmap, _ => by simp at hmap

/-- Adding the entries `kvs` of one table, building without compression and decoding gives
a block that holds a well-formed layout of them, as long as the entries fit the `u32`
offsets. -/
theorem build_decode_holds (restartInterval : ℕ) (hinterval : 0 < restartInterval)
    (compress : CompressionAlgorithm → List UInt8 → List UInt8)
    (decompress : CompressionAlgorithm → List UInt8 → Except String (List UInt8))
    (xxhash64Checksum : List UInt8 → UInt64) (kvs : List (FullKey × List UInt8))
    (hne : kvs ≠ []) (tid : TableId) (htid : ∀ kv ∈ kvs, kv.1.userKey.tableId = tid)
    (hsize : (kvs.map fun kv => kv.1.encodeWithoutTableId.length + kv.2.length + 12).sum ≤ 2 ^ 32) :
    ∃ builder bytes blk L,
      kvs.foldlM (fun b kv => b.add kv.1 kv.2) (BlockBuilder.new ⟨.none, restartInterval⟩) =
        some builder ∧
      builder.build compress xxhash64Checksum = some bytes ∧
      Block.decode decompress xxhash64Checksum bytes = some (.ok blk) ∧
      blk.Holds L ∧ LayoutWF L ∧ (layoutBytes L).length ≤ 2 ^ 32 ∧ L ≠ [] ∧ blk.tableId = tid ∧
      L.map (fun e => (e.key, e.value)) = kvs.map (fun kv => (kv.1.encodeWithoutTableId, kv.2)) := by
  -- Each key and value fits a `u32` length.
  have hfit : ∀ kv ∈ kvs, kv.1.encodeWithoutTableId.length < 2 ^ 32 ∧ kv.2.length < 2 ^ 32 := by
    intro kv hkv
    have hmem : kv.1.encodeWithoutTableId.length + kv.2.length + 12 ∈
        kvs.map fun kv => kv.1.encodeWithoutTableId.length + kv.2.length + 12 :=
      List.mem_map_of_mem hkv
    have := List.le_sum_of_mem hmem
    omega
  obtain ⟨builder, L, hrun, hlays, hmap, halg, htid'⟩ :=
    BlockBuilder.foldlM_add_lays kvs (BlockBuilder.new_lays ⟨.none, restartInterval⟩)
      (Nat.pos_iff_ne_zero.mp hinterval) tid htid (.inl rfl) hfit
  rw [List.nil_append] at hlays
  rw [if_neg hne] at htid'
  have hLne : L ≠ [] := by
    rintro rfl
    exact hne (by simpa using hmap.symm)
  have hfits : (layoutBytes L).length ≤ 2 ^ 32 := by
    have hsum : (L.map fun e => e.key.length + e.value.length + 12) =
        kvs.map fun kv => kv.1.encodeWithoutTableId.length + kv.2.length + 12 := by
      have := congrArg (List.map fun kv : List UInt8 × List UInt8 =>
        kv.1.length + kv.2.length + 12) hmap
      rw [List.map_map, List.map_map] at this
      exact this
    exact (layoutBytes_length_le L).trans (hsum ▸ hsize)
  obtain ⟨bytes, blk, hbuild, hdecode, hblk, hblkTid⟩ :=
    BlockBuilder.decode_build hlays hLne htid' halg hfits compress decompress xxhash64Checksum
  exact ⟨builder, bytes, blk, L, hrun, hbuild, hdecode, hblk, hlays.wf, hfits, hLne, hblkTid, hmap⟩

theorem block_round_trip (restartInterval : ℕ) (hinterval : 0 < restartInterval)
    (compress : CompressionAlgorithm → List UInt8 → List UInt8)
    (decompress : CompressionAlgorithm → List UInt8 → Except String (List UInt8))
    (xxhash64Checksum : List UInt8 → UInt64) (kvs : List (FullKey × List UInt8))
    (hne : kvs ≠ []) (tid : TableId) (htid : ∀ kv ∈ kvs, kv.1.userKey.tableId = tid)
    (hsize : (kvs.map fun kv => kv.1.encodeWithoutTableId.length + kv.2.length + 12).sum ≤ 2 ^ 32) :
    ∃ builder bytes blk first last,
      kvs.foldlM (fun b kv => b.add kv.1 kv.2) (BlockBuilder.new ⟨.none, restartInterval⟩) =
        some builder ∧
      builder.build compress xxhash64Checksum = some bytes ∧
      Block.decode decompress xxhash64Checksum bytes = some (.ok blk) ∧
      (BlockIterator.new blk).seekToFirst = some first ∧
      (∀ fuel, kvs.length < fuel → readWith next fuel first = some kvs) ∧
      (BlockIterator.new blk).seekToLast = some last ∧
      (∀ fuel, kvs.length < fuel → readWith prev fuel last = some kvs.reverse) := by
  obtain ⟨builder, bytes, blk, L, hrun, hbuild, hdecode, hblk, hwf, hfits, hLne, hblkTid, hmap⟩ :=
    build_decode_holds restartInterval hinterval compress decompress xxhash64Checksum kvs hne tid
      htid hsize
  have hread : L.mapM (EntryLayout.read blk.tableId) = some kvs :=
    mapM_read_eq L kvs hmap (hblkTid ▸ htid)
  have hlen : L.length = kvs.length := by simpa using congrArg List.length hmap
  -- Forward from the first entry.
  obtain ⟨e, post, hL⟩ := List.exists_cons_of_ne_nil hLne
  -- Backward from the last.
  obtain ⟨pre, f, hL'⟩ : ∃ pre f, L = pre ++ [f] := by
    rcases List.eq_nil_or_concat L with h | ⟨pre, f, h⟩
    · exact absurd h hLne
    · exact ⟨pre, f, by simpa using h⟩
  refine ⟨builder, bytes, blk, atEntry blk [] e, atEntry blk pre f, hrun, hbuild, hdecode,
    seekToFirst_atEntry hblk hwf hfits hL, ?_, seekToLast_atEntry hblk hwf hfits hL', ?_⟩
  · intro fuel hfuel
    rw [readWith_next_atEntry hblk hwf hfits post [] e fuel (by simpa using hL)
      (by rw [hL] at hlen; simp at hlen; omega), ← hL, hread]
  · intro fuel hfuel
    have hrev : L.reverse.map (fun e => (e.key, e.value)) =
        kvs.reverse.map (fun kv => (kv.1.encodeWithoutTableId, kv.2)) := by
      rw [List.map_reverse, hmap, List.map_reverse]
    have hread' := mapM_read_eq L.reverse kvs.reverse hrev
      (fun kv h => hblkTid ▸ htid kv (List.mem_reverse.mp h))
    rw [readWith_prev_atEntry hblk hwf hfits pre f [] fuel hL'
      (by rw [hL'] at hlen; simp at hlen; omega)]
    rw [hL', List.reverse_append] at hread'
    simpa using hread'

theorem block_round_trip_two_entries :
    ∃ builder bytes blk first last,
      [((⟨⟨1, [1]⟩, 5⟩ : FullKey), [7]), (⟨⟨1, [2]⟩, 4⟩, [8, 9])].foldlM
          (fun b kv => b.add kv.1 kv.2) (BlockBuilder.new ⟨.none, 16⟩) = some builder ∧
      builder.build (fun _ bs => bs) (fun bs => UInt64.ofNat bs.length) = some bytes ∧
      Block.decode (fun _ bs => .ok bs) (fun bs => UInt64.ofNat bs.length) bytes = some (.ok blk) ∧
      (BlockIterator.new blk).seekToFirst = some first ∧
      (∀ fuel, 2 < fuel → readWith next fuel first =
        some [(⟨⟨1, [1]⟩, 5⟩, [7]), (⟨⟨1, [2]⟩, 4⟩, [8, 9])]) ∧
      (BlockIterator.new blk).seekToLast = some last ∧
      (∀ fuel, 2 < fuel → readWith prev fuel last =
        some [(⟨⟨1, [2]⟩, 4⟩, [8, 9]), (⟨⟨1, [1]⟩, 5⟩, [7])]) :=
  block_round_trip 16 (by decide) (fun _ bs => bs) (fun _ bs => .ok bs)
    (fun bs => UInt64.ofNat bs.length) [(⟨⟨1, [1]⟩, 5⟩, [7]), (⟨⟨1, [2]⟩, 4⟩, [8, 9])] (by simp) 1
    (by decide) (by decide)

/-! ## Past `2 ^ 32` bytes -/

/-- The builder after a first value of `2 ^ 32 - 14` bytes and a second, empty one. -/
theorem foldlM_add_past_u32 (v : List UInt8) (hv : v.length = 4294967282) :
    [((⟨⟨0, []⟩, 0⟩ : FullKey), v), (⟨⟨0, [1]⟩, 0⟩, [])].foldlM (fun b kv => b.add kv.1 kv.2)
        (BlockBuilder.new ⟨.none, 16⟩) =
      some ⟨[0, 8, 255, 255, 255, 242, 0, 0, 0, 0, 0, 0, 0, 0] ++ v ++
          [0, 9, 0, 1, 0, 0, 0, 0, 0, 0, 0, 0], 16, [0, 0], [1, 0, 0, 0, 0, 0, 0, 0, 0], 2,
        .none, some 0, [⟨0, .u8, .u32⟩, ⟨0, .u8, .u8⟩]⟩ := by
  have hk1 : LenType.new (FullKey.encodeWithoutTableId ⟨⟨0, []⟩, 0⟩).length = some .u8 := by decide
  have hv1 : LenType.new v.length = some .u32 := by rw [hv]; decide
  have h1 := (BlockBuilder.new ⟨.none, 16⟩).add_eq_some ⟨⟨0, []⟩, 0⟩ v hk1 hv1 (by decide)
  set e1 := (BlockBuilder.new ⟨.none, 16⟩).nextEntry (FullKey.encodeWithoutTableId ⟨⟨0, []⟩, 0⟩)
    v .u8 .u32 with he1
  have hr1 : e1.restart = true := rfl
  have ht1 : e1.typeChange = true := rfl
  have hbytes1 : e1.bytes = [0, 8, 255, 255, 255, 242, 0, 0, 0, 0, 0, 0, 0, 0] ++ v := by
    have hd1 : e1.diffKey = [0, 0, 0, 0, 0, 0, 0, 0] := rfl
    have hk : e1.keyLenType = .u8 := rfl
    have hvt : e1.valueLenType = .u32 := rfl
    have hov : e1.overlap = 0 := rfl
    have hval : e1.value = v := rfl
    rw [EntryLayout.bytes, EntryLayout.keyPrefix, hd1, hk, hvt, hov, hval, hv]
    rfl
  simp only [hr1, ht1, if_true] at h1
  set b1 : BlockBuilder := ⟨[0, 8, 255, 255, 255, 242, 0, 0, 0, 0, 0, 0, 0, 0] ++ v, 16, [0],
    [0, 0, 0, 0, 0, 0, 0, 0], 1, .none, some 0, [⟨0, .u8, .u32⟩]⟩ with hb1
  have h1' : (BlockBuilder.new ⟨.none, 16⟩).add ⟨⟨0, []⟩, 0⟩ v = some b1 := by
    rw [h1, hbytes1]
    rfl
  have hk2 : LenType.new (FullKey.encodeWithoutTableId ⟨⟨0, [1]⟩, 0⟩).length = some .u8 := by decide
  have hv2 : LenType.new ([] : List UInt8).length = some .u8 := by decide
  have h2 := b1.add_eq_some ⟨⟨0, [1]⟩, 0⟩ [] hk2 hv2 (by show (16 : ℕ) ≠ 0; decide)
  set e2 := b1.nextEntry (FullKey.encodeWithoutTableId ⟨⟨0, [1]⟩, 0⟩) [] .u8 .u8 with he2
  -- The widths change, so the second entry starts a restart point and a type index entry.
  have hr2 : e2.restart = true := rfl
  have ht2 : e2.typeChange = true := rfl
  have hbytes2 : e2.bytes = [0, 9, 0, 1, 0, 0, 0, 0, 0, 0, 0, 0] := by
    have hov : e2.overlap = 0 := rfl
    have hd2 : e2.diffKey = [1, 0, 0, 0, 0, 0, 0, 0, 0] := rfl
    have hk : e2.keyLenType = .u8 := rfl
    have hvt : e2.valueLenType = .u8 := rfl
    have hval : e2.value = [] := rfl
    rw [EntryLayout.bytes, EntryLayout.keyPrefix, hd2, hk, hvt, hov, hval]
    rfl
  -- Its offset is `2 ^ 32`, written as the `u32` zero.
  have hoffset : UInt32.ofNat b1.buf.length = 0 := by
    rw [hb1]
    simp only [List.length_append, hv]
    decide
  simp only [hr2, ht2, if_true] at h2
  rw [List.foldlM_cons, h1', Option.bind_eq_bind, Option.bind_some, List.foldlM_cons, h2,
    Option.bind_eq_bind, Option.bind_some, List.foldlM_nil]
  simp only [hbytes2, EntryLayout.restartPoint, hoffset]
  rfl

/-- `build` and `Block::decode` of that builder: both restart points at the
`u32` zero, and both read with the widths of the second entry. -/
theorem decode_build_past_u32 (v : List UInt8) :
    ∃ bytes blk,
      BlockBuilder.build (fun _ bs => bs) (fun _ => 0)
          ⟨[0, 8, 255, 255, 255, 242, 0, 0, 0, 0, 0, 0, 0, 0] ++ v ++
            [0, 9, 0, 1, 0, 0, 0, 0, 0, 0, 0, 0], 16, [0, 0], [1, 0, 0, 0, 0, 0, 0, 0, 0], 2,
          .none, some 0, [⟨0, .u8, .u32⟩, ⟨0, .u8, .u8⟩]⟩ = some bytes ∧
      Block.decode (fun _ bs => .ok bs) (fun _ => 0) bytes = some (.ok blk) ∧
      blk.data.take blk.dataLen = [0, 8, 255, 255, 255, 242, 0, 0, 0, 0, 0, 0, 0, 0] ++ v ++
        [0, 9, 0, 1, 0, 0, 0, 0, 0, 0, 0, 0] ∧
      blk.tableId = 0 ∧ blk.restartPoints = [⟨0, .u8, .u8⟩, ⟨0, .u8, .u8⟩] := by
  set entries : List UInt8 := [0, 8, 255, 255, 255, 242, 0, 0, 0, 0, 0, 0, 0, 0] ++ v ++
    [0, 9, 0, 1, 0, 0, 0, 0, 0, 0, 0, 0] with hentries
  set raw := entries ++ ([0, 0] : List UInt32).flatMap putU32Le ++
    putU32Le (UInt32.ofNat ([0, 0] : List UInt32).length) ++
    ([⟨0, .u8, .u32⟩, ⟨0, .u8, .u8⟩] : List RestartPoint).flatMap BlockBuilder.encodeTypeIndexEntry ++
    putU32Le (UInt32.ofNat ([⟨0, .u8, .u32⟩, ⟨0, .u8, .u8⟩] : List RestartPoint).length) ++
    putU32Le 0 with hraw
  have hassign : assignLenTypes [⟨0, .u8, .u32⟩, ⟨0, .u8, .u8⟩] 0 [0, 0] =
      some [⟨0, .u8, .u8⟩, ⟨0, .u8, .u8⟩] := by decide
  refine ⟨raw ++ putU8 CompressionAlgorithm.none.toU8 ++
      putU64Le ((fun _ => 0) (raw ++ putU8 CompressionAlgorithm.none.toU8)),
    ⟨raw, entries.length, 0, [⟨0, .u8, .u8⟩, ⟨0, .u8, .u8⟩]⟩, rfl, ?_, ?_, rfl, rfl⟩
  · rw [Block.decode_none, hraw, decodeFromRaw_trailer _ _ _ _ (by decide) (by decide), hassign]
    rfl
  · simp [hraw]

section PastU32

variable {blk : Block} (R : List UInt8)
  (hdata : blk.data.take blk.dataLen = [0, 8, 255, 255, 255, 242, 0, 0, 0, 0, 0] ++ R)
include hdata

attribute [local simp] data in
/-- On such a block the first prefix read with the widths of the second entry: a key of eight
bytes and a value of `255`. -/
theorem decodePrefixAt_past_u32 :
    (BlockIterator.new blk).decodePrefixAt 0 .u8 .u8 = some ⟨0, 8, 255, 0, 3⟩ := by
  have hrun := KeyPrefix.decode_run_encode ⟨0, 8, 255, 0, 0⟩ (k := .u8) (v := .u8) (by decide)
    (by decide) (by decide) 0 ([255, 255, 242, 0, 0, 0, 0, 0] ++ R)
  rw [decodePrefixAt, data, new_block, hdata, if_neg (by simp)]
  rw [List.drop_zero, show [0, 8, 255, 255, 255, 242, 0, 0, 0, 0, 0] ++ R =
    KeyPrefix.encode ⟨0, 8, 255, 0, 0⟩ .u8 .u8 ++ ([255, 255, 242, 0, 0, 0, 0, 0] ++ R) from rfl,
    hrun]
  rfl

/-- The eight bytes that prefix says the key is: the rest of the first prefix and the first
value. -/
theorem slice_key_past_u32 :
    slice (BlockIterator.new blk).data (KeyPrefix.diffKeyRange ⟨0, 8, 255, 0, 3⟩) =
      some [255, 255, 242, 0, 0, 0, 0, 0] := by
  rw [data, new_block, hdata]
  simp [slice, KeyPrefix.diffKeyRange]

/-- A restart point at offset `0` with the widths of the second entry reads the first prefix
as that key. -/
theorem seekRestartPointByIndex_past_u32 {index : ℕ}
    (hrp : blk.restartPoints[index]? = some ⟨0, .u8, .u8⟩) :
    (BlockIterator.new blk).seekRestartPointByIndex index = some { BlockIterator.new blk with
      restartPointIndex := index
      offset := 0
      key := [255, 255, 242, 0, 0, 0, 0, 0]
      valueRange := (11, 266)
      entryLen := 266
      lastKeyLenType := .u8
      lastValueLenType := .u8 } := by
  simp only [seekRestartPointByIndex, new_block, hrp, Option.bind_eq_bind, Option.bind_some,
    UInt32.toNat_zero]
  rw [decodePrefixAt_past_u32 R hdata, Option.bind_some, slice_key_past_u32 R hdata,
    Option.bind_some]
  simp only [updateRestartPoint, hrp, Option.bind_eq_bind, Option.bind_some]
  rfl

end PastU32

/-- `seek_to_first` on such a block reads the first prefix with the widths of the second
entry: a key of eight bytes from the middle of the first prefix. -/
theorem seekToFirst_past_u32 {blk : Block} (R : List UInt8)
    (hdata : blk.data.take blk.dataLen = [0, 8, 255, 255, 255, 242, 0, 0, 0, 0, 0] ++ R)
    (hrp : blk.restartPoints = [⟨0, .u8, .u8⟩, ⟨0, .u8, .u8⟩]) (hlen : 0 < blk.dataLen) :
    ∃ first, (BlockIterator.new blk).seekToFirst = some first ∧ first.isValid = true ∧
      first.key? = FullKey.fromSliceWithoutTableId blk.tableId [255, 255, 242, 0, 0, 0, 0, 0] := by
  have hvalid : ({ BlockIterator.new blk with offset := 0 } : BlockIterator).isValid = true := by
    simp [isValid, hlen]
  refine ⟨_, seekRestartPointByIndex_past_u32 R hdata (by rw [hrp]; rfl), hvalid, ?_⟩
  simp [key?, isValid, hlen]

/-- With any first value of `2 ^ 32 - 14` bytes the restart offset of the
second entry wraps to zero, and the first entry is read with the second's widths. -/
theorem readWith_next_past_u32 (v : List UInt8) (hv : v.length = 4294967282) :
    ∃ builder bytes blk first,
      [((⟨⟨0, []⟩, 0⟩ : FullKey), v), (⟨⟨0, [1]⟩, 0⟩, [])].foldlM
          (fun b kv => b.add kv.1 kv.2) (BlockBuilder.new ⟨.none, 16⟩) = some builder ∧
      builder.build (fun _ bs => bs) (fun _ => 0) = some bytes ∧
      Block.decode (fun _ bs => .ok bs) (fun _ => 0) bytes = some (.ok blk) ∧
      (BlockIterator.new blk).seekToFirst = some first ∧
      ∀ fuel, readWith next fuel first ≠ some [(⟨⟨0, []⟩, 0⟩, v), (⟨⟨0, [1]⟩, 0⟩, [])] := by
  obtain ⟨bytes, blk, hbuild, hdecode, hdata, htid, hrp⟩ := decode_build_past_u32 v
  have hlen : 0 < blk.dataLen := by
    have := congrArg List.length hdata
    simp only [List.length_take, List.length_append] at this
    omega
  obtain ⟨first, hfirst, hvalid, hkey⟩ := seekToFirst_past_u32
    ([0, 0, 0] ++ v ++ [0, 9, 0, 1, 0, 0, 0, 0, 0, 0, 0, 0]) (by rw [hdata]; simp) hrp hlen
  -- The first key read carries an epoch taken from the first value's length.
  have hkey' : first.key? =
      some ⟨⟨0, []⟩, UInt64.ofNat (decodeBE [255, 255, 242, 0, 0, 0, 0, 0])⟩ := by
    rw [hkey, htid]
    rfl
  refine ⟨_, bytes, blk, first, foldlM_add_past_u32 v hv, hbuild, hdecode, hfirst, ?_⟩
  rintro (_ | fuel) h
  · simp [readWith] at h
  · obtain ⟨value, rest, hl⟩ := readWith_eq_some_cons hvalid hkey' h
    simp only [List.cons.injEq, Prod.mk.injEq] at hl
    exact absurd hl.1.1 (by decide)

theorem block_round_trip_wraps :
    ((⟨⟨0, []⟩, 0⟩ : FullKey) < ⟨⟨0, [1]⟩, 0⟩ ∧
      (List.replicate 4294967282 (0 : UInt8)).length < 2 ^ 32) ∧
    ∃ builder bytes blk first,
      [((⟨⟨0, []⟩, 0⟩ : FullKey), List.replicate 4294967282 0), (⟨⟨0, [1]⟩, 0⟩, [])].foldlM
          (fun b kv => b.add kv.1 kv.2) (BlockBuilder.new ⟨.none, 16⟩) = some builder ∧
      builder.build (fun _ bs => bs) (fun _ => 0) = some bytes ∧
      Block.decode (fun _ bs => .ok bs) (fun _ => 0) bytes = some (.ok blk) ∧
      (BlockIterator.new blk).seekToFirst = some first ∧
      ∀ fuel, readWith next fuel first ≠
        some [(⟨⟨0, []⟩, 0⟩, List.replicate 4294967282 0), (⟨⟨0, [1]⟩, 0⟩, [])] :=
  ⟨⟨by rw [FullKey.lt_iff]; decide, by rw [List.length_replicate]; decide⟩,
    readWith_next_past_u32 _ (List.length_replicate ..)⟩

end RisingWave.Hummock
