import Mathlib
import RisingWave.Common.MemcmpEncoding
import RisingWave.Common.VnodeMapping
import RisingWave.Hummock.Key

/-!
# Watermark state cleaning of a state table

`common/table/state_table.rs`, `StateTableInner::seal_current_epoch`. When the watermark
taken for state cleaning is to be cleaned, the table flushes one delete range per vnode it
owns, over the keys `vnode ++ memcmp(pk)`, meant to hold the rows whose first pk datum is
below the watermark. The ranges are computed on bytes: under an ascending first column from
the value tag to the encoded watermark, under a descending one from the successor
(`next_key`) of the watermark's inverted bytes to the tag after the value tag.

The watermark cache is read through whether it is synced and its lowest key; its upkeep is
left out, and clearing it empties it and marks it unsynced. `USE_WATERMARK_CACHE` is the
parameter `useWatermarkCache`. What `seal_current_epoch` returns here is the table after it
and the delete ranges it flushes; a panic is `none`.
-/

namespace RisingWave.Common

/-- `VirtualNode::to_be_bytes`. -/
def VirtualNode.toBeBytes (self : VirtualNode) : List UInt8 := ByteCodec.encodeBE 2 self.inner.toNat

end RisingWave.Common

namespace RisingWave.Stream

open RisingWave.Common RisingWave.Common.MemcmpEncoding RisingWave.Hummock ByteCodec

/-- What `seal_current_epoch` reads of a `StateTableWatermarkCache`. -/
structure StateTableWatermarkCache (S : Type) where
  isSynced : Bool
  lowestKey : Option S

/-- `StateTableWatermarkCache::clear`. -/
def StateTableWatermarkCache.clear (_self : StateTableWatermarkCache S) :
    StateTableWatermarkCache S := ⟨false, none⟩

/-- What `seal_current_epoch` reads and writes of a `StateTableInner`. -/
structure StateTableInner (S : Type) where
  pkIndices : List ℕ
  pkSerde : OrderedRowSerde
  vnodes : Bitmap
  stateCleanWatermark : Option S
  prevCleanedWatermark : Option S
  watermarkCache : StateTableWatermarkCache S

variable {S : Type}

/-- `serialize_pk`. -/
def serializePk (enc : S → List UInt8) (pk : List (Option S)) (serializer : OrderedRowSerde) :
    List UInt8 :=
  serializer.serialize enc pk

/-- `serialize_pk_with_vnode`: the key of a row of vnode `vnode`. -/
def serializePkWithVnode (enc : S → List UInt8) (pk : List (Option S))
    (serializer : OrderedRowSerde) (vnode : VirtualNode) : List UInt8 :=
  vnode.toBeBytes ++ serializer.serialize enc pk

/-- `vnode.to_be_bytes()` for the vnode `iter_vnodes` yields at a set bit: `from_index` casts
the bit's index to the vnode's `u16`. -/
def iterVnodeBytes (index : ℕ) : List UInt8 := encodeBE 2 (UInt16.ofNat index).toNat

/-- A key lies in a delete range `(Included(begin), Excluded(end))`. -/
def InDeleteRange (range : List UInt8 × List UInt8) (key : List UInt8) : Prop :=
  range.1 ≤ key ∧ key < range.2

instance (range : List UInt8 × List UInt8) (key : List UInt8) :
    Decidable (InDeleteRange range key) :=
  inferInstanceAs (Decidable (_ ∧ _))

section Model

variable [LinearOrder S]

/-- The `should_clean_watermark` of `seal_current_epoch`: with the cache in use and synced,
only when the watermark is at least the lowest key cached, and never for an empty table. -/
def shouldCleanWatermark (useWatermarkCache : Bool) (cache : StateTableWatermarkCache S) :
    Option S → Bool
  | some watermark =>
    if useWatermarkCache && cache.isSynced then
      match cache.lowestKey with
      | some key => decide (key ≤ watermark)
      | none => false
    else true
  | none => false

/-- The "Compute Delete Ranges" block of `seal_current_epoch`, for the encoded watermark
`watermarkSuffix` and the order types of the pk prefix serializer. -/
def computeDeleteRanges (vnodes : Bitmap) (orderTypes : List Common.OrderType)
    (watermarkSuffix : List UInt8) : Option (List (List UInt8 × List UInt8)) := do
  match watermarkSuffix.head? with
  | none => pure []
  | some firstByte =>
    let order ← orderTypes.head?
    if order.isAscending then
      -- NULL is tagged below or above every value, so the range starts at the value tag
      let rangeBeginSuffix := [firstByte]
      pure (vnodes.iterOnes.map fun vnode =>
        (iterVnodeBytes vnode ++ rangeBeginSuffix, iterVnodeBytes vnode ++ watermarkSuffix))
    -- `assert_ne!(*first_byte, u8::MAX)`
    else if firstByte = 0xff then failure
    else
      let followingBytes := nextKey (watermarkSuffix.drop 1)
      if followingBytes.isEmpty then pure []
      else
        pure (vnodes.iterOnes.map fun vnode =>
          (iterVnodeBytes vnode ++ firstByte :: followingBytes,
            iterVnodeBytes vnode ++ [firstByte + 1]))

/-- `StateTableInner::seal_current_epoch`: the table after it, and the delete ranges flushed.
The prefix serializer is unwrapped as soon as there is a watermark, so a watermark on a table
without a pk panics. -/
def StateTableInner.sealCurrentEpoch (enc : S → List UInt8) (useWatermarkCache : Bool)
    (self : StateTableInner S) : Option (StateTableInner S × List (List UInt8 × List UInt8)) := do
  let watermark := self.stateCleanWatermark
  let prefixSerializer : Option OrderedRowSerde ←
    if self.pkIndices.isEmpty then pure none else some <$> self.pkSerde.prefixSerde 1
  let shouldClean := shouldCleanWatermark useWatermarkCache self.watermarkCache watermark
  let watermarkSuffix : Option (List UInt8) ←
    match watermark with
    | some watermark => do
      let serializer ← prefixSerializer
      pure (some (serializePk enc [some watermark] serializer))
    | none => pure none
  let deleteRanges ←
    match shouldClean, watermarkSuffix with
    | true, some watermarkSuffix => do
      let serializer ← prefixSerializer
      computeDeleteRanges self.vnodes serializer.orderTypes watermarkSuffix
    | _, _ => pure []
  let watermarkCache :=
    if useWatermarkCache && !deleteRanges.isEmpty then self.watermarkCache.clear
    else self.watermarkCache
  pure ({ self with stateCleanWatermark := none, prevCleanedWatermark := watermark,
                    watermarkCache := watermarkCache }, deleteRanges)

end Model

/-! ## Keys of one vnode -/

attribute [local simp] VirtualNode.toBeBytes in
theorem length_toBeBytes (vnode : VirtualNode) : vnode.toBeBytes.length = 2 := by
  simp [VirtualNode.toBeBytes]

attribute [local simp] iterVnodeBytes in
theorem length_iterVnodeBytes (index : ℕ) : (iterVnodeBytes index).length = 2 := by
  simp [iterVnodeBytes]

/-- The vnode of a set bit of a vnode bitmap has the bytes of exactly one vnode. -/
theorem iterVnodeBytes_eq_toBeBytes_iff {index : ℕ} (hindex : index < VirtualNode.COUNT)
    (vnode : VirtualNode) : iterVnodeBytes index = vnode.toBeBytes ↔ index = vnode.toIndex := by
  have hcount : VirtualNode.COUNT < 256 ^ 2 := by decide
  have hinner := vnode.toIndex_lt
  constructor
  · intro h
    have h' := congrArg decodeBE h
    rw [iterVnodeBytes, VirtualNode.toBeBytes, decodeBE_encodeBE, decodeBE_encodeBE,
      UInt16.toNat_ofNat'] at h'
    simp only [VirtualNode.toIndex] at hinner ⊢
    omega
  · rintro rfl
    simp [iterVnodeBytes, VirtualNode.toBeBytes, VirtualNode.toIndex]

theorem lt_count_of_mem_iterOnes {vnodes : Bitmap} (hlen : vnodes.len = VirtualNode.COUNT)
    {index : ℕ} (h : index ∈ vnodes.iterOnes) : index < VirtualNode.COUNT := by
  rw [Bitmap.iterOnes, List.mem_filter, List.mem_range] at h
  exact hlen ▸ h.1

/-- A key lies in one of the ranges built for the owned vnodes, each between two keys of that
vnode, exactly when its vnode is owned and what follows the vnode lies between them. -/
theorem exists_inDeleteRange_iff {vnodes : Bitmap} (hlen : vnodes.len = VirtualNode.COUNT)
    (x y z : List UInt8) (vnode : VirtualNode) :
    (∃ r ∈ vnodes.iterOnes.map (fun i => (iterVnodeBytes i ++ x, iterVnodeBytes i ++ y)),
        InDeleteRange r (vnode.toBeBytes ++ z)) ↔
      vnode.toIndex ∈ vnodes.iterOnes ∧ x ≤ z ∧ z < y := by
  have hl (i : ℕ) : vnode.toBeBytes.length = (iterVnodeBytes i).length := by
    rw [length_toBeBytes, length_iterVnodeBytes]
  constructor
  · rintro ⟨r, hr, hin⟩
    obtain ⟨i, hi, rfl⟩ := List.mem_map.mp hr
    obtain ⟨heq, hxz, hzy⟩ := (List.append_mem_Ico_iff_of_length_eq (hl i) x y z).mp hin
    rw [eq_comm, iterVnodeBytes_eq_toBeBytes_iff (lt_count_of_mem_iterOnes hlen hi)] at heq
    exact ⟨heq ▸ hi, hxz, hzy⟩
  · rintro ⟨hi, hxz, hzy⟩
    have heq := (iterVnodeBytes_eq_toBeBytes_iff (lt_count_of_mem_iterOnes hlen hi) vnode).mpr rfl
    exact ⟨_, List.mem_map_of_mem hi,
      (List.append_mem_Ico_iff_of_length_eq (hl _) x y z).mpr ⟨heq.symm, hxz, hzy⟩⟩

/-! ## The bounds on the encoded first datum -/

section Bounds

variable [LinearOrder S] {enc : S → List UInt8}

/-- Ascending: from the value tag to the encoded watermark lie exactly the values below it,
whatever follows them. -/
theorem ascending_bounds_iff (henc : Lawful enc) (nullsAre : NullsAre) (w : S) (d : Option S)
    (rest : List UInt8) :
    ((serializeDatum enc (some w) ⟨.ascending, nullsAre⟩).take 1 ≤
        serializeDatum enc d ⟨.ascending, nullsAre⟩ ++ rest ∧
      serializeDatum enc d ⟨.ascending, nullsAre⟩ ++ rest <
        serializeDatum enc (some w) ⟨.ascending, nullsAre⟩) ↔
      ∃ x, d = some x ∧ x < w := by
  cases d with
  | none =>
    -- the NULL tag lies on the other side of the value tag from every value
    cases nullsAre
    · have hnull : serializeDatum enc none ⟨.ascending, .largest⟩ ++ rest = 1 :: rest := rfl
      have hw : serializeDatum enc (some w) ⟨.ascending, .largest⟩ = 0 :: enc w := rfl
      rw [hnull, hw]
      simp [List.cons_lt_cons_iff']
    · have hnull : serializeDatum enc none ⟨.ascending, .smallest⟩ ++ rest = 0 :: rest := rfl
      have hw : serializeDatum enc (some w) ⟨.ascending, .smallest⟩ = 1 :: enc w := rfl
      rw [hnull, hw]
      simp [List.cons_le_cons_iff']
  | some x =>
    have hlow := List.le_of_prefix
      ((take_one_prefix_serializeDatum enc ⟨.ascending, nullsAre⟩ x w).trans
        (List.prefix_append _ rest))
    have hasc : Common.OrderType.isDescending ⟨.ascending, nullsAre⟩ = false := rfl
    rw [serializeDatum_append_lt_serializeDatum_iff henc]
    simp [hlow, hasc]

/-- Descending with NULLs last: from the successor of the watermark's inverted bytes to the
tag after the value tag lie exactly the values below the watermark, whatever follows them. -/
theorem descending_bounds_iff (henc : Lawful enc) (w : S)
    (hnext : nextKey (reverseBytes true (enc w)) ≠ []) (d : Option S) (rest : List UInt8) :
    ((~~~1 : UInt8) :: nextKey (reverseBytes true (enc w)) ≤
        serializeDatum enc d ⟨.descending, .smallest⟩ ++ rest ∧
      serializeDatum enc d ⟨.descending, .smallest⟩ ++ rest < [~~~1 + 1]) ↔
      ∃ x, d = some x ∧ x < w := by
  cases d with
  | none =>
    -- NULL is tagged `0xff`, at or past the end of the range
    have hnull : serializeDatum enc none ⟨.descending, .smallest⟩ ++ rest = ~~~0 :: rest := rfl
    have hend : ¬ (~~~0 : UInt8) :: rest < [~~~1 + 1] := by
      rw [List.cons_lt_cons_iff']
      rintro (h | ⟨-, h⟩)
      · exact absurd h (by decide)
      · exact List.not_lex_nil h
    rw [hnull]
    exact iff_of_false (fun h => hend h.2) (by simp)
  | some x =>
    have hdatum : serializeDatum enc (some x) ⟨.descending, .smallest⟩ ++ rest =
        (~~~1 : UInt8) :: (reverseBytes true (enc x) ++ rest) := rfl
    have hend : (~~~1 : UInt8) :: (reverseBytes true (enc x) ++ rest) < [~~~1 + 1] :=
      List.cons_lt_cons_iff'.mpr (.inl (by decide))
    rw [hdatum, List.cons_le_cons_iff', nextKey_le_iff hnext]
    simp only [lt_irrefl, true_and, false_or, hend, and_true, Option.some.injEq, exists_eq_left']
    by_cases hxw : x = w
    · -- the watermark's own bytes start the key
      subst hxw
      simp [List.prefix_append]
    · have hpre := (reverseBytes_prefix_reverseBytes_iff henc true w x).not.mpr (Ne.symm hxw)
      have hpre' := (reverseBytes_prefix_reverseBytes_iff henc true x w).not.mpr hxw
      have hlt := reverseBytes_append_lt_iff henc true (Ne.symm hxw) [] rest
      rw [List.append_nil, if_pos rfl] at hlt
      rw [hlt]
      exact and_iff_left (List.not_prefix_append_of_not_prefix hpre hpre' rest)

/-- Descending with NULLs last and an empty successor: the watermark's inverted bytes are all
`0xff`, and no value lies below it. -/
theorem not_lt_of_nextKey_eq_nil (henc : Lawful enc) (w : S)
    (hnext : nextKey (reverseBytes true (enc w)) = []) (x : S) : ¬ x < w := by
  intro hxw
  have hlt : reverseBytes true (enc w) < reverseBytes true (enc x) := by
    have h := reverseBytes_append_lt_iff henc true hxw.ne' [] []
    simp only [List.append_nil, if_true] at h
    exact h.mpr hxw
  exact hxw.ne' ((reverseBytes_prefix_reverseBytes_iff henc true w x).mp
    (prefix_of_lt_of_nextKey_eq_nil hnext hlt))

end Bounds

/-! ## The delete ranges -/

theorem computeDeleteRanges_ascending (enc : S → List UInt8) (vnodes : Bitmap)
    (nullsAre : NullsAre) (orders : List Common.OrderType) (w : S) :
    computeDeleteRanges vnodes (⟨.ascending, nullsAre⟩ :: orders)
        (serializeDatum enc (some w) ⟨.ascending, nullsAre⟩) =
      some (vnodes.iterOnes.map fun i =>
        (iterVnodeBytes i ++ (serializeDatum enc (some w) ⟨.ascending, nullsAre⟩).take 1,
          iterVnodeBytes i ++ serializeDatum enc (some w) ⟨.ascending, nullsAre⟩)) := by
  cases nullsAre <;> rfl

theorem computeDeleteRanges_descendingNullsLast (enc : S → List UInt8) (vnodes : Bitmap)
    (orders : List Common.OrderType) (w : S) :
    computeDeleteRanges vnodes (⟨.descending, .smallest⟩ :: orders)
        (serializeDatum enc (some w) ⟨.descending, .smallest⟩) =
      some (if nextKey (reverseBytes true (enc w)) = [] then []
        else vnodes.iterOnes.map fun i =>
          (iterVnodeBytes i ++ (~~~1 : UInt8) :: nextKey (reverseBytes true (enc w)),
            iterVnodeBytes i ++ [~~~1 + 1])) := by
  have hfirst : ((~~~1 : UInt8) = 0xff) = False := by decide
  simp [computeDeleteRanges, MemcmpEncoding.serializeDatum, Common.OrderType.isAscending,
    Common.OrderType.isDescending, Common.OrderType.nullsAreLargest, hfirst]
  split <;> simp_all

/-- Under `DESC`, NULLs first, the value tag inverted is `0xff` and the assertion fails. -/
theorem computeDeleteRanges_descending (enc : S → List UInt8) (vnodes : Bitmap)
    (orders : List Common.OrderType) (w : S) :
    computeDeleteRanges vnodes (Common.OrderType.descending :: orders)
      (serializeDatum enc (some w) Common.OrderType.descending) = none := rfl

section Ranges

variable [LinearOrder S] {enc : S → List UInt8}

/-- Under every order type but `DESC` with NULLs first, the delete ranges built for a watermark
hold a key `vnode ++ datum ++ rest` exactly when the vnode is owned and the datum is a value
below the watermark. -/
theorem computeDeleteRanges_spec (henc : Lawful enc) {vnodes : Bitmap}
    (hlen : vnodes.len = VirtualNode.COUNT) {order : Common.OrderType}
    (horder : order ≠ Common.OrderType.descending) (orders : List Common.OrderType) (w : S) :
    ∃ deleteRanges, computeDeleteRanges vnodes (order :: orders)
        (serializeDatum enc (some w) order) = some deleteRanges ∧
      ∀ (vnode : VirtualNode) (d : Option S) (rest : List UInt8),
        (∃ r ∈ deleteRanges, InDeleteRange r (vnode.toBeBytes ++ (serializeDatum enc d order ++ rest))) ↔
          vnode.toIndex ∈ vnodes.iterOnes ∧ ∃ x, d = some x ∧ x < w := by
  rcases order with ⟨_ | _, nullsAre⟩
  · refine ⟨_, computeDeleteRanges_ascending enc vnodes nullsAre orders w, fun vnode d rest => ?_⟩
    rw [exists_inDeleteRange_iff hlen, ascending_bounds_iff henc]
  · cases nullsAre
    · exact absurd rfl horder
    · rw [computeDeleteRanges_descendingNullsLast]
      by_cases hnext : nextKey (reverseBytes true (enc w)) = []
      · -- no value lies below the watermark, and no range is built
        refine ⟨[], by rw [if_pos hnext], fun vnode d rest => ?_⟩
        have hnone : ¬ ∃ x, d = some x ∧ x < w :=
          fun ⟨x, _, hxw⟩ => not_lt_of_nextKey_eq_nil henc w hnext x hxw
        simp [hnone]
      · refine ⟨_, by rw [if_neg hnext], fun vnode d rest => ?_⟩
        rw [exists_inDeleteRange_iff hlen, descending_bounds_iff henc w hnext]

/-! ## Sealing an epoch -/

variable {useWatermarkCache : Bool} {self : StateTableInner S} {order : Common.OrderType}
  {orders : List Common.OrderType} {w : S}

attribute [local simp] StateTableInner.sealCurrentEpoch in
/-- Cleaning the watermark `w` of a table whose first pk column is of order `order` flushes
the delete ranges computed from the encoded watermark, and consumes the watermark. -/
theorem sealCurrentEpoch_of_shouldClean (enc : S → List UInt8) (hpk : self.pkIndices ≠ [])
    (hserde : self.pkSerde.orderTypes = order :: orders) (hw : self.stateCleanWatermark = some w)
    (hclean : shouldCleanWatermark useWatermarkCache self.watermarkCache (some w) = true) :
    self.sealCurrentEpoch enc useWatermarkCache =
      (computeDeleteRanges self.vnodes [order] (serializeDatum enc (some w) order)).map
        fun deleteRanges =>
          ({ self with
              stateCleanWatermark := none
              prevCleanedWatermark := some w
              watermarkCache :=
                if useWatermarkCache && !deleteRanges.isEmpty then self.watermarkCache.clear
                else self.watermarkCache }, deleteRanges) := by
  have hprefix := OrderedRowSerde.prefixSerde_one hserde
  have hsuffix : serializePk enc [some w] ⟨[order]⟩ = serializeDatum enc (some w) order := by
    simp [serializePk, OrderedRowSerde.serialize]
  cases h : computeDeleteRanges self.vnodes [order] (serializeDatum enc (some w) order) <;>
    simp [StateTableInner.sealCurrentEpoch, hw, hpk, hprefix, hclean, hsuffix, h]

/-- Without a watermark to clean nothing is deleted. -/
theorem sealCurrentEpoch_of_not_shouldClean (enc : S → List UInt8) (hpk : self.pkIndices ≠ [])
    (hserde : self.pkSerde.orderTypes = order :: orders)
    (hclean : shouldCleanWatermark useWatermarkCache self.watermarkCache
      self.stateCleanWatermark = false) :
    self.sealCurrentEpoch enc useWatermarkCache =
      some ({ self with
        stateCleanWatermark := none
        prevCleanedWatermark := self.stateCleanWatermark }, []) := by
  have hprefix := OrderedRowSerde.prefixSerde_one hserde
  simp only [StateTableInner.sealCurrentEpoch, List.isEmpty_iff, hpk, if_false, hprefix, hclean]
  cases self.stateCleanWatermark <;> simp

/-- Under every order type of the first pk column but `DESC` with NULLs first, cleaning the
watermark `w` deletes, of the keys `vnode ++ memcmp(pk)`, exactly those of an owned vnode whose
first pk datum is a value below `w`: never a NULL, a value at or above `w`, or another vnode. -/
theorem sealCurrentEpoch_deletes_below_watermark (henc : Lawful enc) (hpk : self.pkIndices ≠ [])
    (hserde : self.pkSerde.orderTypes = order :: orders)
    (hvnodes : self.vnodes.len = VirtualNode.COUNT) (hw : self.stateCleanWatermark = some w)
    (hclean : shouldCleanWatermark useWatermarkCache self.watermarkCache (some w) = true)
    (horder : order ≠ Common.OrderType.descending) :
    ∃ next deleteRanges, self.sealCurrentEpoch enc useWatermarkCache = some (next, deleteRanges) ∧
      ∀ (vnode : VirtualNode) (d : Option S) (pk : List (Option S)),
        (∃ r ∈ deleteRanges, InDeleteRange r (serializePkWithVnode enc (d :: pk) self.pkSerde vnode)) ↔
          vnode.toIndex ∈ self.vnodes.iterOnes ∧ ∃ x, d = some x ∧ x < w := by
  obtain ⟨deleteRanges, hranges, hspec⟩ := computeDeleteRanges_spec henc hvnodes horder [] w
  rw [sealCurrentEpoch_of_shouldClean enc hpk hserde hw hclean, hranges, Option.map_some]
  refine ⟨_, deleteRanges, rfl, fun vnode d pk => ?_⟩
  rw [serializePkWithVnode, OrderedRowSerde.serialize_cons enc hserde]
  exact hspec vnode d _

/-- Under `DESC` with NULLs first, the default `DESC`, cleaning a watermark panics. -/
theorem sealCurrentEpoch_eq_none_of_descending (enc : S → List UInt8) (hpk : self.pkIndices ≠ [])
    (hserde : self.pkSerde.orderTypes = Common.OrderType.descending :: orders)
    (hw : self.stateCleanWatermark = some w)
    (hclean : shouldCleanWatermark useWatermarkCache self.watermarkCache (some w) = true) :
    self.sealCurrentEpoch enc useWatermarkCache = none := by
  rw [sealCurrentEpoch_of_shouldClean enc hpk hserde hw hclean, computeDeleteRanges_descending]
  rfl

end Ranges

/-! ## A table of bytes -/

/-- Bytes encoded as themselves. -/
def byteEncoding (x : UInt8) : List UInt8 := [x]

theorem byteEncoding_lawful : Lawful byteEncoding where
  strictMono _ _ h := List.Lex.rel h
  eq_of_prefix h := by
    simpa [byteEncoding] using h.eq_of_length rfl

/-- A table keyed by one byte, owning every vnode, cleaning up to `5` without the cache. -/
def byteTable (order : Common.OrderType) : StateTableInner UInt8 :=
  ⟨[0], ⟨[order]⟩, ⟨List.replicate VirtualNode.COUNT true⟩, some 5, none, ⟨false, none⟩⟩

theorem byteTable_deletes_below_five :
    (byteTable Common.OrderType.ascending).pkIndices ≠ [] ∧
      (byteTable Common.OrderType.ascending).pkSerde.orderTypes = [Common.OrderType.ascending] ∧
      (byteTable Common.OrderType.ascending).vnodes.len = VirtualNode.COUNT ∧
      (byteTable Common.OrderType.ascending).stateCleanWatermark = some 5 ∧
      shouldCleanWatermark false (byteTable Common.OrderType.ascending).watermarkCache (some 5) = true ∧
      Common.OrderType.ascending ≠ Common.OrderType.descending ∧
      ∃ next deleteRanges,
        (byteTable Common.OrderType.ascending).sealCurrentEpoch byteEncoding false =
          some (next, deleteRanges) ∧
        ∀ (vnode : VirtualNode) (d : Option UInt8) (pk : List (Option UInt8)),
          (∃ r ∈ deleteRanges, InDeleteRange r
              (serializePkWithVnode byteEncoding (d :: pk) (byteTable Common.OrderType.ascending).pkSerde
                vnode)) ↔
            vnode.toIndex ∈ (byteTable Common.OrderType.ascending).vnodes.iterOnes ∧
              ∃ x, d = some x ∧ x < 5 :=
  ⟨by decide, rfl, List.length_replicate, rfl, rfl, by decide,
    sealCurrentEpoch_deletes_below_watermark byteEncoding_lawful (by decide) rfl
      List.length_replicate rfl rfl (by decide)⟩

/-- The table keyed by one `DESC` byte panics when it cleans its watermark. -/
theorem byteTable_descending_panics :
    (byteTable Common.OrderType.descending).sealCurrentEpoch byteEncoding false = none := rfl

end RisingWave.Stream
