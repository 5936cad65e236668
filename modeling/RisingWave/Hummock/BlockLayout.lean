import RisingWave.Hummock.Block

/-!
# The layout of a block

What `BlockBuilder::add` leaves in its buffer, entry by entry: each entry's
whole key and value, how much of the key it shares with the entry before, the
widths of its lengths, and whether it starts a restart point and a type index
entry. `BlockBuilder.Lays b L` says that the builder `b` holds the entries `L`;
`add` keeps it (`BlockBuilder.add_lays`), so a run of `add`s holds a well-formed
layout of its input (`BlockBuilder.foldlM_add_lays`). `Block::decode` of what
`build` then writes gives back the entries and the restart points of the layout
with their widths (`BlockBuilder.decode_build`), as long as every offset fits
the `u32` it is written in.
-/

namespace RisingWave.Hummock

open ByteCodec ByteBuf

/-- One entry as the builder writes it. -/
structure EntryLayout where
  key : List UInt8
  value : List UInt8
  overlap : ℕ
  keyLenType : LenType
  valueLenType : LenType
  restart : Bool
  typeChange : Bool

namespace EntryLayout

/-- The part of the key written after the prefix. -/
def diffKey (e : EntryLayout) : List UInt8 := e.key.drop e.overlap

/-- The key prefix; its offset is not written. -/
def keyPrefix (e : EntryLayout) : KeyPrefix :=
  KeyPrefix.newWithoutLen e.overlap e.diffKey.length e.value.length 0

/-- The bytes of the entry. -/
def bytes (e : EntryLayout) : List UInt8 :=
  e.keyPrefix.encode e.keyLenType e.valueLenType ++ e.diffKey ++ e.value

/-- The restart point, or type index entry, of the entry at `offset`. -/
def restartPoint (e : EntryLayout) (offset : ℕ) : RestartPoint :=
  ⟨UInt32.ofNat offset, e.keyLenType, e.valueLenType⟩

/-- What holds of each entry on its own: the widths hold the lengths, the
overlap is within the key and empty at a restart point, and the widths change
only at a restart point. -/
structure Valid (e : EntryLayout) : Prop where
  key_lt : e.key.length < 256 ^ e.keyLenType.len
  value_lt : e.value.length < 256 ^ e.valueLenType.len
  overlap_le : e.overlap ≤ e.key.length
  overlap_eq_zero : e.restart → e.overlap = 0
  restart_of_typeChange : e.typeChange → e.restart

/-- What holds of an entry `e` after `p`: without a type index entry `e` keeps
the widths of `p`, and without a restart point it shares its overlap with `p`. -/
structure Follows (p e : EntryLayout) : Prop where
  types_eq : e.typeChange = false →
    e.keyLenType = p.keyLenType ∧ e.valueLenType = p.valueLenType
  take_eq : e.restart = false → p.key.take e.overlap = e.key.take e.overlap

attribute [local simp] bytes keyPrefix KeyPrefix.newWithoutLen in
@[simp] theorem bytes_length (e : EntryLayout) :
    e.bytes.length = e.keyLenType.len * 2 + e.valueLenType.len + e.diffKey.length +
      e.value.length := by
  simp [bytes, keyPrefix, KeyPrefix.newWithoutLen, Nat.add_assoc]

theorem two_le_bytes_length (e : EntryLayout) : 2 ≤ e.bytes.length := by
  have : 0 < e.keyLenType.len := by cases e.keyLenType <;> decide
  rw [bytes_length]
  omega

attribute [local simp] diffKey in
/-- An entry takes at most its key, its value and twelve bytes of lengths. -/
theorem bytes_length_le (e : EntryLayout) : e.bytes.length ≤ e.key.length + e.value.length + 12 := by
  have hk : e.keyLenType.len ≤ 4 := by cases e.keyLenType <;> decide
  have hv : e.valueLenType.len ≤ 4 := by cases e.valueLenType <;> decide
  have hd : e.diffKey.length ≤ e.key.length := by simp [diffKey]
  rw [bytes_length]
  omega

/-- The overlap and the rest give back the key. -/
theorem take_append_diffKey (e : EntryLayout) : e.key.take e.overlap ++ e.diffKey = e.key :=
  List.take_append_drop _ _

end EntryLayout

/-- The bytes of the entries `L`. -/
def layoutBytes (L : List EntryLayout) : List UInt8 := L.flatMap EntryLayout.bytes

/-- The restart points (`p = restart`) or the type index (`p = typeChange`) of
the entries `L` written from `offset` on. -/
def pointsFrom (p : EntryLayout → Bool) : ℕ → List EntryLayout → List RestartPoint
  | _, [] => []
  | offset, e :: L =>
    (if p e then [e.restartPoint offset] else []) ++ pointsFrom p (offset + e.bytes.length) L

/-- A well-formed layout: valid entries, each following the one before, and
a first entry that starts the type index. -/
structure LayoutWF (L : List EntryLayout) : Prop where
  valid : ∀ e ∈ L, e.Valid
  chain : L.IsChain EntryLayout.Follows
  head : ∀ e ∈ L.head?, e.typeChange

/-- A length below `2 ^ 32` has a width. -/
theorem LenType.exists_new_eq_some {n : ℕ} (h : n < 2 ^ 32) : ∃ t, LenType.new n = some t := by
  unfold LenType.new
  split_ifs <;> first | exact ⟨_, rfl⟩ | omega

/-! ## Offsets -/

@[simp] theorem layoutBytes_nil : layoutBytes [] = [] := rfl

@[simp] theorem layoutBytes_cons (e : EntryLayout) (L : List EntryLayout) :
    layoutBytes (e :: L) = e.bytes ++ layoutBytes L := rfl

@[simp] theorem layoutBytes_append (L L' : List EntryLayout) :
    layoutBytes (L ++ L') = layoutBytes L ++ layoutBytes L' := List.flatMap_append

theorem two_mul_length_le (L : List EntryLayout) : 2 * L.length ≤ (layoutBytes L).length := by
  induction L with
  | nil => simp
  | cons e L ih =>
    have := e.two_le_bytes_length
    simp only [layoutBytes_cons, List.length_append, List.length_cons]
    omega

@[simp] theorem pointsFrom_nil (p : EntryLayout → Bool) (offset : ℕ) :
    pointsFrom p offset [] = [] := rfl

theorem pointsFrom_cons (p : EntryLayout → Bool) (offset : ℕ) (e : EntryLayout)
    (L : List EntryLayout) :
    pointsFrom p offset (e :: L) =
      (if p e then [e.restartPoint offset] else []) ++ pointsFrom p (offset + e.bytes.length) L :=
  rfl

theorem pointsFrom_append (p : EntryLayout → Bool) (offset : ℕ) (L L' : List EntryLayout) :
    pointsFrom p offset (L ++ L') =
      pointsFrom p offset L ++ pointsFrom p (offset + (layoutBytes L).length) L' := by
  induction L generalizing offset with
  | nil => simp
  | cons e L ih =>
    simp only [List.cons_append, pointsFrom_cons, ih, List.append_assoc, layoutBytes_cons,
      List.length_append, Nat.add_assoc]

@[simp] theorem length_pointsFrom (p : EntryLayout → Bool) (offset : ℕ) (L : List EntryLayout) :
    (pointsFrom p offset L).length = L.countP p := by
  induction L generalizing offset with
  | nil => simp
  | cons e L ih =>
    rw [pointsFrom_cons, List.length_append, ih, List.countP_cons]
    split <;> simp [Nat.add_comm]

/-- Every point lies in the bytes of its entries. -/
theorem offset_of_mem_pointsFrom {p : EntryLayout → Bool} {offset : ℕ} {L : List EntryLayout}
    {rp : RestartPoint} (h : rp ∈ pointsFrom p offset L) :
    ∃ o, offset ≤ o ∧ o < offset + (layoutBytes L).length ∧ rp.offset = UInt32.ofNat o := by
  induction L generalizing offset with
  | nil => simp at h
  | cons e L ih =>
    have hpos := e.two_le_bytes_length
    rw [pointsFrom_cons, List.mem_append] at h
    rcases h with h | h
    · split at h
      · simp only [List.mem_singleton] at h
        exact ⟨offset, le_rfl, by rw [layoutBytes_cons, List.length_append]; omega,
          by rw [h]; rfl⟩
      · simp at h
    · obtain ⟨o, ho, ho', hrp⟩ := ih h
      exact ⟨o, by omega, by simp at ho' ⊢; omega, hrp⟩

/-- A point's offset reads back when the entries fit in `u32` offsets. -/
theorem offset_toNat_of_mem_pointsFrom {p : EntryLayout → Bool} {offset : ℕ}
    {L : List EntryLayout} (hfits : offset + (layoutBytes L).length ≤ 2 ^ 32) {rp : RestartPoint}
    (h : rp ∈ pointsFrom p offset L) :
    offset ≤ rp.offset.toNat ∧ rp.offset.toNat < offset + (layoutBytes L).length := by
  obtain ⟨o, ho, ho', hrp⟩ := offset_of_mem_pointsFrom h
  have ho32 : o < 2 ^ 32 := by omega
  rw [hrp, UInt32.toNat_ofNat', Nat.mod_eq_of_lt ho32]
  exact ⟨ho, ho'⟩

/-! ## The builder holds a layout -/

/-- The widths of a restart point or an entry. -/
def RestartPoint.types (rp : RestartPoint) : LenType × LenType := (rp.keyLenType, rp.valueLenType)

/-- The widths of an entry. -/
def EntryLayout.types (e : EntryLayout) : LenType × LenType := (e.keyLenType, e.valueLenType)

@[simp] theorem EntryLayout.restartPoint_offset (e : EntryLayout) (offset : ℕ) :
    (e.restartPoint offset).offset = UInt32.ofNat offset := rfl

@[simp] theorem EntryLayout.restartPoint_types (e : EntryLayout) (offset : ℕ) :
    (e.restartPoint offset).types = e.types := rfl

/-- The builder `b` holds the entries `L`: its buffer, restart points, type
index, last key and count are theirs, and the last type index entry has the
widths of the last entry. -/
structure BlockBuilder.Lays (b : BlockBuilder) (L : List EntryLayout) : Prop where
  buf_eq : b.buf = layoutBytes L
  restartPoints_eq : b.restartPoints = (pointsFrom EntryLayout.restart 0 L).map RestartPoint.offset
  typeIndex_eq : b.restartPointsTypeIndex = pointsFrom EntryLayout.typeChange 0 L
  lastKey_eq : b.lastKey = (L.getLast?.map EntryLayout.key).getD []
  entryCount_eq : b.entryCount = L.length
  lastTypes_eq : b.restartPointsTypeIndex.getLast?.map RestartPoint.types =
    L.getLast?.map EntryLayout.types
  wf : LayoutWF L

namespace BlockBuilder

/-- Whether the widths differ from the last type index entry's. -/
def typeMismatch (b : BlockBuilder) (kType vType : LenType) : Bool :=
  match b.restartPointsTypeIndex.getLast? with
  | some last => kType ≠ last.keyLenType || vType ≠ last.valueLenType
  | none => true

/-- The entry `add` writes for `key` and `value` with the widths `kType` and `vType`. -/
def nextEntry (b : BlockBuilder) (key value : List UInt8) (kType vType : LenType) :
    EntryLayout :=
  let restart := b.entryCount % b.restartCount = 0 || b.typeMismatch kType vType
  let diffKey := if restart then key else bytesDiffBelowMaxKeyLength b.lastKey key
  ⟨key, value, key.length - diffKey.length, kType, vType, restart, b.typeMismatch kType vType⟩

attribute [local simp] nextEntry in
theorem nextEntry_diffKey (b : BlockBuilder) (key value : List UInt8) (kType vType : LenType) :
    (b.nextEntry key value kType vType).diffKey =
      if (b.nextEntry key value kType vType).restart then key
      else bytesDiffBelowMaxKeyLength b.lastKey key := by
  by_cases hc : (decide (b.entryCount % b.restartCount = 0) || b.typeMismatch kType vType) = true
  · simp [nextEntry, EntryLayout.diffKey, hc]
  · simp only [nextEntry, EntryLayout.diffKey, hc]
    exact (bytesDiffBelowMaxKeyLength_spec b.lastKey key).1

attribute [local simp] typeMismatch in
/-- `add` in the case it does not panic: one more entry. -/
theorem add_eq_some (b : BlockBuilder) (k : FullKey) (value : List UInt8) {kType vType : LenType}
    (hk : LenType.new k.encodeWithoutTableId.length = some kType)
    (hv : LenType.new value.length = some vType) (hrc : b.restartCount ≠ 0) :
    b.add k value =
      let e := b.nextEntry k.encodeWithoutTableId value kType vType
      some { b with
        buf := b.buf ++ e.bytes
        restartPoints :=
          if e.restart then b.restartPoints ++ [UInt32.ofNat b.buf.length] else b.restartPoints
        restartPointsTypeIndex :=
          if e.typeChange then b.restartPointsTypeIndex ++ [e.restartPoint b.buf.length]
          else b.restartPointsTypeIndex
        lastKey := k.encodeWithoutTableId
        entryCount := b.entryCount + 1
        tableId := some (b.tableId.getD k.userKey.tableId) } := by
  have hdiff := b.nextEntry_diffKey k.encodeWithoutTableId value kType vType
  simp only [add, hk, hv, hrc, Option.bind_eq_bind, Option.bind_some, if_false, Option.pure_def,
    Option.some.injEq]
  congr 1
  · rw [EntryLayout.bytes, EntryLayout.keyPrefix, hdiff]
    simp only [nextEntry, typeMismatch, KeyPrefix.encode, KeyPrefix.newWithoutLen,
      List.append_assoc]
    rfl
  · cases b.tableId <;> rfl

attribute [local simp] RestartPoint.types in
theorem typeMismatch_eq_false {b : BlockBuilder} {kType vType : LenType}
    (h : b.typeMismatch kType vType = false) :
    ∃ last, b.restartPointsTypeIndex.getLast? = some last ∧ last.types = (kType, vType) := by
  unfold typeMismatch at h
  split at h
  · rename_i last hlast
    simp only [Bool.or_eq_false_iff, decide_eq_false_iff_not, not_not] at h
    exact ⟨last, hlast, by rw [RestartPoint.types, h.1, h.2]⟩
  · cases h

theorem nextEntry_valid (b : BlockBuilder) {key value : List UInt8} {kType vType : LenType}
    (hk : key.length < 256 ^ kType.len) (hv : value.length < 256 ^ vType.len) :
    (b.nextEntry key value kType vType).Valid where
  key_lt := hk
  value_lt := hv
  overlap_le := Nat.sub_le _ _
  overlap_eq_zero := by
    intro hr
    simp only [nextEntry] at hr ⊢
    simp [hr]
  restart_of_typeChange := by
    intro ht
    simp only [nextEntry] at ht ⊢
    simp [ht]

/-- The next entry follows the last one the builder holds. -/
theorem nextEntry_follows {b : BlockBuilder} {L : List EntryLayout} (h : b.Lays L)
    {p : EntryLayout} (hp : L.getLast? = some p) (key value : List UInt8) (kType vType : LenType) :
    p.Follows (b.nextEntry key value kType vType) where
  types_eq := by
    intro ht
    obtain ⟨last, hlast, htypes⟩ := typeMismatch_eq_false ht
    have hl := h.lastTypes_eq
    rw [hlast, hp] at hl
    simp only [Option.map_some, Option.some.injEq] at hl
    rw [hl] at htypes
    simp only [EntryLayout.types, Prod.mk.injEq] at htypes
    exact ⟨htypes.1.symm, htypes.2.symm⟩
  take_eq := by
    intro hr
    have hkey : b.lastKey = p.key := by simp [h.lastKey_eq, hp]
    simp only [nextEntry] at hr ⊢
    simp only [hr, Bool.false_eq_true, ↓reduceIte, ← hkey]
    exact (bytesDiffBelowMaxKeyLength_spec b.lastKey key).2.2

/-- `add` keeps the layout: the builder after it holds one more entry. -/
theorem Lays.addEntry {b : BlockBuilder} {L : List EntryLayout} (h : b.Lays L)
    {key value : List UInt8} {kType vType : LenType}
    (hk : key.length < 256 ^ kType.len) (hv : value.length < 256 ^ vType.len) (t : TableId) :
    let e := b.nextEntry key value kType vType
    BlockBuilder.Lays
      { b with
        buf := b.buf ++ e.bytes
        restartPoints :=
          if e.restart then b.restartPoints ++ [UInt32.ofNat b.buf.length] else b.restartPoints
        restartPointsTypeIndex :=
          if e.typeChange then b.restartPointsTypeIndex ++ [e.restartPoint b.buf.length]
          else b.restartPointsTypeIndex
        lastKey := key
        entryCount := b.entryCount + 1
        tableId := some t }
      (L ++ [e]) := by
  intro e
  have hpoints : ∀ p : EntryLayout → Bool, pointsFrom p 0 (L ++ [e]) =
      pointsFrom p 0 L ++ if p e then [e.restartPoint b.buf.length] else [] := by
    intro p
    simp [pointsFrom_append, pointsFrom_cons, h.buf_eq]
  refine ⟨by simp [h.buf_eq], ?_, ?_, by simp [e, nextEntry], by simp [h.entryCount_eq], ?_, ?_⟩
  · rw [hpoints, h.restartPoints_eq]
    cases e.restart <;> simp [EntryLayout.restartPoint]
  · rw [hpoints, h.typeIndex_eq]
    cases e.typeChange <;> simp
  · -- Without a type index entry the widths are those of the last entry, by `types_eq`.
    cases ht : e.typeChange
    · obtain ⟨last, hlast, htypes⟩ := typeMismatch_eq_false ht
      simp only [Bool.false_eq_true, ↓reduceIte, hlast, Option.map_some, List.getLast?_append,
        List.getLast?_singleton]
      simp only [htypes]
      rfl
    · simp [EntryLayout.restartPoint_types]
  · refine ⟨?_, ?_, ?_⟩
    · intro x hx
      rcases List.mem_append.mp hx with hx | hx
      · exact h.wf.valid x hx
      · rw [List.mem_singleton.mp hx]
        exact b.nextEntry_valid hk hv
    · refine h.wf.chain.append (List.isChain_singleton e) ?_
      intro p hp y hy
      rw [List.head?_singleton, Option.mem_some_iff] at hy
      rw [← hy]
      exact nextEntry_follows h hp key value kType vType
    · intro x hx
      cases L with
      | nil =>
        -- The first entry finds the type index empty.
        have hempty : b.restartPointsTypeIndex = [] := by simp [h.typeIndex_eq]
        simp only [List.nil_append, List.head?_singleton, Option.mem_some_iff] at hx
        rw [← hx]
        simp [e, nextEntry, typeMismatch, hempty]
      | cons f L => exact h.wf.head x (by simpa using hx)

/-- `add` of a key and a value that fit `u32` lengths adds their entry. -/
theorem add_lays {b : BlockBuilder} {L : List EntryLayout} (h : b.Lays L)
    (hrc : b.restartCount ≠ 0) (k : FullKey) (value : List UInt8)
    (hk : k.encodeWithoutTableId.length < 2 ^ 32) (hv : value.length < 2 ^ 32) :
    ∃ b' e, b.add k value = some b' ∧ b'.Lays (L ++ [e]) ∧ e.key = k.encodeWithoutTableId ∧
      e.value = value ∧ b'.restartCount = b.restartCount ∧
      b'.compressionAlgorithm = b.compressionAlgorithm ∧
      b'.tableId = some (b.tableId.getD k.userKey.tableId) := by
  obtain ⟨kType, hkt⟩ := LenType.exists_new_eq_some hk
  obtain ⟨vType, hvt⟩ := LenType.exists_new_eq_some hv
  exact ⟨_, _, b.add_eq_some k value hkt hvt hrc,
    h.addEntry (LenType.lt_of_new_eq_some hkt) (LenType.lt_of_new_eq_some hvt) _,
    rfl, rfl, rfl, rfl, rfl⟩

/-- A run of `add`s over keys of one table, with keys and values that fit
`u32` lengths, holds a layout of exactly those keys and values. -/
theorem foldlM_add_lays (kvs : List (FullKey × List UInt8)) {b : BlockBuilder}
    {L : List EntryLayout} (h : b.Lays L) (hrc : b.restartCount ≠ 0) (tid : TableId)
    (htid : ∀ kv ∈ kvs, kv.1.userKey.tableId = tid) (hb : b.tableId = none ∨ b.tableId = some tid)
    (hfit : ∀ kv ∈ kvs, kv.1.encodeWithoutTableId.length < 2 ^ 32 ∧ kv.2.length < 2 ^ 32) :
    ∃ b' L', kvs.foldlM (fun b kv => b.add kv.1 kv.2) b = some b' ∧ b'.Lays (L ++ L') ∧
      L'.map (fun e => (e.key, e.value)) =
        kvs.map (fun kv => (kv.1.encodeWithoutTableId, kv.2)) ∧
      b'.compressionAlgorithm = b.compressionAlgorithm ∧
      b'.tableId = if kvs = [] then b.tableId else some tid := by
  induction kvs generalizing b L with
  | nil => exact ⟨b, [], rfl, by simpa using h, rfl, rfl, by simp⟩
  | cons kv kvs ih =>
    have hkv := hfit kv List.mem_cons_self
    obtain ⟨b₁, e, hadd, h₁, hkey, hvalue, hrc₁, halg₁, htid₁⟩ :=
      add_lays h hrc kv.1 kv.2 hkv.1 hkv.2
    -- After the first `add` the builder has the table id of the first key.
    have hb₁ : b₁.tableId = some tid := by
      rw [htid₁, ← htid kv List.mem_cons_self]
      rcases hb with hb | hb <;> simp [hb, htid kv List.mem_cons_self]
    obtain ⟨b', L', hrun, h', hkvs, halg', htid'⟩ :=
      ih h₁ (hrc₁ ▸ hrc) (fun kv' hkv' => htid kv' (List.mem_cons_of_mem kv hkv')) (.inr hb₁)
        (fun kv' hkv' => hfit kv' (List.mem_cons_of_mem kv hkv'))
    refine ⟨b', e :: L', ?_, by simpa using h', ?_, halg'.trans halg₁, ?_⟩
    · rw [List.foldlM_cons, hadd]
      exact hrun
    · simp [hkey, hvalue, hkvs]
    · rw [htid', hb₁]
      simp

/-- An empty builder holds no entries. -/
theorem new_lays (options : BlockBuilderOptions) : (BlockBuilder.new options).Lays [] where
  buf_eq := rfl
  restartPoints_eq := rfl
  typeIndex_eq := rfl
  lastKey_eq := rfl
  entryCount_eq := rfl
  lastTypes_eq := rfl
  wf := ⟨by simp, List.IsChain.nil, by simp⟩

end BlockBuilder

/-! ## Decoding the restart points -/

attribute [local simp] assignLenTypes in
/-- A restart point before the next type index entry keeps the entry in force. -/
theorem assignLenTypes_stay {idx : List RestartPoint} {t : ℕ} {offset : UInt32}
    (rest : List UInt32) {rp : RestartPoint} (hrp : idx[t]? = some rp)
    (hnext : ∀ next ∈ idx[t + 1]?, offset < next.offset) :
    assignLenTypes idx t (offset :: rest) =
      (assignLenTypes idx t rest).map (⟨offset, rp.keyLenType, rp.valueLenType⟩ :: ·) := by
  have hne : idx ≠ [] := by rintro rfl; simp at hrp
  rw [assignLenTypes, if_neg hne]
  split
  · rename_i next hn
    rw [if_neg (fun h => absurd h.2 (not_le.mpr (hnext next hn)))]
    simp only [Option.bind_eq_bind, hrp, Option.bind_some]
    cases assignLenTypes idx t rest <;> rfl
  · simp only [Option.bind_eq_bind, hrp, Option.bind_some]
    cases assignLenTypes idx t rest <;> rfl

/-- A restart point at the next type index entry moves to it. -/
theorem assignLenTypes_advance {idx : List RestartPoint} {t : ℕ} {offset : UInt32}
    (rest : List UInt32) {next : RestartPoint} (hnext : idx[t + 1]? = some next)
    (hle : next.offset ≤ offset) :
    assignLenTypes idx t (offset :: rest) =
      (assignLenTypes idx (t + 1) rest).map (⟨offset, next.keyLenType, next.valueLenType⟩ :: ·) := by
  have hlt : t + 1 < idx.length := by
    by_contra h
    rw [List.getElem?_eq_none (by omega)] at hnext
    cases hnext
  have hne : idx ≠ [] := by rintro rfl; simp at hlt
  rw [assignLenTypes, if_neg hne]
  split
  · rename_i next' hn
    rw [hnext, Option.some.injEq] at hn
    subst hn
    rw [if_pos ⟨by omega, hle⟩]
    simp only [Option.bind_eq_bind, hnext, Option.bind_some]
    cases assignLenTypes idx (t + 1) rest <;> rfl
  · rename_i hn
    rw [hnext] at hn
    cases hn

/-- The loop of `decode_from_raw` over the restart points of the entries `L`
written from `offset`, with the type index entries `pre ++ [rp]` of the entries
before them: each restart point gets the widths of its own entry. The widths in
force are those of `rp` and of the entry `q` before `L`. -/
theorem assignLenTypes_pointsFrom (pre : List RestartPoint) (rp : RestartPoint) (q : EntryLayout)
    (hq : rp.types = q.types) (offset : ℕ) (L : List EntryLayout)
    (hchain : (q :: L).IsChain EntryLayout.Follows) (hvalid : ∀ e ∈ L, e.Valid)
    (hfits : offset + (layoutBytes L).length ≤ 2 ^ 32) :
    assignLenTypes (pre ++ rp :: pointsFrom EntryLayout.typeChange offset L) pre.length
        ((pointsFrom EntryLayout.restart offset L).map RestartPoint.offset) =
      some (pointsFrom EntryLayout.restart offset L) := by
  induction L generalizing pre rp q offset with
  | nil => rfl
  | cons e L ih =>
    have hfollow : q.Follows e := (List.isChain_cons_cons.mp hchain).1
    have htail : (e :: L).IsChain EntryLayout.Follows := (List.isChain_cons_cons.mp hchain).2
    have he := hvalid e List.mem_cons_self
    have hvalid' : ∀ f ∈ L, f.Valid := fun f hf => hvalid f (List.mem_cons_of_mem e hf)
    have hpos := e.two_le_bytes_length
    have hfits' : offset + e.bytes.length + (layoutBytes L).length ≤ 2 ^ 32 := by
      simp only [layoutBytes_cons, List.length_append] at hfits
      omega
    have hoffset : (UInt32.ofNat offset).toNat = offset := by
      rw [UInt32.toNat_ofNat', Nat.mod_eq_of_lt (by omega)]
    -- Every later type index entry lies past this entry.
    have hlater : ∀ next ∈ pointsFrom EntryLayout.typeChange (offset + e.bytes.length) L,
        UInt32.ofNat offset < next.offset := by
      intro next hn
      have := (offset_toNat_of_mem_pointsFrom hfits' hn).1
      rw [UInt32.lt_iff_toNat_lt, hoffset]
      omega
    cases hr : e.restart with
    | false =>
      -- No restart point and, by `restart_of_typeChange`, no type index entry.
      have ht : e.typeChange = false := by
        cases h : e.typeChange
        · rfl
        · simpa [hr] using he.restart_of_typeChange h
      have hq' : rp.types = e.types := by
        rw [hq, EntryLayout.types, EntryLayout.types, (hfollow.types_eq ht).1,
          (hfollow.types_eq ht).2]
      simp only [pointsFrom_cons, hr, ht, Bool.false_eq_true, ↓reduceIte, List.nil_append]
      exact ih pre rp e hq' (offset + e.bytes.length) htail hvalid' hfits'
    | true =>
      cases ht : e.typeChange with
      | false =>
        have hq' : rp.types = e.types := by
          rw [hq, EntryLayout.types, EntryLayout.types, (hfollow.types_eq ht).1,
            (hfollow.types_eq ht).2]
        simp only [pointsFrom_cons, ↓reduceIte, hr, ht, Bool.false_eq_true, List.nil_append,
          List.singleton_append, List.map_cons, EntryLayout.restartPoint_offset]
        set T := pointsFrom EntryLayout.typeChange (offset + e.bytes.length) L
        have hrp : (pre ++ rp :: T)[pre.length]? = some rp := by simp
        have hnext : ∀ next ∈ (pre ++ rp :: T)[pre.length + 1]?, UInt32.ofNat offset < next.offset := by
          intro next hn
          rw [List.getElem?_append_right (by omega), show pre.length + 1 - pre.length = 0 + 1 by omega,
            List.getElem?_cons_succ] at hn
          exact hlater next (List.mem_of_getElem? hn)
        rw [assignLenTypes_stay _ hrp hnext,
          ih pre rp e hq' (offset + e.bytes.length) htail hvalid' hfits']
        simp only [RestartPoint.types, EntryLayout.types, Prod.mk.injEq] at hq'
        simp [EntryLayout.restartPoint, hq'.1, hq'.2]
      | true =>
        simp only [pointsFrom_cons, ↓reduceIte, hr, ht, List.singleton_append, List.map_cons]
        rw [assignLenTypes_advance _ (by simp) le_rfl]
        have hidx : pre ++ rp :: e.restartPoint offset ::
            pointsFrom EntryLayout.typeChange (offset + e.bytes.length) L =
            (pre ++ [rp]) ++ e.restartPoint offset ::
              pointsFrom EntryLayout.typeChange (offset + e.bytes.length) L := by simp
        have hlen : pre.length + 1 = (pre ++ [rp]).length := by simp
        rw [hidx, hlen, ih (pre ++ [rp]) (e.restartPoint offset) e rfl (offset + e.bytes.length)
          htail hvalid' hfits']
        rfl

/-- The layout's restart points get the widths of their entries. -/
theorem assignLenTypes_layout {L : List EntryLayout} (hwf : LayoutWF L) (hne : L ≠ [])
    (hfits : (layoutBytes L).length ≤ 2 ^ 32) :
    assignLenTypes (pointsFrom EntryLayout.typeChange 0 L) 0
        ((pointsFrom EntryLayout.restart 0 L).map RestartPoint.offset) =
      some (pointsFrom EntryLayout.restart 0 L) := by
  obtain ⟨e, L', rfl⟩ := List.exists_cons_of_ne_nil hne
  -- The first entry starts the type index and so a restart point.
  have ht : e.typeChange = true := hwf.head e rfl
  have hr : e.restart = true := (hwf.valid e List.mem_cons_self).restart_of_typeChange ht
  have hpos := e.two_le_bytes_length
  have hfits' : 0 + e.bytes.length + (layoutBytes L').length ≤ 2 ^ 32 := by
    simp only [layoutBytes_cons, List.length_append] at hfits
    omega
  simp only [pointsFrom_cons, hr, ht, ↓reduceIte, List.singleton_append, List.map_cons,
    EntryLayout.restartPoint_offset]
  have hnext : ∀ next ∈ (e.restartPoint 0 ::
      pointsFrom EntryLayout.typeChange (0 + e.bytes.length) L')[0 + 1]?,
      UInt32.ofNat 0 < next.offset := by
    intro next hn
    rw [List.getElem?_cons_succ] at hn
    have := (offset_toNat_of_mem_pointsFrom hfits' (List.mem_of_getElem? hn)).1
    rw [UInt32.lt_iff_toNat_lt]
    simp only [UInt32.reduceOfNat, UInt32.toNat_zero]
    omega
  have hfirst : (e.restartPoint 0 ::
      pointsFrom EntryLayout.typeChange (0 + e.bytes.length) L')[0]? = some (e.restartPoint 0) :=
    rfl
  rw [assignLenTypes_stay _ hfirst hnext]
  have hL' := assignLenTypes_pointsFrom [] (e.restartPoint 0) e rfl (0 + e.bytes.length) L'
    hwf.chain (fun f hf => hwf.valid f (List.mem_cons_of_mem e hf)) hfits'
  rw [List.nil_append, List.length_nil] at hL'
  rw [hL']
  rfl

/-- The block `blk` holds the entries `L`: its entries are their bytes, and its
restart points theirs with their widths. -/
structure Block.Holds (blk : Block) (L : List EntryLayout) : Prop where
  dataLen_eq : blk.dataLen = (layoutBytes L).length
  data_take : blk.data.take blk.dataLen = layoutBytes L
  restartPoints_eq : blk.restartPoints = pointsFrom EntryLayout.restart 0 L

/-- `build` with no compression, then `Block::decode`, gives a block that holds
the builder's entries, when their offsets fit `u32`. -/
theorem BlockBuilder.decode_build {b : BlockBuilder} {L : List EntryLayout} (h : b.Lays L)
    (hne : L ≠ []) {tid : TableId} (htid : b.tableId = some tid)
    (halg : b.compressionAlgorithm = .none) (hfits : (layoutBytes L).length ≤ 2 ^ 32)
    (compress : CompressionAlgorithm → List UInt8 → List UInt8)
    (decompress : CompressionAlgorithm → List UInt8 → Except String (List UInt8))
    (xxhash64Checksum : List UInt8 → UInt64) :
    ∃ bytes blk, b.build compress xxhash64Checksum = some bytes ∧
      Block.decode decompress xxhash64Checksum bytes = some (.ok blk) ∧ blk.Holds L ∧
      blk.tableId = tid := by
  have hcount : b.entryCount ≠ 0 := by
    rw [h.entryCount_eq]
    exact fun h0 => hne (List.eq_nil_of_length_eq_zero h0)
  have hlen := two_mul_length_le L
  have hrp : b.restartPoints.length < 2 ^ 32 := by
    rw [h.restartPoints_eq, List.length_map, length_pointsFrom]
    have : L.countP EntryLayout.restart ≤ L.length := List.countP_le_length
    omega
  have hti : b.restartPointsTypeIndex.length < 2 ^ 32 := by
    rw [h.typeIndex_eq, length_pointsFrom]
    have : L.countP EntryLayout.typeChange ≤ L.length := List.countP_le_length
    omega
  set raw := b.buf ++ b.restartPoints.flatMap putU32Le ++
    putU32Le (UInt32.ofNat b.restartPoints.length) ++
    b.restartPointsTypeIndex.flatMap BlockBuilder.encodeTypeIndexEntry ++
    putU32Le (UInt32.ofNat b.restartPointsTypeIndex.length) ++ putU32Le tid with hraw
  have hbuild : b.build compress xxhash64Checksum =
      some (raw ++ putU8 CompressionAlgorithm.none.toU8 ++
        putU64Le (xxhash64Checksum (raw ++ putU8 CompressionAlgorithm.none.toU8))) := by
    simp only [BlockBuilder.build, hcount, htid, halg, if_false, hraw]
    rfl
  refine ⟨_, ⟨raw, b.buf.length, tid, pointsFrom EntryLayout.restart 0 L⟩, hbuild, ?_, ?_, rfl⟩
  · rw [Block.decode_none, hraw, decodeFromRaw_trailer _ _ _ _ hrp hti, h.typeIndex_eq,
      h.restartPoints_eq, assignLenTypes_layout h.wf hne hfits]
    rfl
  · refine ⟨by rw [h.buf_eq], ?_, rfl⟩
    simp [hraw, h.buf_eq]

end RisingWave.Hummock
