import Mathlib
import RisingWave.Lib.Stamp
import RisingWave.Common.VnodeMapping

/-!
# Row ids

`util/row_id.rs`. A `RowIdGenerator` makes the ids of the rows of a table without a primary
key: an `i64` of a millisecond timestamp shifted past bit 22, a vnode in bits 12 to 21 and a
sequence number in bits 0 to 11. In one timestamp the generator hands out ids to its vnodes
round-robin, the sequence number moving on each time the vnode index wraps; when all
`SEQUENCE_UPPER_BOUND` sequence numbers are used it spins until the clock moves past the
timestamp. The vnode index is not reset at a new timestamp.

The clock is the list of its readings, each call of `get_current_timestamp_ms` taking the
next one; a run that needs a reading when none is left is `none`, as is a panic. `base`, the
origin of the readings, is left out. A row id is its 64 bits.

Each id is made at a stamp, the timestamp followed by the number of ids the timestamp handed
out before it, and the stamps of a generator only grow (`runCalls_issues`). The shift by
`TIMESTAMP_SHIFT_BITS` keeps 42 bits of the timestamp; as long as each timestamp fits them
(`TimestampFits`), an id determines its stamp, and the ids of a run are distinct.
-/

namespace RisingWave.Common

open Stamp

/-- `TIMESTAMP_SHIFT_BITS`. -/
def TIMESTAMP_SHIFT_BITS : ℕ := 22

/-- `VNODE_ID_SHIFT_BITS`. -/
def VNODE_ID_SHIFT_BITS : ℕ := 12

/-- `SEQUENCE_UPPER_BOUND`: `1 << 12`. -/
def SEQUENCE_UPPER_BOUND : ℕ := 1 <<< 12

/-- `VNODE_ID_UPPER_BOUND`: `1 << 10`. -/
def VNODE_ID_UPPER_BOUND : ℕ := 1 <<< 10

/-- `RowId`: an `i64`, as its bits. -/
abbrev RowId := BitVec 64

/-- `extract_vnode_id_from_row_id`: the index that `VirtualNode::from_index` wraps; `none`
where the `assert!` fails. -/
def extractVnodeIdFromRowId (id : RowId) : Option ℕ :=
  let vnodeId := ((id.sshiftRight VNODE_ID_SHIFT_BITS &&&
    BitVec.ofNat 64 (VNODE_ID_UPPER_BOUND - 1)).setWidth 32).toNat
  if vnodeId < VNODE_ID_UPPER_BOUND then some vnodeId else none

/-- The id of `next_row_id_in_current_timestamp`: `last_timestamp_ms << TIMESTAMP_SHIFT_BITS
| (vnode << VNODE_ID_SHIFT_BITS) as i64 | sequence as i64`. -/
def composeRowId (timestampMs : ℤ) (vnode sequence : ℕ) : RowId :=
  BitVec.ofInt 64 timestampMs <<< TIMESTAMP_SHIFT_BITS |||
    BitVec.ofNat 64 (vnode <<< VNODE_ID_SHIFT_BITS) ||| BitVec.ofNat 64 sequence

/-- `RowIdGenerator`, without `base`; the `u16` fields as numbers. -/
structure RowIdGenerator where
  lastTimestampMs : ℤ
  vnodes : List VirtualNode
  vnodesIndex : ℕ
  sequence : ℕ

/-- The spin loop of `try_update_timestamp`: the first reading from `current` on that is past
`last`, and the readings after it; `none` when the readings end first. -/
def spinUntilAbove (last current : ℤ) (readings : List ℤ) : Option (ℤ × List ℤ) :=
  if current > last then some (current, readings)
  else
    match readings with
    | [] => none
    | next :: readings => spinUntilAbove last next readings

namespace RowIdGenerator

/-- `RowIdGenerator::new`, at the clock reading `now`. -/
def new (vnodes : List VirtualNode) (now : ℤ) : RowIdGenerator := ⟨now, vnodes, 0, 0⟩

/-- `try_update_timestamp`, reading the clock from `clock`. -/
def tryUpdateTimestamp (g : RowIdGenerator) : List ℤ → Option (RowIdGenerator × List ℤ)
  | [] => none
  | current :: clock =>
    let toUpdate := match compare current g.lastTimestampMs with
      | .lt => true
      | .eq => g.sequence == SEQUENCE_UPPER_BOUND
      | .gt => true
    if toUpdate then
      (spinUntilAbove g.lastTimestampMs current clock).map fun (current, clock) =>
        ({ g with lastTimestampMs := current, sequence := 0 }, clock)
    else some (g, clock)

/-- `next_row_id_in_current_timestamp`. The outer `none` is a panic: an index out of range,
or a remainder by zero when `len() as u16` is `0`. -/
def nextRowIdInCurrentTimestamp (g : RowIdGenerator) : Option (Option RowId × RowIdGenerator) :=
  if SEQUENCE_UPPER_BOUND ≤ g.sequence then some (none, g)
  else
    match g.vnodes[g.vnodesIndex]? with
    | none => none
    | some vnode =>
      let len := g.vnodes.length % 2 ^ 16
      if len = 0 then none
      else
        let vnodesIndex := (g.vnodesIndex + 1) % len
        some (some (composeRowId g.lastTimestampMs vnode.toIndex g.sequence),
          { g with
            vnodesIndex
            sequence := if vnodesIndex = 0 then g.sequence + 1 else g.sequence })

/-- One item of the iterator of `gen_iter`; `none` also for the panic of its `expect`. -/
def genIterNext (g : RowIdGenerator) (clock : List ℤ) :
    Option (RowId × RowIdGenerator × List ℤ) := do
  match ← g.nextRowIdInCurrentTimestamp with
  | (some next, g) => pure (next, g, clock)
  | (none, g) =>
    let (g, clock) ← g.tryUpdateTimestamp clock
    let (next, g) ← g.nextRowIdInCurrentTimestamp
    let next ← next
    pure (next, g, clock)

/-- The first `n` items of `gen_iter`. -/
def genIterTake : ℕ → RowIdGenerator → List ℤ → Option (List RowId × RowIdGenerator × List ℤ)
  | 0, g, clock => some ([], g, clock)
  | n + 1, g, clock => do
    let (next, g, clock) ← g.genIterNext clock
    let (rest, g, clock) ← genIterTake n g clock
    pure (next :: rest, g, clock)

/-- `next_batch`, with its `assert_eq!`. -/
def nextBatch (g : RowIdGenerator) (length : ℕ) (clock : List ℤ) :
    Option (List RowId × RowIdGenerator × List ℤ) := do
  let (g, clock) ← g.tryUpdateTimestamp clock
  let (ret, g, clock) ← genIterTake length g clock
  if ret.length = length then pure (ret, g, clock) else none

/-- `next`. -/
def next (g : RowIdGenerator) (clock : List ℤ) : Option (RowId × RowIdGenerator × List ℤ) := do
  let (g, clock) ← g.tryUpdateTimestamp clock
  g.genIterNext clock

/-- A call on a generator. -/
inductive Call
  | next
  | nextBatch (length : ℕ)
  deriving DecidableEq, Repr

/-- The ids of one call. -/
def Call.apply : Call → RowIdGenerator → List ℤ → Option (List RowId × RowIdGenerator × List ℤ)
  | .next, g, clock => (g.next clock).map fun (id, g, clock) => ([id], g, clock)
  | .nextBatch length, g, clock => g.nextBatch length clock

/-- The ids of a sequence of calls, one after the other on one generator and one clock. -/
def runCalls : List Call → RowIdGenerator → List ℤ →
    Option (List RowId × RowIdGenerator × List ℤ)
  | [], g, clock => some ([], g, clock)
  | c :: calls, g, clock => do
    let (ids, g, clock) ← c.apply g clock
    let (rest, g, clock) ← runCalls calls g clock
    pure (ids ++ rest, g, clock)

end RowIdGenerator

/-! ## The bits of a row id -/

/-- A timestamp that `<< TIMESTAMP_SHIFT_BITS` keeps whole in an `i64`. -/
def TimestampFits (ts : ℤ) : Prop := -2 ^ 41 ≤ ts ∧ ts < 2 ^ 41

instance TimestampFits.instDecidablePred : DecidablePred TimestampFits :=
  fun _ => inferInstanceAs (Decidable (_ ∧ _))

theorem VirtualNode.toIndex_injective : Function.Injective VirtualNode.toIndex := by
  rintro ⟨a, ha⟩ ⟨b, hb⟩ h
  have hab : a = b := UInt16.toNat_inj.mp h
  subst hab
  rfl

/-- A list of distinct vnodes has at most `VirtualNode::COUNT` of them. -/
theorem VirtualNode.length_le_COUNT {vnodes : List VirtualNode} (h : vnodes.Nodup) :
    vnodes.length ≤ VirtualNode.COUNT := by
  have hnodup : (vnodes.map VirtualNode.toIndex).Nodup := h.map VirtualNode.toIndex_injective
  have hsub : vnodes.map VirtualNode.toIndex ⊆ List.range VirtualNode.COUNT := by
    intro n hn
    obtain ⟨v, -, rfl⟩ := List.mem_map.mp hn
    exact List.mem_range.mpr v.toIndex_lt
  simpa using (hnodup.subperm hsub).length_le

/-- `VNODE_ID_UPPER_BOUND >= VirtualNode::COUNT`, the `const_assert!`. -/
theorem VirtualNode.toIndex_lt_upper (v : VirtualNode) : v.toIndex < VNODE_ID_UPPER_BOUND :=
  lt_of_lt_of_le v.toIndex_lt (by decide)

theorem toNat_composeRowId (ts : ℤ) {vnode sequence : ℕ} (hv : vnode < VNODE_ID_UPPER_BOUND)
    (hs : sequence < SEQUENCE_UPPER_BOUND) :
    (composeRowId ts vnode sequence).toNat =
      2 ^ 22 * (ts % 2 ^ 42).toNat + 2 ^ 12 * vnode + sequence := by
  simp only [VNODE_ID_UPPER_BOUND, SEQUENCE_UPPER_BOUND, Nat.one_shiftLeft] at hv hs
  have htime : (BitVec.ofInt 64 ts <<< TIMESTAMP_SHIFT_BITS).toNat =
      2 ^ 22 * (ts % 2 ^ 42).toNat := by
    rw [BitVec.toNat_shiftLeft, BitVec.toNat_ofInt, Nat.shiftLeft_eq, TIMESTAMP_SHIFT_BITS]
    omega
  have hvnode : (BitVec.ofNat 64 (vnode <<< VNODE_ID_SHIFT_BITS)).toNat = 2 ^ 12 * vnode := by
    rw [BitVec.toNat_ofNat, Nat.shiftLeft_eq, VNODE_ID_SHIFT_BITS]
    omega
  have hseq : (BitVec.ofNat 64 sequence).toNat = sequence := by
    rw [BitVec.toNat_ofNat]
    omega
  -- the three fields have no bit in common: the disjunctions are sums
  have hhigh := toNat_or_of_dvd_of_lt (k := 22) (x := BitVec.ofInt 64 ts <<< TIMESTAMP_SHIFT_BITS)
    (y := BitVec.ofNat 64 (vnode <<< VNODE_ID_SHIFT_BITS)) (by rw [htime]; omega)
    (by rw [hvnode]; omega)
  rw [composeRowId, toNat_or_of_dvd_of_lt (k := 12) (by rw [hhigh, htime, hvnode]; omega)
    (by rw [hseq]; omega), hhigh, htime, hvnode, hseq]


/-- `extract_vnode_id_from_row_id` reads the vnode back. -/
theorem extractVnodeIdFromRowId_composeRowId (ts : ℤ) {vnode sequence : ℕ}
    (hv : vnode < VNODE_ID_UPPER_BOUND) (hs : sequence < SEQUENCE_UPPER_BOUND) :
    extractVnodeIdFromRowId (composeRowId ts vnode sequence) = some vnode := by
  have hfield := toNat_sshiftRight_and (composeRowId ts vnode sequence)
    (show VNODE_ID_SHIFT_BITS + 10 < 64 by decide)
  have hmask : VNODE_ID_UPPER_BOUND - 1 = 2 ^ 10 - 1 := rfl
  rw [toNat_composeRowId ts hv hs] at hfield
  have hv' : vnode < 2 ^ 10 := hv
  have hs' : sequence < 2 ^ 12 := hs
  simp only [VNODE_ID_SHIFT_BITS] at hfield
  simp only [extractVnodeIdFromRowId, hmask, BitVec.toNat_setWidth, VNODE_ID_SHIFT_BITS, hfield]
  -- the field is the vnode, below the bound of the assertion
  have hvnode : (2 ^ 22 * (ts % 2 ^ 42).toNat + 2 ^ 12 * vnode + sequence) / 2 ^ 12 % 2 ^ 10 %
      2 ^ 32 = vnode := by omega
  rw [hvnode, if_pos hv]

/-- A row id whose timestamp fits determines its timestamp, vnode and sequence. -/
theorem composeRowId_inj {ts ts' : ℤ} {vnode vnode' sequence sequence' : ℕ}
    (hts : TimestampFits ts) (hts' : TimestampFits ts')
    (hv : vnode < VNODE_ID_UPPER_BOUND) (hv' : vnode' < VNODE_ID_UPPER_BOUND)
    (hs : sequence < SEQUENCE_UPPER_BOUND) (hs' : sequence' < SEQUENCE_UPPER_BOUND)
    (h : composeRowId ts vnode sequence = composeRowId ts' vnode' sequence') :
    ts = ts' ∧ vnode = vnode' ∧ sequence = sequence' := by
  have hnat := congrArg BitVec.toNat h
  rw [toNat_composeRowId ts hv hs, toNat_composeRowId ts' hv' hs'] at hnat
  simp only [TimestampFits, VNODE_ID_UPPER_BOUND, SEQUENCE_UPPER_BOUND, Nat.one_shiftLeft] at *
  omega


/-! ## One call -/

/-- The spin loop stops at a reading past `last`, and leaves the readings after it. -/
theorem spinUntilAbove_spec {last current t : ℤ} {readings rest : List ℤ}
    (h : spinUntilAbove last current readings = some (t, rest)) :
    last < t ∧ t ∈ current :: readings ∧ rest <:+ readings := by
  induction readings generalizing current with
  | nil =>
    unfold spinUntilAbove at h
    split_ifs at h with hlt
    cases h
    exact ⟨hlt, List.mem_singleton_self _, List.suffix_refl _⟩
  | cons next readings ih =>
    unfold spinUntilAbove at h
    split_ifs at h with hlt
    · cases h
      exact ⟨hlt, List.mem_cons_self, List.suffix_refl _⟩
    · -- a reading not past `last` is skipped
      obtain ⟨hlt', hmem, hsuf⟩ := ih h
      exact ⟨hlt', List.mem_cons_of_mem _ hmem, hsuf.trans (List.suffix_cons _ _)⟩

namespace RowIdGenerator

/-- What a generator over distinct vnodes keeps between calls: its vnode index is in range,
and its sequence number is at most `SEQUENCE_UPPER_BOUND`, reached only as the index wraps. -/
structure Inv (g : RowIdGenerator) : Prop where
  nodup : g.vnodes.Nodup
  index_lt : g.vnodesIndex < g.vnodes.length
  sequence_le : g.sequence ≤ SEQUENCE_UPPER_BOUND
  index_eq_zero : g.sequence = SEQUENCE_UPPER_BOUND → g.vnodesIndex = 0

/-- The number of ids the current timestamp has handed out: `sequence` rounds of the vnodes,
and `vnodesIndex` more. -/
def counter (g : RowIdGenerator) : ℕ := g.sequence * g.vnodes.length + g.vnodesIndex

/-- The stamp of the next id: the timestamp, then the counter, which stays at most
`SEQUENCE_UPPER_BOUND * VirtualNode.COUNT = 2 ^ 20` (`counter_le`). -/
def stamp (g : RowIdGenerator) : ℤ := g.lastTimestampMs * 2 ^ 20 + g.counter

theorem inv_new {vnodes : List VirtualNode} (hne : vnodes ≠ []) (hnodup : vnodes.Nodup)
    (now : ℤ) : Inv (new vnodes now) where
  nodup := hnodup
  index_lt := List.length_pos_iff.mpr hne
  sequence_le := Nat.zero_le _
  index_eq_zero h := by simp [new, SEQUENCE_UPPER_BOUND] at h

theorem Inv.length_le {g : RowIdGenerator} (hg : Inv g) : g.vnodes.length ≤ 2 ^ 8 :=
  VirtualNode.length_le_COUNT hg.nodup

theorem Inv.counter_le {g : RowIdGenerator} (hg : Inv g) : g.counter ≤ 2 ^ 20 := by
  have hlen := hg.length_le
  have hidx := hg.index_lt
  have hseq : g.sequence ≤ 2 ^ 12 := hg.sequence_le
  rw [counter]
  rcases Nat.lt_or_eq_of_le hseq with hlt | heq
  · -- a sequence below the bound leaves room for a whole round of the vnodes
    have hround : g.sequence * g.vnodes.length ≤ (2 ^ 12 - 1) * g.vnodes.length :=
      Nat.mul_le_mul_right _ (by omega)
    omega
  · have hzero := hg.index_eq_zero heq
    rw [heq, hzero]
    have hround : 2 ^ 12 * g.vnodes.length ≤ 2 ^ 12 * 2 ^ 8 := Nat.mul_le_mul_left _ hlen
    omega

variable {g g' : RowIdGenerator} {clock clock' : List ℤ}

/-- `try_update_timestamp` either keeps the generator, which it does only while sequence numbers
are left, or moves it to a reading past its timestamp with the sequence reset. -/
theorem tryUpdateTimestamp_cases (h : g.tryUpdateTimestamp clock = some (g', clock')) :
    clock' <:+ clock ∧
      ((g' = g ∧ g.sequence ≠ SEQUENCE_UPPER_BOUND) ∨
        ∃ t ∈ clock, g.lastTimestampMs < t ∧
          g' = { g with lastTimestampMs := t, sequence := 0 }) := by
  cases clock with
  | nil => simp [tryUpdateTimestamp] at h
  | cons current clock =>
    simp only [tryUpdateTimestamp] at h
    split_ifs at h with hupdate
    · obtain ⟨⟨t, rest⟩, hspin, heq⟩ := Option.map_eq_some_iff.mp h
      obtain ⟨hlt, hmem, hsuf⟩ := spinUntilAbove_spec hspin
      cases heq
      exact ⟨hsuf.trans (List.suffix_cons _ _), .inr ⟨t, hmem, hlt, rfl⟩⟩
    · cases h
      refine ⟨List.suffix_cons _ _, .inl ⟨rfl, fun hs => hupdate ?_⟩⟩
      -- with the sequence used up every comparison updates
      split <;> simp [hs]

theorem nextRowIdInCurrentTimestamp_of_le (h : SEQUENCE_UPPER_BOUND ≤ g.sequence) :
    g.nextRowIdInCurrentTimestamp = some (none, g) := if_pos h

/-- While sequence numbers are left, the generator hands out the id of its timestamp, vnode
and sequence, and its counter moves on by one. -/
theorem nextRowIdInCurrentTimestamp_of_lt (hg : Inv g) (hs : g.sequence < SEQUENCE_UPPER_BOUND) :
    ∃ g', g.nextRowIdInCurrentTimestamp = some (some (composeRowId g.lastTimestampMs
        (g.vnodes.get ⟨g.vnodesIndex, hg.index_lt⟩).toIndex g.sequence), g') ∧
      Inv g' ∧ g'.vnodes = g.vnodes ∧ g'.lastTimestampMs = g.lastTimestampMs ∧
      g'.counter = g.counter + 1 := by
  have hlen := hg.length_le
  have hidx := hg.index_lt
  -- `len() as u16` is the length: at most `VirtualNode::COUNT` distinct vnodes
  have hlen16 : g.vnodes.length % 2 ^ 16 = g.vnodes.length := Nat.mod_eq_of_lt (by omega)
  simp only [nextRowIdInCurrentTimestamp, if_neg (Nat.not_le.mpr hs),
    List.getElem?_eq_getElem hidx, hlen16, if_neg (show g.vnodes.length ≠ 0 by omega)]
  refine ⟨_, rfl, ?_, rfl, rfl, ?_⟩
  · refine ⟨hg.nodup, Nat.mod_lt _ (by omega), ?_, ?_⟩
    · split_ifs <;> simp only [SEQUENCE_UPPER_BOUND] at hs ⊢ <;> omega
    · split_ifs with hwrap
      · intro
        exact hwrap
      · intro heq
        exact absurd heq (Nat.ne_of_lt hs)
  · -- the index wraps exactly when it was the last, and then the sequence moves on
    simp only [counter]
    by_cases hwrap : g.vnodesIndex + 1 = g.vnodes.length
    · rw [hwrap, Nat.mod_self, if_pos rfl, Nat.succ_mul]
      omega
    · rw [Nat.mod_eq_of_lt (by omega), if_neg (by omega)]
      omega

/-! ## Runs -/

/-- `id` is the id a generator over `vnodes` makes at stamp `σ`, at a timestamp that satisfies
`P`: for the vnode at index `i` and sequence `s` of that timestamp. -/
def IssuedAt (P : ℤ → Prop) (vnodes : List VirtualNode) (σ : ℤ) (id : RowId) : Prop :=
  ∃ ts s i, ∃ hi : i < vnodes.length, P ts ∧ s < SEQUENCE_UPPER_BOUND ∧
    id = composeRowId ts vnodes[i].toIndex s ∧ σ = ts * 2 ^ 20 + (s * vnodes.length + i)

/-- A run from `g` to `g'` that handed out `ids`: the generator keeps its invariant, its vnodes
and a timestamp that satisfies `P`, and `ids` were made at increasing stamps from `g.stamp` on,
all below `g'.stamp`. -/
structure Issues (P : ℤ → Prop) (g : RowIdGenerator) (ids : List RowId) (g' : RowIdGenerator) :
    Prop where
  inv : Inv g'
  vnodes : g'.vnodes = g.vnodes
  last : P g'.lastTimestampMs
  stamp_le : g.stamp ≤ g'.stamp
  between : Between (IssuedAt P g.vnodes) g.stamp g'.stamp ids

variable {P : ℤ → Prop} {ids ids' : List RowId} {g₁ : RowIdGenerator}

theorem Issues.refl (hg : Inv g) (hP : P g.lastTimestampMs) : Issues P g [] g :=
  ⟨hg, rfl, hP, le_rfl, Between.nil _ _⟩

theorem Issues.trans (h₁ : Issues P g ids g₁) (h₂ : Issues P g₁ ids' g') :
    Issues P g (ids ++ ids') g' where
  inv := h₂.inv
  vnodes := h₂.vnodes.trans h₁.vnodes
  last := h₂.last
  stamp_le := h₁.stamp_le.trans h₂.stamp_le
  between := h₁.between.append (h₁.vnodes ▸ h₂.between) h₁.stamp_le h₂.stamp_le

/-- `try_update_timestamp` hands out nothing and moves the stamp only forward. -/
theorem tryUpdateTimestamp_issues (hg : Inv g) (hP : P g.lastTimestampMs)
    (hclock : ∀ r ∈ clock, P r) (h : g.tryUpdateTimestamp clock = some (g', clock')) :
    Issues P g [] g' := by
  obtain ⟨-, ⟨rfl, -⟩ | ⟨t, hmem, hlt, rfl⟩⟩ := tryUpdateTimestamp_cases h
  · exact Issues.refl hg hP
  · -- the new timestamp is past the old one, and the counter was at most `2 ^ 20`
    have hcounter := hg.counter_le
    refine ⟨⟨hg.nodup, hg.index_lt, Nat.zero_le _, fun h0 => by simp [SEQUENCE_UPPER_BOUND] at h0⟩,
      rfl, hclock t hmem, ?_, Between.nil _ _⟩
    simp only [stamp, counter, Nat.zero_mul, Nat.zero_add] at hcounter ⊢
    have hidx : (g.vnodesIndex : ℤ) ≥ 0 := by omega
    have : g.lastTimestampMs * 2 ^ 20 + 2 ^ 20 ≤ t * 2 ^ 20 := by nlinarith
    push_cast
    omega

/-- An id handed out at the current stamp. -/
theorem nextRowIdInCurrentTimestamp_issues (hg : Inv g) (hP : P g.lastTimestampMs)
    (hs : g.sequence < SEQUENCE_UPPER_BOUND) :
    ∃ g', g.nextRowIdInCurrentTimestamp = some (some (composeRowId g.lastTimestampMs
        (g.vnodes.get ⟨g.vnodesIndex, hg.index_lt⟩).toIndex g.sequence), g') ∧
      Issues P g [composeRowId g.lastTimestampMs
        (g.vnodes.get ⟨g.vnodesIndex, hg.index_lt⟩).toIndex g.sequence] g' := by
  obtain ⟨g', heq, hg', hvnodes, hlast, hcounter⟩ := nextRowIdInCurrentTimestamp_of_lt hg hs
  have hstamp : g'.stamp = g.stamp + 1 := by
    simp only [stamp, hlast, hcounter]
    push_cast
    ring
  refine ⟨g', heq, hg', hvnodes, hlast ▸ hP, by omega, Between.singleton ?_ le_rfl (by omega)⟩
  exact ⟨g.lastTimestampMs, g.sequence, g.vnodesIndex, hg.index_lt, hP, hs, rfl, rfl⟩

/-- One item of `gen_iter`: the next id of the timestamp, or, with the sequence used up, the
first id of a later timestamp. -/
theorem genIterNext_issues {id : RowId} (hg : Inv g) (hP : P g.lastTimestampMs)
    (hclock : ∀ r ∈ clock, P r) (h : g.genIterNext clock = some (id, g', clock')) :
    Issues P g [id] g' ∧ clock' <:+ clock := by
  by_cases hs : g.sequence < SEQUENCE_UPPER_BOUND
  · obtain ⟨g₁, heq, hissues⟩ := nextRowIdInCurrentTimestamp_issues hg hP hs
    simp [genIterNext, heq] at h
    obtain ⟨rfl, rfl, rfl⟩ := h
    exact ⟨hissues, List.suffix_refl _⟩
  · -- the sequence is used up: `try_update_timestamp` must move to a later timestamp
    have hfull : g.sequence = SEQUENCE_UPPER_BOUND := by have := hg.sequence_le; omega
    simp [genIterNext, nextRowIdInCurrentTimestamp_of_le hfull.ge] at h
    obtain ⟨⟨g₁, clock₁⟩, htu, h⟩ := Option.bind_eq_some_iff.mp h
    have hupdate := tryUpdateTimestamp_issues hg hP hclock htu
    obtain ⟨hsuf, ⟨-, hne⟩ | ⟨t, -, -, rfl⟩⟩ := tryUpdateTimestamp_cases htu
    · exact absurd hfull hne
    obtain ⟨g₂, heq, hissues⟩ := nextRowIdInCurrentTimestamp_issues hupdate.inv hupdate.last
      (show 0 < SEQUENCE_UPPER_BOUND by decide)
    simp [heq] at h
    obtain ⟨rfl, rfl, rfl⟩ := h
    exact ⟨hupdate.trans hissues, hsuf⟩

/-- `take(n)` of `gen_iter` hands out `n` ids at increasing stamps. -/
theorem genIterTake_issues (n : ℕ) (hg : Inv g) (hP : P g.lastTimestampMs)
    (hclock : ∀ r ∈ clock, P r) (h : genIterTake n g clock = some (ids, g', clock')) :
    Issues P g ids g' ∧ clock' <:+ clock ∧ ids.length = n := by
  induction n generalizing g clock ids with
  | zero =>
    simp only [genIterTake, Option.some.injEq, Prod.mk.injEq] at h
    obtain ⟨rfl, rfl, rfl⟩ := h
    exact ⟨Issues.refl hg hP, List.suffix_refl _, rfl⟩
  | succ n ih =>
    simp only [genIterTake, Option.bind_eq_bind, Option.pure_def] at h
    obtain ⟨⟨id, g₁, clock₁⟩, hnext, h⟩ := Option.bind_eq_some_iff.mp h
    obtain ⟨⟨rest, g₂, clock₂⟩, htake, h⟩ := Option.bind_eq_some_iff.mp h
    simp only [Option.some.injEq, Prod.mk.injEq] at h
    obtain ⟨rfl, rfl, rfl⟩ := h
    obtain ⟨hfirst, hsuf₁⟩ := genIterNext_issues hg hP hclock hnext
    obtain ⟨hrest, hsuf₂, hlen⟩ := ih hfirst.inv hfirst.last
      (fun r hr => hclock r (hsuf₁.subset hr)) htake
    exact ⟨hfirst.trans hrest, hsuf₂.trans hsuf₁, by simp [hlen]⟩

theorem nextBatch_issues {length : ℕ} (hg : Inv g) (hP : P g.lastTimestampMs)
    (hclock : ∀ r ∈ clock, P r) (h : g.nextBatch length clock = some (ids, g', clock')) :
    Issues P g ids g' ∧ clock' <:+ clock := by
  obtain ⟨⟨g₁, clock₁⟩, htu, h⟩ := Option.bind_eq_some_iff.mp h
  obtain ⟨⟨ret, g₂, clock₂⟩, htake, h⟩ := Option.bind_eq_some_iff.mp h
  have hupdate := tryUpdateTimestamp_issues hg hP hclock htu
  have hsuf₁ := (tryUpdateTimestamp_cases htu).1
  obtain ⟨hissues, hsuf₂, -⟩ := genIterTake_issues length hupdate.inv hupdate.last
    (fun r hr => hclock r (hsuf₁.subset hr)) htake
  -- the `assert_eq!` holds, and the batch is what `take` gave
  dsimp only at h
  split_ifs at h
  simp only [pure, Option.some.injEq, Prod.mk.injEq] at h
  obtain ⟨rfl, rfl, rfl⟩ := h
  exact ⟨hupdate.trans hissues, hsuf₂.trans hsuf₁⟩

theorem next_issues {id : RowId} (hg : Inv g) (hP : P g.lastTimestampMs)
    (hclock : ∀ r ∈ clock, P r) (h : g.next clock = some (id, g', clock')) :
    Issues P g [id] g' ∧ clock' <:+ clock := by
  obtain ⟨⟨g₁, clock₁⟩, htu, h⟩ := Option.bind_eq_some_iff.mp h
  have hupdate := tryUpdateTimestamp_issues hg hP hclock htu
  have hsuf₁ := (tryUpdateTimestamp_cases htu).1
  obtain ⟨hissues, hsuf₂⟩ := genIterNext_issues hupdate.inv hupdate.last
    (fun r hr => hclock r (hsuf₁.subset hr)) h
  exact ⟨hupdate.trans hissues, hsuf₂.trans hsuf₁⟩

theorem Call.apply_issues (c : Call) (hg : Inv g) (hP : P g.lastTimestampMs)
    (hclock : ∀ r ∈ clock, P r) (h : c.apply g clock = some (ids, g', clock')) :
    Issues P g ids g' ∧ clock' <:+ clock := by
  cases c with
  | next =>
    obtain ⟨⟨id, g₁, clock₁⟩, hnext, heq⟩ := Option.map_eq_some_iff.mp h
    cases heq
    exact next_issues hg hP hclock hnext
  | nextBatch length => exact nextBatch_issues hg hP hclock h

/-- Over a whole sequence of calls the ids keep their increasing stamps. -/
theorem runCalls_issues (calls : List Call) (hg : Inv g) (hP : P g.lastTimestampMs)
    (hclock : ∀ r ∈ clock, P r) (h : runCalls calls g clock = some (ids, g', clock')) :
    Issues P g ids g' ∧ clock' <:+ clock := by
  induction calls generalizing g clock ids with
  | nil =>
    simp only [runCalls, Option.some.injEq, Prod.mk.injEq] at h
    obtain ⟨rfl, rfl, rfl⟩ := h
    exact ⟨Issues.refl hg hP, List.suffix_refl _⟩
  | cons c calls ih =>
    obtain ⟨⟨first, g₁, clock₁⟩, hcall, h⟩ := Option.bind_eq_some_iff.mp h
    obtain ⟨⟨rest, g₂, clock₂⟩, hrun, h⟩ := Option.bind_eq_some_iff.mp h
    simp only [pure, Option.some.injEq, Prod.mk.injEq] at h
    obtain ⟨rfl, rfl, rfl⟩ := h
    obtain ⟨hfirst, hsuf₁⟩ := c.apply_issues hg hP hclock hcall
    obtain ⟨hrest, hsuf₂⟩ := ih hfirst.inv hfirst.last
      (fun r hr => hclock r (hsuf₁.subset hr)) hrun
    exact ⟨hfirst.trans hrest, hsuf₂.trans hsuf₁⟩

/-! ## What an id tells -/

section IssuedAt

variable {vnodes vnodes' : List VirtualNode} {σ σ' : ℤ} {id : RowId}

/-- An id carries the vnode it was made for, which `extract_vnode_id_from_row_id` reads back. -/
theorem IssuedAt.extract (h : IssuedAt P vnodes σ id) :
    ∃ v ∈ vnodes, ∃ ts s, s < SEQUENCE_UPPER_BOUND ∧ id = composeRowId ts v.toIndex s ∧
      extractVnodeIdFromRowId id = some v.toIndex := by
  obtain ⟨ts, s, i, hi, -, hs, rfl, -⟩ := h
  exact ⟨vnodes[i], List.getElem_mem hi, ts, s, hs, rfl,
    extractVnodeIdFromRowId_composeRowId ts (VirtualNode.toIndex_lt_upper _) hs⟩

/-- Ids of two generators are equal only when the generators share the vnode. -/
theorem IssuedAt.common_vnode {P' : ℤ → Prop} (h : IssuedAt P vnodes σ id)
    (h' : IssuedAt P' vnodes' σ' id) : ∃ v ∈ vnodes, v ∈ vnodes' := by
  obtain ⟨v, hv, -, -, -, -, hextract⟩ := h.extract
  obtain ⟨v', hv', -, -, -, -, hextract'⟩ := h'.extract
  have heq : v = v' :=
    VirtualNode.toIndex_injective (Option.some.inj (hextract.symm.trans hextract'))
  exact ⟨v, hv, heq ▸ hv'⟩

/-- With timestamps that fit, an id of a generator over distinct vnodes has one stamp. -/
theorem IssuedAt.stamp_eq (hnodup : vnodes.Nodup) (h : IssuedAt TimestampFits vnodes σ id)
    (h' : IssuedAt TimestampFits vnodes σ' id) : σ = σ' := by
  obtain ⟨ts, s, i, hi, hts, hs, rfl, rfl⟩ := h
  obtain ⟨ts', s', i', hi', hts', hs', heq, rfl⟩ := h'
  obtain ⟨rfl, hvnode, rfl⟩ := composeRowId_inj hts hts' (VirtualNode.toIndex_lt_upper _)
    (VirtualNode.toIndex_lt_upper _) hs hs' heq
  -- one vnode sits at one index of a duplicate-free list
  have hidx : i = i' := (hnodup.getElem_inj_iff).mp (VirtualNode.toIndex_injective hvnode)
  subst hidx
  rfl

end IssuedAt

end RowIdGenerator

end RisingWave.Common
