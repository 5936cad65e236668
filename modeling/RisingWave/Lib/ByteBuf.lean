import RisingWave.Lib.ByteCodec

/-!
# Reading and writing byte buffers

A writer appends the bytes of a value; a reader takes a value from the front of
a buffer, and fails (a panic of the reader it models) when the buffer runs
short. A reader is a state over the bytes left, so readers of records are
written as sequences of field reads.

`ReadsBack r enc P` is the round trip: `r` gives back every value satisfying
`P` from what `enc` wrote, in front of any suffix. The fixed-width integers,
byte strings of a known length and counted loops have it, and records then get
it by reading their fields in the order they were written.
-/

namespace ByteBuf

open ByteCodec

/-- A reader of a byte buffer: the value read and the bytes left, `none` on a panic. -/
abbrev Reader (α : Type) := StateT (List UInt8) Option α

/-- The first `n` bytes, moving past them; panics on a shorter buffer. -/
def take (n : ℕ) : Reader (List UInt8) := fun buf =>
  if n ≤ buf.length then some (buf.take n, buf.drop n) else none

/-- `get_u8`. -/
def getU8 : Reader UInt8 := do
  let bs ← take 1
  pure (UInt8.ofNat (decodeLE bs))

/-- `get_u32`: four bytes, big-endian. -/
def getU32 : Reader UInt32 := do
  let bs ← take 4
  pure (UInt32.ofNat (decodeBE bs))

/-- `get_u32_le`. -/
def getU32Le : Reader UInt32 := do
  let bs ← take 4
  pure (UInt32.ofNat (decodeLE bs))

/-- `get_u16_le`. -/
def getU16Le : Reader UInt16 := do
  let bs ← take 2
  pure (UInt16.ofNat (decodeLE bs))

/-- `get_u64_le`. -/
def getU64Le : Reader UInt64 := do
  let bs ← take 8
  pure (UInt64.ofNat (decodeLE bs))

/-- `put_u8`. -/
def putU8 (x : UInt8) : List UInt8 := [x]

/-- `put_u32`: four bytes, big-endian. -/
def putU32 (x : UInt32) : List UInt8 := encodeBE 4 x.toNat

/-- `put_u32_le`. -/
def putU32Le (x : UInt32) : List UInt8 := encodeLE 4 x.toNat

/-- `put_u16_le`. -/
def putU16Le (x : UInt16) : List UInt8 := encodeLE 2 x.toNat

/-- `put_u64_le`. -/
def putU64Le (x : UInt64) : List UInt8 := encodeLE 8 x.toNat

/-- `&v[start..stop]`; panics unless `start ≤ stop ≤ v.len()`. -/
def slice (v : List UInt8) (start stop : ℕ) : Option (List UInt8) :=
  if start ≤ stop ∧ stop ≤ v.length then some ((v.drop start).take (stop - start)) else none

/-- `&v[start..]`; panics unless `start ≤ v.len()`. -/
def sliceFrom (v : List UInt8) (start : ℕ) : Option (List UInt8) :=
  if start ≤ v.length then some (v.drop start) else none

/-- `for _ in 0..n { v.push(r) }`. -/
def readMany {α : Type} (r : Reader α) : ℕ → Reader (List α)
  | 0 => pure []
  | n + 1 => do
    let a ← r
    let rest ← readMany r n
    pure (a :: rest)

@[simp] theorem putU8_length (x : UInt8) : (putU8 x).length = 1 := rfl

attribute [local simp] putU8 in
/-- `put_slice` of bytes writes them as they are. -/
@[simp] theorem flatMap_putU8 (l : List UInt8) : l.flatMap putU8 = l := by
  induction l with
  | nil => rfl
  | cons a l ih => simp [putU8, ih]

attribute [local simp] putU32 in
@[simp] theorem putU32_length (x : UInt32) : (putU32 x).length = 4 := by simp [putU32]

attribute [local simp] putU32Le in
@[simp] theorem putU32Le_length (x : UInt32) : (putU32Le x).length = 4 := by simp [putU32Le]

attribute [local simp] putU16Le in
@[simp] theorem putU16Le_length (x : UInt16) : (putU16Le x).length = 2 := by simp [putU16Le]

attribute [local simp] putU64Le in
@[simp] theorem putU64Le_length (x : UInt64) : (putU64Le x).length = 8 := by simp [putU64Le]

/-! ## Round trips -/

/-- `r` reads back, in front of any suffix, every value satisfying `P` that `enc` writes. -/
def ReadsBack {α : Type} (r : Reader α) (enc : α → List UInt8) (P : α → Prop) : Prop :=
  ∀ a, P a → ∀ s, r.run (enc a ++ s) = some (a, s)

/-- A read that succeeds passes its value and the bytes left on to the next. -/
theorem run_bind_of_run {α β : Type} {r : Reader α} {f : α → Reader β} {s s' : List UInt8}
    {a : α} (h : r.run s = some (a, s')) : (r >>= f).run s = (f a).run s' := by
  simp [StateT.run_bind, h]

theorem take_run (l s : List UInt8) : (take l.length).run (l ++ s) = some (l, s) := by
  simp [take, StateT.run]

theorem take_run_of_le {n : ℕ} {buf : List UInt8} (h : n ≤ buf.length) :
    (take n).run buf = some (buf.take n, buf.drop n) := if_pos h

theorem take_run_of_length {n : ℕ} {l : List UInt8} (h : l.length = n) (s : List UInt8) :
    (take n).run (l ++ s) = some (l, s) := by
  subst h
  exact take_run l s

attribute [local simp] decodeLE in
@[simp] theorem getU8_run (x : UInt8) (s : List UInt8) : getU8.run (putU8 x ++ s) = some (x, s) := by
  simp only [getU8, StateT.run_bind, take_run_of_length (putU8_length x)]
  simp [putU8, decodeLE, decodeBE]

@[simp] theorem getU32_run (x : UInt32) (s : List UInt8) :
    getU32.run (putU32 x ++ s) = some (x, s) := by
  simp only [getU32, StateT.run_bind, take_run_of_length (putU32_length x)]
  simp [putU32, decodeBE_encodeBE]

@[simp] theorem getU32Le_run (x : UInt32) (s : List UInt8) :
    getU32Le.run (putU32Le x ++ s) = some (x, s) := by
  simp only [getU32Le, StateT.run_bind, take_run_of_length (putU32Le_length x)]
  simp [putU32Le, decodeLE_encodeLE]

@[simp] theorem getU16Le_run (x : UInt16) (s : List UInt8) :
    getU16Le.run (putU16Le x ++ s) = some (x, s) := by
  simp only [getU16Le, StateT.run_bind, take_run_of_length (putU16Le_length x)]
  simp [putU16Le, decodeLE_encodeLE]

@[simp] theorem getU64Le_run (x : UInt64) (s : List UInt8) :
    getU64Le.run (putU64Le x ++ s) = some (x, s) := by
  simp only [getU64Le, StateT.run_bind, take_run_of_length (putU64Le_length x)]
  simp [putU64Le, decodeLE_encodeLE]

attribute [local simp] readMany in
/-- A counted loop reads back a list written element by element. -/
theorem readMany_run {α : Type} {r : Reader α} {enc : α → List UInt8} {P : α → Prop}
    (h : ReadsBack r enc P) (l : List α) (hl : ∀ a ∈ l, P a) (s : List UInt8) :
    (readMany r l.length).run (l.flatMap enc ++ s) = some (l, s) := by
  induction l with
  | nil => rfl
  | cons a l ih =>
    have ha := h a (hl a List.mem_cons_self) (l.flatMap enc ++ s)
    have hrest := ih fun b hb => hl b (List.mem_cons_of_mem a hb)
    simp [readMany, List.append_assoc, ha, hrest]

/-- A `u32` written from a length reads back as that length, when it fits. -/
theorem toNat_ofNat_length {α : Type} {l : List α} (h : l.length < 2 ^ 32) :
    (UInt32.ofNat l.length).toNat = l.length := by
  rw [UInt32.toNat_ofNat', Nat.mod_eq_of_lt h]

/-- Every buffer of at least `n` bytes is some `n` bytes in front of the rest. -/
theorem exists_append_of_le_length {n : ℕ} {buf : List UInt8} (h : n ≤ buf.length) :
    ∃ l s, l.length = n ∧ buf = l ++ s :=
  ⟨buf.take n, buf.drop n, List.length_take_of_le h, (List.take_append_drop n buf).symm⟩

/-- Every four bytes are the little-endian encoding of a `u32`. -/
theorem putU32Le_surjective {l : List UInt8} (h : l.length = 4) : ∃ x, putU32Le x = l := by
  refine ⟨UInt32.ofNat (decodeLE l), ?_⟩
  have hlt : decodeLE l < 2 ^ 32 := by
    have := decodeBE_lt l.reverse
    rw [List.length_reverse, h] at this
    simpa [decodeLE] using this
  have hl := encodeLE_decodeLE l
  rw [h] at hl
  rw [putU32Le, UInt32.toNat_ofNat', Nat.mod_eq_of_lt hlt, hl]

/-- Every eight bytes are the little-endian encoding of a `u64`. -/
theorem putU64Le_surjective {l : List UInt8} (h : l.length = 8) : ∃ x, putU64Le x = l := by
  refine ⟨UInt64.ofNat (decodeLE l), ?_⟩
  have hlt : decodeLE l < 2 ^ 64 := by
    have := decodeBE_lt l.reverse
    rw [List.length_reverse, h] at this
    simpa [decodeLE] using this
  have hl := encodeLE_decodeLE l
  rw [h] at hl
  rw [putU64Le, UInt64.toNat_ofNat', Nat.mod_eq_of_lt hlt, hl]

/-! ## Readers that may fail with an error -/

/-- A reader that may also fail with an error of `ε`; a panic is still `none`. -/
abbrev ReaderE (ε α : Type) := ExceptT ε Reader α

namespace ReaderE

variable {ε α β : Type}

/-- `for _ in 0..n { v.push(r?) }`. -/
def readMany (r : ReaderE ε α) : ℕ → ReaderE ε (List α)
  | 0 => pure []
  | n + 1 => do
    let a ← r
    let rest ← readMany r n
    pure (a :: rest)

/-- `r` reads back, in front of any suffix, every value satisfying `P` that `enc` writes. -/
def ReadsBack (r : ReaderE ε α) (enc : α → List UInt8) (P : α → Prop) : Prop :=
  ∀ a, P a → ∀ s, r.run.run (enc a ++ s) = some (.ok a, s)

/-- A reader without errors, lifted, gives its value as a success. -/
@[simp] theorem run_liftM (r : Reader α) : (liftM r : ReaderE ε α).run = Except.ok <$> r := rfl

/-- A read that succeeds passes its value and the bytes left on to the next. -/
theorem run_bind_of_run {r : ReaderE ε α} {f : α → ReaderE ε β} {s s' : List UInt8} {a : α}
    (h : r.run.run s = some (.ok a, s')) : (r >>= f).run.run s = (f a).run.run s' := by
  simp [ExceptT.run_bind, StateT.run_bind, h]

/-- A counted loop reads back a list written element by element. -/
theorem readMany_run {r : ReaderE ε α} {enc : α → List UInt8} {P : α → Prop}
    (h : ReadsBack r enc P) (l : List α) (hl : ∀ a ∈ l, P a) (s : List UInt8) :
    (readMany r l.length).run.run (l.flatMap enc ++ s) = some (.ok l, s) := by
  induction l with
  | nil => rfl
  | cons a l ih =>
    have ha := h a (hl a List.mem_cons_self) (l.flatMap enc ++ s)
    have hrest := ih fun b hb => hl b (List.mem_cons_of_mem a hb)
    rw [List.length_cons, readMany, List.flatMap_cons, List.append_assoc, run_bind_of_run ha,
      run_bind_of_run hrest]
    rfl

end ReaderE

end ByteBuf
