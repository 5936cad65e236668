import RisingWave.Stream.Chunk
import RisingWave.Storage.MemTable

/-!
# The dynamic filter

`executor/dynamic_filter.rs`. The executor keeps the rows of its left input whose
filter column `key_l` compares with the one value of its right input. Left rows are
filtered as they come against the right value of the last barrier and stored in the left
state table; right rows only record the current value. At a barrier, `get_range` turns the
value of the last barrier and the current one into the range of stored keys whose outcome
flips, and that range is emitted as inserts or as deletes.

The state tables are modelled by what the executor reads of them: the left table as the
list of its rows (a state-table scan over a range of the first primary-key column is a
filter of it), the right table not at all, since only the current value is read back.
Watermarks are not modelled.
-/

namespace RisingWave.Stream.DynamicFilter

open RisingWave.Storage (Bound inRange)

/-- The comparators a dynamic filter is built with. -/
inductive Comparator where
  | greaterThan
  | greaterThanOrEqual
  | lessThan
  | lessThanOrEqual
  deriving DecidableEq, Repr

variable {S ρ : Type} [LinearOrder S]

/-- `key_l cmp literal` on non-NULL values, as `build_func` evaluates it. -/
def Comparator.eval : Comparator → S → S → Bool
  | .greaterThan, l, r => decide (r < l)
  | .greaterThanOrEqual, l, r => decide (r ≤ l)
  | .lessThan, l, r => decide (l < r)
  | .lessThanOrEqual, l, r => decide (l ≤ r)

/-- The filter's result on a row: with no right value there is no condition, and a NULL
left value evaluates to NULL; both read as false. -/
def rowResult (cmp : Comparator) (rightVal leftVal : Option S) : Bool :=
  match rightVal with
  | none => false
  | some r => (leftVal.map fun l => cmp.eval l r).getD false

/-- `get_range`: the range of left keys whose outcome differs between `prev` and `curr`,
whether the latest value is its lower end, and whether its rows are inserted (or
deleted). `none` is the `unreachable!` of two NULLs. -/
def getRange (cmp : Comparator) (curr prev : Option S) :
    Option ((Bound S × Bound S) × Bool × Bool) :=
  match curr, prev with
  | some c, none | none, some c =>
    let range : Bound S × Bound S := match cmp with
      | .greaterThan => (.excluded c, .unbounded)
      | .greaterThanOrEqual => (.included c, .unbounded)
      | .lessThan => (.unbounded, .excluded c)
      | .lessThanOrEqual => (.unbounded, .included c)
    some (range, cmp matches .greaterThan | .greaterThanOrEqual, curr.isSome)
  | some c, some p =>
    if c < p then
      let range : Bound S × Bound S := match cmp with
        | .greaterThan | .lessThanOrEqual => (.excluded c, .included p)
        | .greaterThanOrEqual | .lessThan => (.included c, .excluded p)
      some (range, true, cmp matches .greaterThan | .greaterThanOrEqual)
    else
      let range : Bound S × Bound S := match cmp with
        | .greaterThan | .lessThanOrEqual => (.excluded p, .included c)
        | .greaterThanOrEqual | .lessThan => (.included p, .excluded c)
      some (range, false, cmp matches .lessThan | .lessThanOrEqual)
  | none, none => none

/-- A key in a range of the first primary-key column; in ascending order a NULL is the
largest key. -/
def keyInRange (range : Bound S × Bound S) : Option S → Bool
  | some k => inRange range k
  | none => range.2 matches .unbounded

/-! ## The executor -/

/-- A message of the two aligned inputs. -/
inductive Message (S ρ : Type) where
  | left (chunk : List (Op × ρ))
  | right (chunk : List (Op × Option S))
  | barrier

/-- A message the executor yields: a chunk of changes with their visibility, or a barrier. -/
inductive Output (ρ : Type) where
  | chunk (rows : List ((Op × ρ) × Bool))
  | barrier

/-- The executor's errors: a right delete of another value, and `unreachable!`. -/
inductive DynamicFilterError (S : Type) where
  | inconsistentDelete (current : Option (Option S)) (delete : Option S)
  | unreachable

/-- The state of `into_stream`'s loop. -/
structure State (S ρ : Type) where
  leftTable : List ρ
  prevEpochValue : Option (Option S)
  currentEpochValue : Option (Option S)

/-- A fresh executor: both state tables empty, so no right value is recovered. -/
def State.init : State S ρ := ⟨[], none, none⟩

/-- The ops `apply_batch` pushes for one row with their visibility, and `last_res` after it. -/
def pushRow (lastRes res : Bool) : Op → List (Op × Bool) × Bool
  | .insert => ([(.insert, res)], lastRes)
  | .delete => ([(.delete, res)], lastRes)
  | .updateDelete => ([], res)
  | .updateInsert =>
    match lastRes, res with
    | true, false => ([(.delete, true), (.updateInsert, false)], lastRes)
    | false, true => ([(.updateDelete, false), (.insert, true)], lastRes)
    | true, true => ([(.updateDelete, true), (.updateInsert, true)], lastRes)
    | false, false => ([(.updateDelete, false), (.updateInsert, false)], lastRes)

variable [DecidableEq ρ] (cmp : Comparator) (keyL : ρ → Option S)

/-- The left table after one row: a row with a NULL filter key is never stored. -/
def storeRow (table : List ρ) (c : Op × ρ) : List ρ :=
  if (keyL c.2).isSome then (if c.1.isInsert then c.2 :: table else table.erase c.2) else table

/-- The loop of `apply_batch` over the rows of a chunk. -/
def applyBatchLoop (rightVal : Option S) :
    Bool → List ρ → List (Op × ρ) → List (Op × Bool) × List ρ
  | _, table, [] => ([], table)
  | lastRes, table, (op, row) :: rows =>
    let p := pushRow lastRes (rowResult cmp rightVal (keyL row)) op
    let rest := applyBatchLoop rightVal p.2 (storeRow keyL table (op, row)) rows
    (p.1 ++ rest.1, rest.2)

/-- `apply_batch`: the new ops with their visibility, and the left table after the chunk. -/
def applyBatch (rightVal : Option S) (table : List ρ) (chunk : List (Op × ρ)) :
    List (Op × Bool) × List ρ :=
  applyBatchLoop cmp keyL rightVal false table chunk

/-- The right chunk's loop: an insert records its value, a delete must name the current one. -/
def recordRight :
    Option (Option S) → List (Op × Option S) → Except (DynamicFilterError S) (Option (Option S))
  | current, [] => .ok current
  | current, (op, d) :: rows =>
    if op.isInsert then recordRight (some d) rows
    else if some d ≠ current then .error (.inconsistentDelete current d)
    else recordRight none rows

/-- The rows a barrier emits for a change of the right value, with their op. -/
def flushRange (table : List ρ) (curr prev : Option S) :
    Except (DynamicFilterError S) (List ((Op × ρ) × Bool)) :=
  match getRange cmp curr prev with
  | none => .error .unreachable
  | some (range, _, isInsert) =>
    .ok ((table.filter fun r => keyInRange range (keyL r)).map fun r =>
      ((if isInsert then .insert else .delete, r), true))

/-- `StreamChunk::new(new_ops, columns, new_visibility)`: the new ops over the chunk's rows. -/
def newChunk (ops : List (Op × Bool)) (chunk : List (Op × ρ)) : List ((Op × ρ) × Bool) :=
  (ops.zip chunk).map fun x => ((x.1.1, x.2.2), x.1.2)

/-- A chunk is yielded only when a row of it is visible. -/
def yieldChunk (rows : List ((Op × ρ) × Bool)) : List (Output ρ) :=
  if rows.any (·.2) then [.chunk rows] else []

/-- One message of the loop of `into_stream`. -/
def step (s : State S ρ) : Message S ρ → Except (DynamicFilterError S) (State S ρ × List (Output ρ))
  | .left chunk =>
    let r := applyBatch cmp keyL s.prevEpochValue.join s.leftTable chunk
    .ok ({ s with leftTable := r.2 }, yieldChunk (newChunk r.1 chunk))
  | .right chunk =>
    (recordRight s.currentEpochValue chunk).map fun current =>
      ({ s with currentEpochValue := current }, [])
  | .barrier =>
    let curr := s.currentEpochValue.join
    let prev := s.prevEpochValue.join
    let flushed := if prev ≠ curr then flushRange cmp keyL s.leftTable curr prev else .ok []
    flushed.map fun rows =>
      ({ s with prevEpochValue := some curr }, yieldChunk rows ++ [.barrier])

/-- The messages in order, up to the first error. -/
def run : State S ρ → List (Message S ρ) → Except (DynamicFilterError S) (State S ρ × List (Output ρ))
  | s, [] => .ok (s, [])
  | s, m :: ms =>
    (step cmp keyL s m).bind fun r => (run r.1 ms).map fun r' => (r'.1, r.2 ++ r'.2)

/-! ## What the output should be -/

/-- The comparison of a left key with the right value, as SQL reads it. -/
def Comparator.holds : Comparator → S → S → Prop
  | .greaterThan, l, r => r < l
  | .greaterThanOrEqual, l, r => r ≤ l
  | .lessThan, l, r => l < r
  | .lessThanOrEqual, l, r => l ≤ r

instance Comparator.decidableHolds (cmp : Comparator) (l r : S) : Decidable (cmp.holds l r) :=
  match cmp with
  | .greaterThan => inferInstanceAs (Decidable (r < l))
  | .greaterThanOrEqual => inferInstanceAs (Decidable (r ≤ l))
  | .lessThan => inferInstanceAs (Decidable (l < r))
  | .lessThanOrEqual => inferInstanceAs (Decidable (l ≤ r))

/-- A left row passes the filter for the right value `v`: its key and `v` are both
non-NULL, and they compare. -/
def Passes (v : Option S) (l : ρ) : Prop :=
  ∃ a ∈ keyL l, ∃ b ∈ v, cmp.holds a b

instance (v : Option S) : DecidablePred (Passes cmp keyL v) := fun l =>
  inferInstanceAs (Decidable (∃ a ∈ keyL l, ∃ b ∈ v, cmp.holds a b))

/-- A left chunk is consistent: each `UpdateDelete` is followed right away by its
`UpdateInsert`, and no `UpdateInsert` comes alone. -/
def updatesAdjacent : List (Op × ρ) → Bool
  | [] => true
  | (.insert, _) :: rows | (.delete, _) :: rows => updatesAdjacent rows
  | (.updateDelete, _) :: (.updateInsert, _) :: rows => updatesAdjacent rows
  | _ => false

/-- The right row after a right chunk. -/
def rightAfter : Option (Option S) → List (Op × Option S) → Option (Option S)
  | current, [] => current
  | _, (op, d) :: rows => rightAfter (if op.isInsert then some d else none) rows

/-- A right chunk is consistent: the right input holds at most one row, so an insert
comes when there is none, and a delete names the one there is. -/
def rightConsistent : Option (Option S) → List (Op × Option S) → Bool
  | _, [] => true
  | current, (op, d) :: rows =>
    if op.isInsert then current.isNone && rightConsistent (some d) rows
    else current == some d && rightConsistent none rows

/-- What the inputs have said so far: the left rows, the right row, and the right value
at the last barrier. -/
structure Seen (S ρ : Type) where
  left : Multiset ρ
  right : Option (Option S)
  atBarrier : Option S

namespace Seen

/-- Nothing seen; before any barrier the right value is NULL. -/
def init : Seen S ρ := ⟨0, none, none⟩

/-- One more message seen. -/
def step (st : Seen S ρ) : Message S ρ → Seen S ρ
  | .left chunk => { st with left := applyChanges st.left chunk }
  | .right chunk => { st with right := rightAfter st.right chunk }
  | .barrier => { st with atBarrier := st.right.join }

/-- The message is consistent with what was seen. -/
def consistent (st : Seen S ρ) : Message S ρ → Bool
  | .left chunk => updatesAdjacent chunk
  | .right chunk => rightConsistent st.right chunk
  | .barrier => true

/-- Every message consistent with what was seen before it. -/
def consistentRun : Seen S ρ → List (Message S ρ) → Bool
  | _, [] => true
  | st, m :: ms => st.consistent m && consistentRun (st.step m) ms

/-- What the messages say, in order. -/
def run (st : Seen S ρ) (ms : List (Message S ρ)) : Seen S ρ := ms.foldl step st

end Seen

/-- The changes a chunk shows downstream: its visible rows. -/
def visibleChanges (rows : List ((Op × ρ) × Bool)) : List (Op × ρ) :=
  rows.filterMap fun x => if x.2 then some x.1 else none

/-- The changes of the executor's output. -/
def outputChanges : List (Output ρ) → List (Op × ρ)
  | [] => []
  | .chunk rows :: out => visibleChanges rows ++ outputChanges out
  | .barrier :: out => outputChanges out

/-- Each visible `UpdateDelete` of a chunk is followed right away by a visible
`UpdateInsert`. -/
def UpdatesPaired : List ((Op × ρ) × Bool) → Prop
  | [] => True
  | x :: rows => (x.1.1 = .updateDelete → x.2 = true →
      ∃ y rows', rows = y :: rows' ∧ y.1.1 = .updateInsert ∧ y.2 = true) ∧ UpdatesPaired rows

/-! ## The right value -/

attribute [local simp] Comparator.eval in
theorem eval_eq_true_iff (l r : S) : cmp.eval l r = true ↔ cmp.holds l r := by
  cases cmp <;> simp [Comparator.eval, Comparator.holds]

/-- A row with a NULL key never passes. -/
@[simp] theorem rowResult_none (v : Option S) : rowResult cmp v none = false := by
  cases v <;> rfl

attribute [local simp] rowResult in
omit [DecidableEq ρ] in
/-- The executor's result on a row is the filter it should be. -/
theorem rowResult_eq_true_iff (v : Option S) (l : ρ) :
    rowResult cmp v (keyL l) = true ↔ Passes cmp keyL v l := by
  rcases v with _ | b <;> rcases h : keyL l with _ | a <;>
    simp [rowResult, Passes, h, eval_eq_true_iff]

/-- For two different right values, `get_range` gives the keys whose outcome flips, and
inserts them just where they pass the new value. -/
theorem getRange_spec {curr prev : Option S} (h : prev ≠ curr) :
    ∃ range isLower isInsert, getRange cmp curr prev = some (range, isLower, isInsert) ∧
      ∀ a, keyInRange range (some a) =
          (rowResult cmp curr (some a) != rowResult cmp prev (some a)) ∧
        (keyInRange range (some a) = true → rowResult cmp curr (some a) = isInsert) := by
  rcases curr with _ | c <;> rcases prev with _ | p
  · exact absurd rfl h
  · -- From a value to NULL: the rows passing the value are deleted.
    cases cmp <;> simp [getRange, keyInRange, inRange, rowResult, Comparator.eval]
  · -- From NULL to a value: the rows passing it are inserted.
    cases cmp <;> simp [getRange, keyInRange, inRange, rowResult, Comparator.eval]
  · -- Between two values the range lies between them, on the side the comparator keeps.
    by_cases hcp : c < p
    · cases cmp <;> simp [getRange, hcp, keyInRange, inRange, rowResult, Comparator.eval] <;>
        intro a <;> grind
    · cases cmp <;> simp [getRange, hcp, keyInRange, inRange, rowResult, Comparator.eval] <;>
        intro a <;> grind

/-- A consistent right chunk records the right row it leaves. -/
theorem recordRight_eq (current : Option (Option S)) (chunk : List (Op × Option S))
    (h : rightConsistent current chunk = true) :
    recordRight current chunk = .ok (rightAfter current chunk) := by
  induction chunk generalizing current with
  | nil => rfl
  | cons c chunk ih =>
    obtain ⟨op, d⟩ := c
    by_cases hop : op.isInsert = true
    · simp only [rightConsistent, hop, ↓reduceIte, Bool.and_eq_true] at h
      simp only [recordRight, rightAfter, hop, ↓reduceIte, ih _ h.2]
    · simp only [rightConsistent, hop, Bool.false_eq_true, ↓reduceIte, Bool.and_eq_true,
        beq_iff_eq] at h
      simp only [recordRight, rightAfter, hop, h.1, Bool.false_eq_true, ↓reduceIte, ne_eq,
        not_true_eq_false, ih _ h.2]

/-! ## The left table -/

attribute [local simp] applyChange in
omit [LinearOrder S] in
theorem storeRow_coe (table : List ρ) (c : Op × ρ) :
    (storeRow keyL table c : Multiset ρ) =
      if (keyL c.2).isSome then applyChange (table : Multiset ρ) c else table := by
  unfold storeRow applyChange
  split_ifs <;> simp

attribute [local simp] applyBatchLoop in
/-- The left table after a chunk has the chunk's rows with a non-NULL key applied. -/
theorem applyBatchLoop_table (rightVal : Option S) (lastRes : Bool) (table : List ρ)
    (chunk : List (Op × ρ)) :
    ((applyBatchLoop cmp keyL rightVal lastRes table chunk).2 : Multiset ρ) =
      applyChanges table (chunk.filter fun c => (keyL c.2).isSome) := by
  induction chunk generalizing lastRes table with
  | nil => rfl
  | cons c chunk ih =>
    obtain ⟨op, row⟩ := c
    rw [applyBatchLoop, ih, storeRow_coe, List.filter_cons]
    split_ifs <;> rfl

/-! ## The chunk of a left chunk -/

omit [LinearOrder S] [DecidableEq ρ] in
@[simp] theorem visibleChanges_nil : visibleChanges ([] : List ((Op × ρ) × Bool)) = [] := rfl

omit [LinearOrder S] [DecidableEq ρ] in
@[simp] theorem updatesPaired_nil : UpdatesPaired ([] : List ((Op × ρ) × Bool)) := trivial

omit [LinearOrder S] [DecidableEq ρ] in
@[simp] theorem newChunk_cons (o : Op × Bool) (ops : List (Op × Bool)) (c : Op × ρ)
    (chunk : List (Op × ρ)) : newChunk (o :: ops) (c :: chunk) = ((o.1, c.2), o.2) :: newChunk ops chunk :=
  rfl

omit [LinearOrder S] [DecidableEq ρ] in
@[simp] theorem visibleChanges_cons (x : (Op × ρ) × Bool) (rows : List ((Op × ρ) × Bool)) :
    visibleChanges (x :: rows) = if x.2 then x.1 :: visibleChanges rows else visibleChanges rows := by
  by_cases h : x.2 <;> simp [visibleChanges, h]

omit [LinearOrder S] [DecidableEq ρ] in
@[simp] theorem updatesPaired_cons (x : (Op × ρ) × Bool) (rows : List ((Op × ρ) × Bool)) :
    UpdatesPaired (x :: rows) ↔ (x.1.1 = .updateDelete → x.2 = true →
      ∃ y rows', rows = y :: rows' ∧ y.1.1 = .updateInsert ∧ y.2 = true) ∧ UpdatesPaired rows :=
  Iff.rfl

theorem pushRow_updateInsert_snd (lastRes res : Bool) : (pushRow lastRes res .updateInsert).2 = lastRes := by
  cases lastRes <;> cases res <;> rfl

/-- On a consistent chunk, the chunk `apply_batch` builds shows the changes of the rows
that pass the filter, and pairs its visible updates. -/
theorem applyBatchLoop_chunk (rightVal : Option S) :
    ∀ (lastRes : Bool) (table : List ρ) (chunk : List (Op × ρ)), updatesAdjacent chunk = true →
      (∀ O, applyChanges O (visibleChanges
          (newChunk (applyBatchLoop cmp keyL rightVal lastRes table chunk).1 chunk)) =
        applyChanges O (chunk.filter fun c => rowResult cmp rightVal (keyL c.2))) ∧
      UpdatesPaired (newChunk (applyBatchLoop cmp keyL rightVal lastRes table chunk).1 chunk)
  -- The other shapes are not consistent: there `h` reduces to `false = true`.
  | _, _, [], _ => ⟨fun _ => rfl, trivial⟩
  | lastRes, table, (.insert, r) :: rows, h | lastRes, table, (.delete, r) :: rows, h => by
    obtain ⟨ih, ihp⟩ := applyBatchLoop_chunk rightVal lastRes _ rows h
    simp only [applyBatchLoop, pushRow, List.singleton_append, newChunk_cons, visibleChanges_cons,
      List.filter_cons, updatesPaired_cons]
    refine ⟨fun O => ?_, by simp, ihp⟩
    cases rowResult cmp rightVal (keyL r) <;> simp [ih]
  | lastRes, table, (.updateDelete, r₁) :: (.updateInsert, r₂) :: rows, h => by
    -- The `UpdateDelete` only sets `last_res`; its `UpdateInsert` pushes the pair.
    obtain ⟨ih, ihp⟩ := applyBatchLoop_chunk rightVal (rowResult cmp rightVal (keyL r₁))
      (storeRow keyL (storeRow keyL table (.updateDelete, r₁)) (.updateInsert, r₂)) rows h
    simp only [applyBatchLoop, pushRow_updateInsert_snd]
    cases h₁ : rowResult cmp rightVal (keyL r₁) <;> cases h₂ : rowResult cmp rightVal (keyL r₂) <;>
      simp_all [pushRow, applyChange, Op.isInsert]

/-! ## A barrier -/

omit [DecidableEq ρ] in
/-- A filter split into two disjoint ones. -/
theorem filter_eq_add_filter (L : Multiset ρ) {p q r : ρ → Prop} [DecidablePred p]
    [DecidablePred q] [DecidablePred r] (h : ∀ a, p a ↔ q a ∨ r a) (hqr : ∀ a, ¬(q a ∧ r a)) :
    L.filter p = L.filter q + L.filter r := by
  rw [Multiset.filter_add_filter, Multiset.filter_eq_nil.mpr fun a _ => hqr a, Multiset.add_zero]
  exact Multiset.filter_congr fun a _ => h a

omit [LinearOrder S] [DecidableEq ρ] in
theorem visibleChanges_map (op : Op) (rs : List ρ) :
    visibleChanges (rs.map fun r => ((op, r), true)) = rs.map fun r => (op, r) := by
  induction rs <;> simp [*]

omit [LinearOrder S] [DecidableEq ρ] in
theorem updatesPaired_map {op : Op} (hop : op ≠ .updateDelete) (rs : List ρ) :
    UpdatesPaired (rs.map fun r => ((op, r), true)) := by
  induction rs <;> simp [*]

/-- A barrier after a change of the right value moves the output from the rows passing
the old value to those passing the new one. -/
theorem flushRange_changes {curr prev : Option S} (h : prev ≠ curr) (L : Multiset ρ)
    (table : List ρ) (htable : (table : Multiset ρ) = L.filter fun r => (keyL r).isSome) :
    ∃ rows, flushRange cmp keyL table curr prev = .ok rows ∧
      applyChanges (L.filter fun r => rowResult cmp prev (keyL r)) (visibleChanges rows) =
        L.filter (fun r => rowResult cmp curr (keyL r)) ∧ UpdatesPaired rows := by
  obtain ⟨range, isLower, isInsert, hr, hspec⟩ := getRange_spec cmp h
  -- The flushed rows are the stored ones whose outcome flips, towards `isInsert`; the
  -- others keep theirs.
  have hin : ∀ r, keyInRange range (keyL r) = true ∧ (keyL r).isSome = true →
      rowResult cmp curr (keyL r) = isInsert ∧ rowResult cmp prev (keyL r) = !isInsert := by
    intro r hr
    obtain ⟨a, ha⟩ := Option.isSome_iff_exists.mp hr.2
    rw [ha] at hr ⊢
    obtain ⟨hrange, hins⟩ := hspec a
    cases hc : rowResult cmp curr (some a) <;> cases hp : rowResult cmp prev (some a) <;>
      cases isInsert <;> simp_all
  have hout : ∀ r, ¬(keyInRange range (keyL r) = true ∧ (keyL r).isSome = true) →
      rowResult cmp curr (keyL r) = rowResult cmp prev (keyL r) := by
    intro r hr
    rcases hk : keyL r with _ | a
    · simp
    · rw [hk] at hr
      obtain ⟨hrange, -⟩ := hspec a
      cases hc : rowResult cmp curr (some a) <;> cases hp : rowResult cmp prev (some a) <;> simp_all
  have hrows : ((table.filter fun r => keyInRange range (keyL r) : List ρ) : Multiset ρ) =
      L.filter fun r => keyInRange range (keyL r) = true ∧ (keyL r).isSome = true := by
    rw [← Multiset.filter_filter, ← htable, Multiset.filter_coe]
    simp
  refine ⟨(table.filter fun r => keyInRange range (keyL r)).map fun r =>
    ((if isInsert then .insert else .delete, r), true), by simp [flushRange, hr], ?_, ?_⟩
  · cases isInsert
    · -- The rows that stop passing are deleted.
      have hsplit : (L.filter fun r => rowResult cmp prev (keyL r)) =
          (L.filter fun r => rowResult cmp curr (keyL r)) +
            L.filter fun r => keyInRange range (keyL r) = true ∧ (keyL r).isSome = true := by
        apply filter_eq_add_filter <;> intro r <;>
          by_cases hr : keyInRange range (keyL r) = true ∧ (keyL r).isSome = true
        all_goals first | simp [hr, hin r hr] | simp [hr, hout r hr]
      simp only [Bool.false_eq_true, ↓reduceIte, visibleChanges_map, applyChanges_deletes]
      rw [hsplit, hrows, Multiset.add_sub_cancel_right]
    · -- The rows that start passing are inserted.
      have hsplit : (L.filter fun r => rowResult cmp curr (keyL r)) =
          (L.filter fun r => rowResult cmp prev (keyL r)) +
            L.filter fun r => keyInRange range (keyL r) = true ∧ (keyL r).isSome = true := by
        apply filter_eq_add_filter <;> intro r <;>
          by_cases hr : keyInRange range (keyL r) = true ∧ (keyL r).isSome = true
        all_goals first | simp [hr, hin r hr] | simp [hr, hout r hr]
      simp only [↓reduceIte, visibleChanges_map, applyChanges_inserts]
      rw [hsplit, hrows]
  · cases isInsert <;> exact updatesPaired_map (by decide) _

/-! ## Every run -/

attribute [local simp] outputChanges in
omit [LinearOrder S] [DecidableEq ρ] in
@[simp] theorem outputChanges_append (out out' : List (Output ρ)) :
    outputChanges (out ++ out') = outputChanges out ++ outputChanges out' := by
  induction out with
  | nil => rfl
  | cons o out ih => cases o <;> simp [outputChanges, ih]

attribute [local simp] yieldChunk in
omit [LinearOrder S] [DecidableEq ρ] in
/-- A chunk left out for having no visible row showed no change. -/
theorem outputChanges_yieldChunk (rows : List ((Op × ρ) × Bool)) :
    outputChanges (yieldChunk rows) = visibleChanges rows := by
  unfold yieldChunk
  split_ifs with h
  · simp [outputChanges]
  · simp only [List.any_eq_true, not_exists, not_and] at h
    symm
    apply List.filterMap_eq_nil_iff.mpr
    intro x hx
    simp [h x hx]

omit [LinearOrder S] [DecidableEq ρ] in
theorem mem_yieldChunk {rows rows' : List ((Op × ρ) × Bool)} (h : .chunk rows' ∈ yieldChunk rows) :
    rows' = rows := by
  unfold yieldChunk at h
  split_ifs at h <;> simp_all

/-- What the executor keeps, against what it has seen and what it has emitted: the left
table holds the left rows with a non-NULL key, the last barrier's value is the one seen
there, the right value is the right row's, and the output is the left rows passing the
last barrier's value. -/
structure Inv (s : State S ρ) (st : Seen S ρ) (O : Multiset ρ) : Prop where
  table_eq : (s.leftTable : Multiset ρ) = st.left.filter fun r => (keyL r).isSome
  prev_eq : s.prevEpochValue.join = st.atBarrier
  current_eq : s.currentEpochValue = st.right
  output_eq : O = st.left.filter fun r => rowResult cmp st.atBarrier (keyL r)

omit [DecidableEq ρ] in
theorem inv_init : Inv cmp keyL .init (.init : Seen S ρ) 0 :=
  ⟨by simp [State.init, Seen.init], rfl, rfl, (Multiset.filter_zero _).symm⟩

/-- One consistent message keeps the invariant, and each chunk it yields pairs its updates. -/
theorem step_spec {s : State S ρ} {st : Seen S ρ} {O : Multiset ρ} (hinv : Inv cmp keyL s st O)
    (m : Message S ρ) (hm : st.consistent m = true) :
    ∃ s' out, step cmp keyL s m = .ok (s', out) ∧
      Inv cmp keyL s' (st.step m) (applyChanges O (outputChanges out)) ∧
      ∀ rows, .chunk rows ∈ out → UpdatesPaired rows := by
  cases m with
  | left chunk =>
    -- Filtered against the last barrier's value, stored when the key is non-NULL.
    obtain ⟨hvis, hpaired⟩ :=
      applyBatchLoop_chunk cmp keyL s.prevEpochValue.join false s.leftTable chunk hm
    refine ⟨_, _, rfl, ⟨?_, hinv.prev_eq, hinv.current_eq, ?_⟩, ?_⟩
    · simp [Seen.step, applyBatch, applyBatchLoop_table, hinv.table_eq, applyChanges_filter]
    · rw [outputChanges_yieldChunk, applyBatch, hvis, hinv.output_eq, hinv.prev_eq]
      show _ = Multiset.filter (fun r => rowResult cmp st.atBarrier (keyL r) = true)
        (applyChanges st.left chunk)
      rw [applyChanges_filter]
      simp
    · intro rows hrows
      rw [mem_yieldChunk hrows]
      exact hpaired
  | right chunk =>
    -- Only the right value changes.
    refine ⟨{ s with currentEpochValue := rightAfter s.currentEpochValue chunk }, [], ?_,
      ⟨hinv.table_eq, hinv.prev_eq, by simp [Seen.step, hinv.current_eq], hinv.output_eq⟩, by simp⟩
    have hm' : rightConsistent s.currentEpochValue chunk = true := by
      rw [hinv.current_eq]
      exact hm
    simp only [step, recordRight_eq _ _ hm']
    rfl
  | barrier =>
    have hright : s.currentEpochValue.join = st.right.join := by rw [hinv.current_eq]
    by_cases hpc : s.prevEpochValue.join = s.currentEpochValue.join
    · -- No change of the right value: only the barrier is yielded.
      refine ⟨{ s with prevEpochValue := some s.currentEpochValue.join }, [.barrier],
        by simp [step, hpc, yieldChunk]; rfl,
        ⟨hinv.table_eq, by simp [Seen.step, hright], hinv.current_eq, ?_⟩, by simp⟩
      have hv : st.right.join = st.atBarrier := by rw [← hright, ← hpc, hinv.prev_eq]
      simp only [Seen.step, outputChanges, applyChanges_nil, hv]
      exact hinv.output_eq
    · -- The rows whose outcome flips are flushed before the barrier.
      obtain ⟨rows, hrows, hO, hpaired⟩ :=
        flushRange_changes cmp keyL hpc st.left s.leftTable hinv.table_eq
      refine ⟨{ s with prevEpochValue := some s.currentEpochValue.join }, yieldChunk rows ++ [.barrier],
        by simp [step, hpc, hrows]; rfl,
        ⟨hinv.table_eq, by simp [Seen.step, hright], hinv.current_eq, ?_⟩, ?_⟩
      · simp only [Seen.step, outputChanges_append, outputChanges_yieldChunk, outputChanges,
          List.append_nil, ← hright, hinv.output_eq, ← hinv.prev_eq]
        exact hO
      · intro rows' hrows'
        rcases List.mem_append.mp hrows' with h | h
        · rw [mem_yieldChunk h]
          exact hpaired
        · simp at h

attribute [local simp] run in
theorem run_cons_of_step {s s₁ : State S ρ} {m : Message S ρ} {out₁ : List (Output ρ)}
    (h : step cmp keyL s m = .ok (s₁, out₁)) (ms : List (Message S ρ)) :
    run cmp keyL s (m :: ms) = (run cmp keyL s₁ ms).map fun r => (r.1, out₁ ++ r.2) := by
  simp only [run, h]
  rfl

/-- A consistent run keeps the invariant and pairs the updates of every chunk it yields. -/
theorem run_spec (ms : List (Message S ρ)) :
    ∀ (s : State S ρ) (st : Seen S ρ) (O : Multiset ρ), Inv cmp keyL s st O →
      st.consistentRun ms = true →
      ∃ s' out, run cmp keyL s ms = .ok (s', out) ∧
        Inv cmp keyL s' (st.run ms) (applyChanges O (outputChanges out)) ∧
        ∀ rows, .chunk rows ∈ out → UpdatesPaired rows := by
  induction ms with
  | nil => intro s st O hinv _; exact ⟨s, [], rfl, hinv, by simp⟩
  | cons m ms ih =>
    intro s st O hinv hms
    simp only [Seen.consistentRun, Bool.and_eq_true] at hms
    obtain ⟨s₁, out₁, hstep, hinv₁, hpaired₁⟩ := step_spec cmp keyL hinv m hms.1
    obtain ⟨s₂, out₂, hrun, hinv₂, hpaired₂⟩ := ih s₁ _ _ hinv₁ hms.2
    refine ⟨s₂, out₁ ++ out₂, by rw [run_cons_of_step cmp keyL hstep, hrun]; rfl, ?_, ?_⟩
    · simpa [Seen.run] using hinv₂
    · intro rows hrows
      rcases List.mem_append.mp hrows with h | h
      · exact hpaired₁ rows h
      · exact hpaired₂ rows h

/-- On every consistent interleaving of left chunks, right chunks and barriers, the
executor never fails, its output so far is the left input's rows with a non-NULL key that
compares with the non-NULL right value of the last barrier (so left chunks between
barriers are filtered against it, and at a barrier the right value is the current one),
and each visible `UpdateDelete` it yields is followed right away by a visible
`UpdateInsert`. -/
theorem dynamicFilter_maintains_filter (ms : List (Message S ρ))
    (hms : Seen.init.consistentRun ms = true) :
    ∃ s out, run cmp keyL .init ms = .ok (s, out) ∧
      applyChanges 0 (outputChanges out) =
        (Seen.init.run ms).left.filter (Passes cmp keyL (Seen.init.run ms).atBarrier) ∧
      ∀ rows, .chunk rows ∈ out → UpdatesPaired rows := by
  obtain ⟨s, out, hrun, hinv, hpaired⟩ := run_spec cmp keyL ms _ _ _ (inv_init cmp keyL) hms
  refine ⟨s, out, hrun, ?_, hpaired⟩
  rw [hinv.output_eq]
  exact Multiset.filter_congr fun r _ => rowResult_eq_true_iff cmp keyL _ r

/-- A run under `>`: a right value 5, three left rows filtered against it (one with a NULL
key), an update of a passing row to a failing one, and the right value changed to 2 at the
second barrier. -/
theorem dynamicFilter_two_barriers :
    ∃ s out, run .greaterThan Prod.fst .init
        [.right [(.insert, some 5)], .barrier,
          .left [(.insert, (some 7, 0)), (.insert, (some 3, 1)), (.insert, (none, 2))],
          .left [(.updateDelete, (some 7, 0)), (.updateInsert, (some 4, 0))],
          .right [(.delete, some 5), (.insert, some 2)], .barrier] = .ok (s, out) ∧
      applyChanges 0 (outputChanges out) =
        (Seen.init.run ([.right [(.insert, some 5)], .barrier,
          .left [(.insert, (some 7, 0)), (.insert, (some 3, 1)), (.insert, (none, 2))],
          .left [(.updateDelete, (some 7, 0)), (.updateInsert, (some 4, 0))],
          .right [(.delete, some 5), (.insert, some 2)], .barrier] :
            List (Message ℕ (Option ℕ × ℕ)))).left.filter
          (Passes .greaterThan Prod.fst (Seen.init.run ([.right [(.insert, some 5)], .barrier,
            .left [(.insert, (some 7, 0)), (.insert, (some 3, 1)), (.insert, (none, 2))],
            .left [(.updateDelete, (some 7, 0)), (.updateInsert, (some 4, 0))],
            .right [(.delete, some 5), (.insert, some 2)], .barrier] :
              List (Message ℕ (Option ℕ × ℕ)))).atBarrier) ∧
      ∀ rows, .chunk rows ∈ out → UpdatesPaired rows :=
  dynamicFilter_maintains_filter .greaterThan Prod.fst _ (by decide)

example : ((run .greaterThan Prod.fst .init
    ([.right [(.insert, some 5)], .barrier,
      .left [(.insert, (some 7, 0)), (.insert, (some 3, 1)), (.insert, (none, 2))],
      .left [(.updateDelete, (some 7, 0)), (.updateInsert, (some 4, 0))],
      .right [(.delete, some 5), (.insert, some 2)], .barrier] :
        List (Message ℕ (Option ℕ × ℕ)))).toOption.map fun r => applyChanges 0 (outputChanges r.2)) =
    some {(some 4, 0), (some 3, 1)} := by
  decide

end RisingWave.Stream.DynamicFilter
