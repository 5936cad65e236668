import Mathlib.Data.Multiset.AddSub
import Mathlib.Data.Multiset.Filter

/-!
# Stream chunks as changes to a multiset of rows

`array/stream_chunk.rs`. A streaming executor emits its output as `(Op, row)`
pairs; downstream, an `Insert` or `UpdateInsert` adds its row and a `Delete` or
`UpdateDelete` removes one copy of it. `applyChanges` is that reading, and it is
how the executors' outputs are compared with what they should maintain.
-/

namespace RisingWave.Stream

/-- `Op`. -/
inductive Op where
  | insert
  | delete
  | updateDelete
  | updateInsert
  deriving DecidableEq, Repr

/-- Whether the change adds its row. -/
def Op.isInsert : Op → Bool
  | .insert | .updateInsert => true
  | .delete | .updateDelete => false

variable {ρ : Type*} [DecidableEq ρ]

/-- One change applied to a multiset of rows. -/
def applyChange (rows : Multiset ρ) (c : Op × ρ) : Multiset ρ :=
  if c.1.isInsert then c.2 ::ₘ rows else rows.erase c.2

/-- The changes applied in order. -/
def applyChanges (rows : Multiset ρ) (cs : List (Op × ρ)) : Multiset ρ := cs.foldl applyChange rows

@[simp] theorem applyChanges_nil (rows : Multiset ρ) : applyChanges rows [] = rows := rfl

@[simp] theorem applyChanges_cons (rows : Multiset ρ) (c : Op × ρ) (cs : List (Op × ρ)) :
    applyChanges rows (c :: cs) = applyChanges (applyChange rows c) cs := rfl

@[simp] theorem applyChanges_append (rows : Multiset ρ) (cs cs' : List (Op × ρ)) :
    applyChanges rows (cs ++ cs') = applyChanges (applyChanges rows cs) cs' := List.foldl_append

@[simp] theorem applyChange_insert (rows : Multiset ρ) (r : ρ) :
    applyChange rows (.insert, r) = r ::ₘ rows := rfl

@[simp] theorem applyChange_delete (rows : Multiset ρ) (r : ρ) :
    applyChange rows (.delete, r) = rows.erase r := rfl

/-- Deleting rows one by one takes them away. -/
theorem applyChanges_deletes (rows : Multiset ρ) (rs : List ρ) :
    applyChanges rows (rs.map fun r => (.delete, r)) = rows - rs := by
  induction rs generalizing rows with
  | nil => simp
  | cons r rs ih =>
    rw [List.map_cons, applyChanges_cons, applyChange_delete, ih, ← Multiset.cons_coe,
      Multiset.sub_cons]

/-- Inserting rows one by one adds them. -/
theorem applyChanges_inserts (rows : Multiset ρ) (rs : List ρ) :
    applyChanges rows (rs.map fun r => (.insert, r)) = rows + rs := by
  induction rs generalizing rows with
  | nil => simp
  | cons r rs ih =>
    rw [List.map_cons, applyChanges_cons, applyChange_insert, ih, ← Multiset.cons_coe,
      Multiset.add_cons, Multiset.cons_add]

section Filter

variable (p : ρ → Prop) [DecidablePred p]

theorem filter_erase_eq (rows : Multiset ρ) (r : ρ) :
    (rows.erase r).filter p = if p r then (rows.filter p).erase r else rows.filter p := by
  rw [← Multiset.sub_singleton, Multiset.filter_sub, Multiset.filter_singleton]
  split_ifs <;> simp

/-- A change seen through a filter: only a change of a row that passes it shows. -/
theorem applyChange_filter (rows : Multiset ρ) (c : Op × ρ) :
    (applyChange rows c).filter p = if p c.2 then applyChange (rows.filter p) c else rows.filter p := by
  obtain ⟨op, r⟩ := c
  by_cases hp : p r
  · cases op <;> simp [applyChange, Op.isInsert, hp, Multiset.filter_cons_of_pos, filter_erase_eq]
  · cases op <;> simp [applyChange, Op.isInsert, hp, Multiset.filter_cons_of_neg, filter_erase_eq]

/-- Changes seen through a filter are the changes of the rows that pass it. -/
theorem applyChanges_filter (rows : Multiset ρ) (cs : List (Op × ρ)) :
    (applyChanges rows cs).filter p = applyChanges (rows.filter p) (cs.filter fun c => p c.2) := by
  induction cs generalizing rows with
  | nil => rfl
  | cons c cs ih =>
    rw [applyChanges_cons, ih, applyChange_filter, List.filter_cons]
    by_cases hp : p c.2 <;> simp [hp]

end Filter

end RisingWave.Stream
