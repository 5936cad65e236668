import Mathlib
import RisingWave.Lib.SortedMap

/-!
# The operations of an ordered map

`BTreeMap::insert`, `remove`, `first_key_value`, `last_key_value`, `pop_first`,
`pop_last` and `retain` on `SortedMap`, each keeping the entries sorted.

The lemmas say where an inserted entry lands in a split of the entries: an entry
whose key is below every key of the right part is inserted into the left part,
one whose key is above every key of the left part into the right part. Caches
made of several maps over one ordered table are reasoned about this way, the
table being the concatenation of the caches' entries and of what lies past them.
-/

namespace SortedMap

variable {κ ν : Type*} [LinearOrder κ]

/-! ## Insertion -/

/-- `insert(k, v)` on the entries: a new entry in key order, or the value of `k` replaced. -/
def insertList (k : κ) (v : ν) : List (κ × ν) → List (κ × ν)
  | [] => [(k, v)]
  | e :: rest =>
    if k < e.1 then (k, v) :: e :: rest
    else if k = e.1 then (k, v) :: rest
    else e :: insertList k v rest

attribute [local simp] insertList in
theorem mem_insertList {k : κ} {v : ν} {l : List (κ × ν)} {e : κ × ν}
    (he : e ∈ insertList k v l) : e = (k, v) ∨ e ∈ l := by
  induction l with
  | nil => simpa [insertList] using he
  | cons hd rest ih =>
    simp only [insertList] at he
    split_ifs at he <;> simp only [List.mem_cons] at he ⊢
    · tauto
    · tauto
    · rcases he with rfl | he
      · exact .inr (.inl rfl)
      · rcases ih he with h | h
        · exact .inl h
        · exact .inr (.inr h)

theorem insertList_sorted (k : κ) (v : ν) {l : List (κ × ν)}
    (hl : l.Pairwise fun a b => a.1 < b.1) :
    (insertList k v l).Pairwise fun a b => a.1 < b.1 := by
  induction l with
  | nil => simp [insertList]
  | cons hd rest ih =>
    rw [List.pairwise_cons] at hl
    simp only [insertList]
    split_ifs with hlt heq
    · refine List.Pairwise.cons (fun e he => ?_) (List.Pairwise.cons hl.1 hl.2)
      rcases List.mem_cons.mp he with rfl | he
      · exact hlt
      · exact hlt.trans (hl.1 e he)
    · exact List.Pairwise.cons (fun e he => heq ▸ hl.1 e he) hl.2
    · -- `hd.1 < k`: the new entry goes into `rest`, after `hd` like every entry of `rest`.
      have hgt : hd.1 < k := lt_of_le_of_ne (not_lt.mp hlt) (Ne.symm heq)
      refine List.Pairwise.cons (fun e he => ?_) (ih hl.2)
      rcases mem_insertList he with rfl | he
      · exact hgt
      · exact hl.1 e he

/-- A key below every key of the list goes in front. -/
theorem insertList_of_forall_lt {k : κ} (v : ν) {l : List (κ × ν)} (h : ∀ e ∈ l, k < e.1) :
    insertList k v l = (k, v) :: l := by
  cases l with
  | nil => rfl
  | cons e rest => simp [insertList, h e List.mem_cons_self]

/-- A key below every key of the right part is inserted into the left part. -/
theorem insertList_append_of_forall_lt {k : κ} (v : ν) (l : List (κ × ν)) {r : List (κ × ν)}
    (h : ∀ e ∈ r, k < e.1) : insertList k v (l ++ r) = insertList k v l ++ r := by
  induction l with
  | nil => rw [List.nil_append, insertList_of_forall_lt v h]; rfl
  | cons e rest ih => simp only [List.cons_append, insertList]; split_ifs <;> simp [ih]

/-- A key above every key of the left part is inserted into the right part. -/
theorem insertList_append_of_forall_gt {k : κ} (v : ν) {l : List (κ × ν)} (r : List (κ × ν))
    (h : ∀ e ∈ l, e.1 < k) : insertList k v (l ++ r) = l ++ insertList k v r := by
  induction l with
  | nil => rfl
  | cons e rest ih =>
    have he : e.1 < k := h e List.mem_cons_self
    simp only [List.cons_append, insertList, not_lt_of_gt he, if_false, he.ne', List.cons.injEq,
      true_and]
    exact ih fun e' he' => h e' (List.mem_cons_of_mem _ he')

/-- A key above every key of the list goes at the end. -/
theorem insertList_of_forall_gt {k : κ} (v : ν) {l : List (κ × ν)} (h : ∀ e ∈ l, e.1 < k) :
    insertList k v l = l ++ [(k, v)] := by
  simpa [insertList] using insertList_append_of_forall_gt v [] h

/-- A new key adds its entry, up to order. -/
theorem insertList_perm {k : κ} (v : ν) {l : List (κ × ν)} (h : ∀ e ∈ l, e.1 ≠ k) :
    (insertList k v l).Perm ((k, v) :: l) := by
  induction l with
  | nil => simp [insertList]
  | cons e rest ih =>
    have hne : k ≠ e.1 := fun h' => h e List.mem_cons_self h'.symm
    simp only [insertList, hne, if_false]
    split_ifs
    · exact List.Perm.refl _
    · exact ((ih fun e' he' => h e' (List.mem_cons_of_mem _ he')).cons e).trans (List.Perm.swap _ _ _)

theorem mem_insertList_iff {k : κ} {v : ν} {l : List (κ × ν)} (h : ∀ e ∈ l, e.1 ≠ k)
    (e : κ × ν) : e ∈ insertList k v l ↔ e = (k, v) ∨ e ∈ l := by
  rw [(insertList_perm v h).mem_iff, List.mem_cons]

theorem insertList_ne_nil (k : κ) (v : ν) (l : List (κ × ν)) : insertList k v l ≠ [] := by
  cases l with
  | nil => simp [insertList]
  | cons e l => unfold insertList; split_ifs <;> simp

/-- Below every key of `R`, a prefix of the insertion into `C` is a prefix of the insertion
into `C ++ R`. -/
theorem take_insertList_prefix {k : κ} (v : ν) (C : List (κ × ν)) {R : List (κ × ν)}
    (h : ∀ e ∈ R, k < e.1) (n : ℕ) : (insertList k v C).take n <+: insertList k v (C ++ R) := by
  rw [insertList_append_of_forall_lt v C h]
  exact (List.take_prefix _ _).trans (List.prefix_append _ _)

/-- Above every key of `C`, the insertion into `C ++ R` keeps `C` in front. -/
theorem prefix_insertList_of_lt {k : κ} (v : ν) {C : List (κ × ν)} (R : List (κ × ν))
    (h : ∀ e ∈ C, e.1 < k) : C <+: insertList k v (C ++ R) := by
  rw [insertList_append_of_forall_gt v R h]
  exact List.prefix_append _ _

/-- Every key of a sorted list is at most that of its last entry. -/
theorem le_of_pairwise_concat {init : List (κ × ν)} {x : κ × ν}
    (h : (init ++ [x]).Pairwise fun a b => a.1 < b.1) {e : κ × ν} (he : e ∈ init ++ [x]) :
    e.1 ≤ x.1 := by
  rcases List.mem_append.mp he with he | he
  · exact ((List.pairwise_append.mp h).2.2 e he x List.mem_cons_self).le
  · rw [List.mem_singleton.mp he]

/-! ## Removal -/

/-- `remove(k)` on the entries. -/
def eraseList (k : κ) (l : List (κ × ν)) : List (κ × ν) := l.filter fun e => e.1 ≠ k

@[simp] theorem eraseList_append (k : κ) (l r : List (κ × ν)) :
    eraseList k (l ++ r) = eraseList k l ++ eraseList k r := List.filter_append _ _

theorem eraseList_of_forall_ne {k : κ} {l : List (κ × ν)} (h : ∀ e ∈ l, e.1 ≠ k) :
    eraseList k l = l :=
  List.filter_eq_self.mpr fun e he => by simpa using h e he

theorem eraseList_sorted (k : κ) {l : List (κ × ν)} (hl : l.Pairwise fun a b => a.1 < b.1) :
    (eraseList k l).Pairwise fun a b => a.1 < b.1 :=
  hl.sublist List.filter_sublist

attribute [local simp] eraseList in
/-- In a sorted list an entry is the only one of its key: removing its key removes it. -/
theorem perm_cons_eraseList {k : κ} {v : ν} {l : List (κ × ν)}
    (hl : l.Pairwise fun a b => a.1 < b.1) (h : (k, v) ∈ l) : l.Perm ((k, v) :: eraseList k l) := by
  induction l with
  | nil => simp at h
  | cons e rest ih =>
    rw [List.pairwise_cons] at hl
    rcases List.mem_cons.mp h with rfl | h
    · -- The rest has larger keys only, so nothing of it is removed.
      have hrest : eraseList k rest = rest := eraseList_of_forall_ne fun e he => (hl.1 e he).ne'
      have hcons : eraseList k ((k, v) :: rest) = rest := by
        rw [eraseList, List.filter_cons_of_neg (by simp)]
        exact hrest
      rw [hcons]
    · have hne : e.1 ≠ k := (hl.1 _ h).ne
      have hcons : eraseList k (e :: rest) = e :: eraseList k rest := by simp [eraseList, hne]
      rw [hcons]
      exact ((ih hl.2 h).cons e).trans (List.Perm.swap _ _ _)

/-- A sorted list is determined by its entries. -/
theorem eq_of_mem_iff {l l' : List (κ × ν)} (hl : l.Pairwise fun a b => a.1 < b.1)
    (hl' : l'.Pairwise fun a b => a.1 < b.1) (h : ∀ e, e ∈ l ↔ e ∈ l') : l = l' := by
  have hnd : ∀ {m : List (κ × ν)}, (m.Pairwise fun a b => a.1 < b.1) → m.Nodup :=
    fun hm => hm.imp fun hab heq => (heq ▸ hab).false
  exact List.Perm.eq_of_pairwise (fun a b _ _ hab hba => absurd hab (not_lt.mpr hba.le)) hl hl'
    ((List.perm_ext_iff_of_nodup (hnd hl) (hnd hl')).mpr h)

/-! ## Lookup -/

/-- The value of `k` among the entries. -/
def getList (k : κ) (l : List (κ × ν)) : Option ν := (l.find? fun e => e.1 = k).map Prod.snd

@[simp] theorem getList_nil (k : κ) : getList k ([] : List (κ × ν)) = none := rfl

attribute [local simp] getList in
theorem getList_cons (k : κ) (e : κ × ν) (l : List (κ × ν)) :
    getList k (e :: l) = if e.1 = k then some e.2 else getList k l := by
  by_cases h : e.1 = k <;> simp [getList, h]

theorem mem_of_getList_eq_some {k : κ} {v : ν} {l : List (κ × ν)} (h : getList k l = some v) :
    (k, v) ∈ l := by
  obtain ⟨e, he, rfl⟩ := Option.map_eq_some_iff.mp h
  have hk : e.1 = k := by simpa using List.find?_some he
  rw [← hk]
  exact List.mem_of_find?_eq_some he

@[simp] theorem getList_cons_self (k : κ) (v : ν) (l : List (κ × ν)) :
    getList k ((k, v) :: l) = some v := by
  simp [getList_cons]

theorem getList_cons_of_ne {k : κ} {e : κ × ν} (h : e.1 ≠ k) (l : List (κ × ν)) :
    getList k (e :: l) = getList k l := by
  simp [getList_cons, h]

theorem getList_eq_none {k : κ} {l : List (κ × ν)} (h : ∀ e ∈ l, e.1 ≠ k) : getList k l = none := by
  simp only [getList, Option.map_eq_none_iff, List.find?_eq_none]
  intro e he
  simpa using h e he

theorem getList_of_forall_lt {k : κ} {l : List (κ × ν)} (h : ∀ e ∈ l, k < e.1) :
    getList k l = none :=
  getList_eq_none fun e he => (h e he).ne'

/-- In a sorted list an entry is found under its key. -/
theorem getList_eq_some_iff {l : List (κ × ν)} (hl : l.Pairwise fun a b => a.1 < b.1) (k : κ)
    (v : ν) : getList k l = some v ↔ (k, v) ∈ l := by
  induction l with
  | nil => simp
  | cons e l ih =>
    rw [List.pairwise_cons] at hl
    rw [getList_cons, List.mem_cons]
    by_cases he : e.1 = k
    · -- `k` is not in the rest, whose keys are above `e.1`.
      have hnot : (k, v) ∉ l := fun hk => (hl.1 _ hk).ne' (by simpa using he.symm)
      obtain ⟨k₀, v₀⟩ := e
      simp only at he
      subst he
      simp [hnot, eq_comm]
    · have hne : (k, v) ≠ e := fun h => he (by rw [← h])
      simp [he, hne, ih hl.2]

theorem getList_insertList (k' k : κ) (v : ν) (l : List (κ × ν)) :
    getList k' (insertList k v l) = if k' = k then some v else getList k' l := by
  induction l with
  | nil => by_cases h : k' = k <;> simp [insertList, getList_cons, h, eq_comm]
  | cons e l ih =>
    unfold insertList
    split_ifs with hlt heq hk' hk' <;>
      simp_all [getList_cons, eq_comm]

theorem getList_eraseList (k' k : κ) (l : List (κ × ν)) :
    getList k' (eraseList k l) = if k' = k then none else getList k' l := by
  induction l with
  | nil => simp [eraseList]
  | cons e l ih =>
    simp only [eraseList, List.filter_cons] at ih ⊢
    by_cases he : e.1 = k <;> by_cases hk : k' = k <;> by_cases hek : e.1 = k' <;>
      simp_all [getList_cons]

/-! ## The map -/

/-- `BTreeMap::insert`. -/
def insert (m : SortedMap κ ν) (k : κ) (v : ν) : SortedMap κ ν :=
  ⟨insertList k v m.entries, insertList_sorted k v m.sorted⟩

/-- `BTreeMap::remove`. -/
def erase (m : SortedMap κ ν) (k : κ) : SortedMap κ ν :=
  ⟨eraseList k m.entries, eraseList_sorted k m.sorted⟩

/-- `BTreeMap::retain`. -/
def retain (m : SortedMap κ ν) (p : κ → Bool) : SortedMap κ ν :=
  ⟨m.entries.filter fun e => p e.1, m.sorted.sublist List.filter_sublist⟩

/-- `BTreeMap::len`. -/
def len (m : SortedMap κ ν) : ℕ := m.entries.length

/-- `BTreeMap::is_empty`. -/
def isEmpty (m : SortedMap κ ν) : Bool := m.entries.isEmpty

/-- `BTreeMap::first_key_value`. -/
def first? (m : SortedMap κ ν) : Option (κ × ν) := m.entries.head?

/-- `BTreeMap::last_key_value`. -/
def last? (m : SortedMap κ ν) : Option (κ × ν) := m.entries.getLast?

/-- The map without its first entry. -/
def tail (m : SortedMap κ ν) : SortedMap κ ν := ⟨m.entries.tail, m.sorted.sublist (List.tail_sublist _)⟩

/-- The map without its last entry. -/
def dropLast (m : SortedMap κ ν) : SortedMap κ ν :=
  ⟨m.entries.dropLast, m.sorted.sublist (List.dropLast_sublist _)⟩

/-- `BTreeMap::pop_first`. -/
def popFirst (m : SortedMap κ ν) : Option ((κ × ν) × SortedMap κ ν) := m.first?.map fun e => (e, m.tail)

/-- `BTreeMap::pop_last`, and `last_entry().remove_entry()`. -/
def popLast (m : SortedMap κ ν) : Option ((κ × ν) × SortedMap κ ν) := m.last?.map fun e => (e, m.dropLast)

/-- `range(k..).count()`: the entries at or above `k`. -/
def countFrom (m : SortedMap κ ν) (k : κ) : ℕ := m.entries.countP fun e => k ≤ e.1

/-- `BTreeMap::get`. -/
def get? (m : SortedMap κ ν) (k : κ) : Option ν := getList k m.entries

/-- The values, as a multiset. -/
def values (m : SortedMap κ ν) : Multiset ν := (m.entries.map Prod.snd : List ν)

@[ext] theorem ext {m m' : SortedMap κ ν} (h : m.entries = m'.entries) : m = m' := by
  cases m; cases m'; cases h; rfl

@[simp] theorem insert_entries (m : SortedMap κ ν) (k : κ) (v : ν) :
    (m.insert k v).entries = insertList k v m.entries := rfl
@[simp] theorem erase_entries (m : SortedMap κ ν) (k : κ) :
    (m.erase k).entries = eraseList k m.entries := rfl
@[simp] theorem retain_entries (m : SortedMap κ ν) (p : κ → Bool) :
    (m.retain p).entries = m.entries.filter fun e => p e.1 := rfl
@[simp] theorem tail_entries (m : SortedMap κ ν) : m.tail.entries = m.entries.tail := rfl
@[simp] theorem dropLast_entries (m : SortedMap κ ν) : m.dropLast.entries = m.entries.dropLast := rfl
@[simp] theorem empty_entries : (empty : SortedMap κ ν).entries = [] := rfl
theorem len_eq (m : SortedMap κ ν) : m.len = m.entries.length := rfl
theorem isEmpty_eq (m : SortedMap κ ν) : m.isEmpty = m.entries.isEmpty := rfl
theorem first?_eq (m : SortedMap κ ν) : m.first? = m.entries.head? := rfl
theorem last?_eq (m : SortedMap κ ν) : m.last? = m.entries.getLast? := rfl

theorem isEmpty_of_entries_eq_nil {m : SortedMap κ ν} (h : m.entries = []) : m.isEmpty = true := by
  simp [isEmpty, h]

attribute [local simp] popFirst in
theorem popFirst_of_entries_eq_cons {m : SortedMap κ ν} {e : κ × ν} {rest : List (κ × ν)}
    (h : m.entries = e :: rest) : m.popFirst = some (e, m.tail) := by
  simp [popFirst, first?, h]

theorem popFirst_of_entries_eq_nil {m : SortedMap κ ν} (h : m.entries = []) : m.popFirst = none := by
  simp [popFirst, first?, h]

attribute [local simp] popLast in
theorem popLast_of_entries_eq_concat {m : SortedMap κ ν} {e : κ × ν} {init : List (κ × ν)}
    (h : m.entries = init ++ [e]) : m.popLast = some (e, m.dropLast) := by
  simp [popLast, last?, h]

theorem popLast_of_entries_eq_nil {m : SortedMap κ ν} (h : m.entries = []) : m.popLast = none := by
  simp [popLast, last?, h]

attribute [local simp] values in
/-- Inserting a new key adds its value. -/
theorem values_insert (m : SortedMap κ ν) {k : κ} (v : ν) (h : ∀ e ∈ m.entries, e.1 ≠ k) :
    (m.insert k v).values = v ::ₘ m.values := by
  simpa [values] using ((insertList_perm v h).map Prod.snd)

/-- Removing a present entry removes its value. -/
theorem values_erase (m : SortedMap κ ν) [DecidableEq ν] {k : κ} {v : ν} (h : (k, v) ∈ m.entries) :
    (m.erase k).values = Multiset.erase m.values v := by
  have hp := (perm_cons_eraseList m.sorted h).map Prod.snd
  rw [values, values, Multiset.coe_eq_coe.mpr hp]
  simp

theorem mem_foldl_erase (l : List (κ × ν)) (m : SortedMap κ ν) (e : κ × ν) :
    e ∈ (l.foldl (fun t x => t.erase x.1) m).entries ↔ e ∈ m.entries ∧ ∀ x ∈ l, e.1 ≠ x.1 := by
  induction l generalizing m with
  | nil => simp
  | cons x l ih =>
    simp only [List.foldl_cons, ih, erase_entries, eraseList, List.mem_filter, List.mem_cons,
      forall_eq_or_imp]
    simp only [decide_eq_true_eq]
    tauto

/-- Inserting a new key adds one entry. -/
theorem len_insert (m : SortedMap κ ν) {k : κ} (v : ν) (h : ∀ e ∈ m.entries, e.1 ≠ k) :
    (m.insert k v).len = m.len + 1 := by
  simp [len, (insertList_perm v h).length_eq]

theorem values_dropLast [DecidableEq ν] {m : SortedMap κ ν} {init : List (κ × ν)} {e : κ × ν}
    (h : m.entries = init ++ [e]) : m.dropLast.values = Multiset.erase m.values e.2 := by
  have hp : (m.entries.map Prod.snd).Perm (e.2 :: init.map Prod.snd) := by
    simp [h]
  rw [values, values, Multiset.coe_eq_coe.mpr hp]
  simp [h]

theorem values_tail [DecidableEq ν] {m : SortedMap κ ν} {e : κ × ν} {rest : List (κ × ν)}
    (h : m.entries = e :: rest) : m.tail.values = Multiset.erase m.values e.2 := by
  simp [values, h]

/-- Inserting entries in increasing key order, each above the map's keys, appends them. -/
theorem foldl_insert_of_sorted {l : List (κ × ν)} (m : SortedMap κ ν)
    (h : (m.entries ++ l).Pairwise fun a b => a.1 < b.1) :
    (l.foldl (fun m e => m.insert e.1 e.2) m).entries = m.entries ++ l := by
  induction l generalizing m with
  | nil => simp
  | cons e l ih =>
    have hlt : ∀ x ∈ m.entries, x.1 < e.1 :=
      fun x hx => (List.pairwise_append.mp h).2.2 x hx e List.mem_cons_self
    have hins : (m.insert e.1 e.2).entries = m.entries ++ [e] := insertList_of_forall_gt e.2 hlt
    rw [List.foldl_cons, ih _ (by rw [hins, List.append_assoc]; exact h), hins, List.append_assoc,
      List.singleton_append]

/-! ## Lookup in the map -/

@[simp] theorem get?_insert (m : SortedMap κ ν) (k k' : κ) (v : ν) :
    (m.insert k v).get? k' = if k' = k then some v else m.get? k' :=
  getList_insertList k' k v m.entries

@[simp] theorem get?_erase (m : SortedMap κ ν) (k k' : κ) :
    (m.erase k).get? k' = if k' = k then none else m.get? k' :=
  getList_eraseList k' k m.entries

@[simp] theorem get?_empty (k : κ) : (empty : SortedMap κ ν).get? k = none := rfl

theorem get?_eq_some_iff (m : SortedMap κ ν) (k : κ) (v : ν) :
    m.get? k = some v ↔ (k, v) ∈ m.entries :=
  getList_eq_some_iff m.sorted k v

/-- Two maps that agree on every key are equal. -/
theorem ext_get? {m m' : SortedMap κ ν} (h : ∀ k, m.get? k = m'.get? k) : m = m' := by
  apply ext
  apply eq_of_mem_iff m.sorted m'.sorted
  intro e
  rw [← get?_eq_some_iff, ← get?_eq_some_iff, h]

theorem getList_filter (p : κ → Bool) (k : κ) (l : List (κ × ν)) :
    getList k (l.filter fun e => p e.1) = if p k then getList k l else none := by
  induction l with
  | nil => simp
  | cons e l ih =>
    rw [List.filter_cons]
    by_cases he : e.1 = k
    · subst he
      by_cases hp : p e.1 <;> simp [hp, getList_cons, ih]
    · split <;> simp [getList_cons, he, ih]

theorem getList_append (k : κ) (l l' : List (κ × ν)) :
    getList k (l ++ l') = (getList k l).or (getList k l') := by
  simp only [getList, List.find?_append, Option.map_or]

/-- Reading a list backwards finds the same values when its keys are distinct. -/
theorem getList_reverse {l : List (κ × ν)} (hl : l.Pairwise fun a b => a.1 ≠ b.1) (k : κ) :
    getList k l.reverse = getList k l := by
  induction l with
  | nil => rfl
  | cons e l ih =>
    rw [List.pairwise_cons] at hl
    rw [List.reverse_cons, getList_append, ih hl.2, getList_cons, getList_cons, getList_nil]
    by_cases he : e.1 = k
    · -- `k` is not among the other keys
      have hnone : getList k l = none := getList_eq_none fun e' he' => he ▸ (hl.1 e' he').symm
      simp [he, hnone]
    · simp [he]

/-! ## The first entry in an order -/

/-- `o` is the first entry of the partial map `f` in the strict order `r`, and `none` when `f`
has no entry. -/
def IsFirstEntry (r : κ → κ → Prop) (f : κ → Option ν) : Option (κ × ν) → Prop
  | none => ∀ k, f k = none
  | some (k, v) => f k = some v ∧ ∀ k', f k' ≠ none → k' ≠ k → r k k'

variable {r : κ → κ → Prop}

/-- The head of a list sorted by `r` is its first entry. -/
theorem isFirstEntry_head? {l : List (κ × ν)} (hl : l.Pairwise fun a b => r a.1 b.1) :
    IsFirstEntry r (fun k => getList k l) l.head? := by
  cases l with
  | nil => intro k; rfl
  | cons e l =>
    refine ⟨getList_cons_self e.1 e.2 l, fun k' hk' hne => ?_⟩
    change getList k' (e :: l) ≠ none at hk'
    rw [getList_cons_of_ne (Ne.symm hne)] at hk'
    obtain ⟨v, hv⟩ := Option.ne_none_iff_exists'.mp hk'
    exact (List.pairwise_cons.mp hl).1 _ (mem_of_getList_eq_some hv)

/-- An asymmetric order has one first entry. -/
theorem IsFirstEntry.unique (hasymm : ∀ a b, r a b → ¬r b a) {f : κ → Option ν}
    {o o' : Option (κ × ν)} (h : IsFirstEntry r f o) (h' : IsFirstEntry r f o') : o = o' := by
  rcases o with _ | ⟨k, v⟩ <;> rcases o' with _ | ⟨k', v'⟩ <;> simp only [IsFirstEntry] at h h'
  · rfl
  · simp [h k'] at h'
  · simp [h' k] at h
  · by_cases hk : k' = k
    · subst hk
      rw [h.1, Option.some.injEq] at h'
      rw [h'.1]
    · have hkk' := h.2 k' (by simp [h'.1]) hk
      have hk'k := h'.2 k (by simp [h.1]) (Ne.symm hk)
      exact absurd hk'k (hasymm _ _ hkk')

/-- A list sorted by an asymmetric `r` has its head as the first entry of any `f` it reads. -/
theorem IsFirstEntry.eq_head? (hasymm : ∀ a b, r a b → ¬r b a) {l : List (κ × ν)}
    (hl : l.Pairwise fun a b => r a.1 b.1) {o : Option (κ × ν)}
    (h : IsFirstEntry r (fun k => getList k l) o) : o = l.head? :=
  h.unique hasymm (isFirstEntry_head? hl)

/-! ## Around an entry -/

/-- In a sorted list, the entries from the `i`-th on are those at or above its key. -/
theorem filter_le_eq_drop {l : List (κ × ν)} (hl : l.Pairwise fun a b => a.1 < b.1) {i : ℕ}
    {e : κ × ν} (he : l[i]? = some e) : l.filter (fun x => e.1 ≤ x.1) = l.drop i := by
  induction l generalizing i with
  | nil => simp at he
  | cons x l ih =>
    rw [List.pairwise_cons] at hl
    cases i with
    | zero =>
      -- `e` is the head, below every other key
      simp only [List.getElem?_cons_zero, Option.some.injEq] at he
      subst he
      rw [List.filter_cons_of_pos (by simp), List.filter_eq_self.mpr fun y hy => by
        simpa using (hl.1 y hy).le]
      rfl
    | succ i =>
      have hlt : x.1 < e.1 := hl.1 e (List.mem_of_getElem? he)
      rw [List.filter_cons_of_neg (by simpa using hlt), ih hl.2 he]
      rfl

/-- In a sorted list, the entries up to the `i`-th are those at or below its key. -/
theorem filter_ge_eq_take {l : List (κ × ν)} (hl : l.Pairwise fun a b => a.1 < b.1) {i : ℕ}
    {e : κ × ν} (he : l[i]? = some e) : l.filter (fun x => x.1 ≤ e.1) = l.take (i + 1) := by
  induction l generalizing i with
  | nil => simp at he
  | cons x l ih =>
    rw [List.pairwise_cons] at hl
    cases i with
    | zero =>
      simp only [List.getElem?_cons_zero, Option.some.injEq] at he
      subst he
      rw [List.filter_cons_of_pos (by simp), List.filter_eq_nil_iff.mpr fun y hy => by
        simpa using hl.1 y hy]
      rfl
    | succ i =>
      have hlt : x.1 < e.1 := hl.1 e (List.mem_of_getElem? he)
      rw [List.filter_cons_of_pos (by simpa using hlt.le), ih hl.2 he]
      rfl

end SortedMap
