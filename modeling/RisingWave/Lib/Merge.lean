import Mathlib

/-!
# Merging sorted sources by priority

Sources are numbered lists of key-value entries, keys strictly ascending within
a source. Their merge lists every key of every source once, keys strictly
ascending, each with its value in the source of least number that has the key.

`IsMerge S out` says that `out` is the merge of `S`, as a property: a list with
strictly ascending keys is fixed by the entries it holds. A merge is built one
entry at a time (`isMerge_cons`): the least key of all sources with its first
value, in front of the merge of the sources with that key removed.
-/

namespace Merge

variable {κ ν : Type*} [LinearOrder κ]

/-- The keys of all sources. -/
def keys (S : List (ℕ × List (κ × ν))) : List κ := S.flatMap fun s => s.2.map Prod.fst

/-- `v` is the value of `k` in the source of least number that has `k`. -/
def FirstValue (S : List (ℕ × List (κ × ν))) (k : κ) (v : ν) : Prop :=
  ∃ i l, (i, l) ∈ S ∧ (k, v) ∈ l ∧ ∀ j l', (j, l') ∈ S → k ∈ l'.map Prod.fst → i ≤ j

/-- Sources with distinct numbers, keys strictly ascending in each. -/
structure WellFormed (S : List (ℕ × List (κ × ν))) : Prop where
  nodup : (S.map Prod.fst).Nodup
  sorted : ∀ s ∈ S, (s.2.map Prod.fst).Pairwise (· < ·)

/-- `out` is the merge of `S`. -/
def IsMerge (S : List (ℕ × List (κ × ν))) (out : List (κ × ν)) : Prop :=
  (out.map Prod.fst).Pairwise (· < ·) ∧ ∀ k v, (k, v) ∈ out ↔ FirstValue S k v

omit [LinearOrder κ] in
theorem mem_keys {S : List (ℕ × List (κ × ν))} {k : κ} :
    k ∈ keys S ↔ ∃ s ∈ S, k ∈ s.2.map Prod.fst := by
  simp [keys]

omit [LinearOrder κ] in
theorem FirstValue.mem_keys {S : List (ℕ × List (κ × ν))} {k : κ} {v : ν}
    (h : FirstValue S k v) : k ∈ keys S := by
  obtain ⟨i, l, hs, hkv, -⟩ := h
  exact Merge.mem_keys.mpr ⟨(i, l), hs, List.mem_map.mpr ⟨(k, v), hkv, rfl⟩⟩

/-- A source with strictly ascending keys has each key at most once. -/
theorem eq_of_mem_of_sorted {l : List (κ × ν)} (hl : (l.map Prod.fst).Pairwise (· < ·))
    {k : κ} {v v' : ν} (h : (k, v) ∈ l) (h' : (k, v') ∈ l) : v = v' := by
  induction l with
  | nil => simp at h
  | cons e l ih =>
    rw [List.map_cons, List.pairwise_cons] at hl
    rcases List.mem_cons.mp h with rfl | h <;> rcases List.mem_cons.mp h' with he | h'
    · exact (Prod.mk.inj he).2.symm
    · exact absurd (hl.1 k (List.mem_map.mpr ⟨_, h', rfl⟩)) (lt_irrefl k)
    · exact absurd (hl.1 k (List.mem_map.mpr ⟨_, h, rfl⟩)) (by rw [← he]; exact lt_irrefl k)
    · exact ih hl.2 h h'

/-- In well-formed sources a key has one first value. -/
theorem FirstValue.unique {S : List (ℕ × List (κ × ν))} (hS : WellFormed S) {k : κ} {v v' : ν}
    (h : FirstValue S k v) (h' : FirstValue S k v') : v = v' := by
  obtain ⟨i, l, hs, hkv, hmin⟩ := h
  obtain ⟨i', l', hs', hkv', hmin'⟩ := h'
  have hi : i = i' := Nat.le_antisymm (hmin i' l' hs' (List.mem_map.mpr ⟨_, hkv', rfl⟩))
    (hmin' i l hs (List.mem_map.mpr ⟨_, hkv, rfl⟩))
  subst hi
  -- One number, one source.
  have hl : l = l' := by
    have := List.inj_on_of_nodup_map hS.nodup hs hs' rfl
    exact (Prod.mk.inj this).2
  subst hl
  exact eq_of_mem_of_sorted (hS.sorted _ hs) hkv hkv'

attribute [local simp] FirstValue in
omit [LinearOrder κ] in
theorem FirstValue.perm {S S' : List (ℕ × List (κ × ν))} (hp : S.Perm S') {k : κ} {v : ν} :
    FirstValue S k v ↔ FirstValue S' k v := by
  simp only [FirstValue, hp.mem_iff]

theorem WellFormed.perm {S S' : List (ℕ × List (κ × ν))} (hS : WellFormed S)
    (hp : S.Perm S') : WellFormed S' :=
  ⟨(hp.map _).nodup_iff.mp hS.nodup, fun s hs => hS.sorted s (hp.mem_iff.mpr hs)⟩

theorem WellFormed.sublist {S S' : List (ℕ × List (κ × ν))} (hS : WellFormed S)
    (h : S'.Sublist S) : WellFormed S' :=
  ⟨hS.nodup.sublist (h.map _), fun s hs => hS.sorted s (h.subset hs)⟩

/-- In a sorted source the first key is the least. -/
theorem le_of_mem_of_sorted_cons {k k' : κ} {v : ν} {l : List (κ × ν)}
    (hl : (((k, v) :: l).map Prod.fst).Pairwise (· < ·))
    (hk : k' ∈ ((k, v) :: l).map Prod.fst) : k ≤ k' := by
  rw [List.map_cons, List.pairwise_cons] at hl
  rcases List.mem_cons.mp hk with rfl | hk
  · exact le_rfl
  · exact (hl.1 k' hk).le

omit [LinearOrder κ] in
/-- Every key of the sources has a first value. -/
theorem exists_firstValue {S : List (ℕ × List (κ × ν))} {k : κ} (hk : k ∈ keys S) :
    ∃ v, FirstValue S k v := by
  classical
  -- The least number of a source that has `k`.
  have hex : ∃ i, ∃ l, (i, l) ∈ S ∧ k ∈ l.map Prod.fst := by
    obtain ⟨⟨i, l⟩, hs, hkl⟩ := Merge.mem_keys.mp hk
    exact ⟨i, l, hs, hkl⟩
  obtain ⟨l, hs, hkl⟩ := Nat.find_spec hex
  obtain ⟨⟨_, v⟩, hkv, rfl⟩ := List.mem_map.mp hkl
  exact ⟨v, _, l, hs, hkv, fun j l' hs' hk' => Nat.find_min' hex ⟨l', hs', hk'⟩⟩

/-- A merge holds every key of its sources, and no other. -/
theorem IsMerge.mem_keys_iff {S : List (ℕ × List (κ × ν))} {out : List (κ × ν)}
    (h : IsMerge S out) {k : κ} : k ∈ out.map Prod.fst ↔ k ∈ keys S := by
  constructor
  · intro hk
    obtain ⟨⟨_, v⟩, hkv, rfl⟩ := List.mem_map.mp hk
    exact ((h.2 _ v).mp hkv).mem_keys
  · intro hk
    obtain ⟨v, hv⟩ := exists_firstValue hk
    exact List.mem_map.mpr ⟨(k, v), (h.2 k v).mpr hv, rfl⟩

theorem isMerge_nil {S : List (ℕ × List (κ × ν))} (h : keys S = []) : IsMerge S [] := by
  refine ⟨List.Pairwise.nil, fun k v => ⟨fun h => by simp at h, fun hv => ?_⟩⟩
  have := hv.mem_keys
  rw [h] at this
  simp at this

theorem IsMerge.perm {S S' : List (ℕ × List (κ × ν))} (hp : S.Perm S') {out : List (κ × ν)}
    (h : IsMerge S out) : IsMerge S' out :=
  ⟨h.1, fun k v => (h.2 k v).trans (FirstValue.perm hp)⟩

omit [LinearOrder κ] in
/-- Empty sources do not change a merge. -/
theorem firstValue_filter_ne_nil {S : List (ℕ × List (κ × ν))} {k : κ} {v : ν} :
    FirstValue (S.filter fun s => s.2 ≠ []) k v ↔ FirstValue S k v := by
  simp only [FirstValue, List.mem_filter, decide_eq_true_eq]
  constructor
  · rintro ⟨i, l, ⟨hs, -⟩, hkv, hmin⟩
    exact ⟨i, l, hs, hkv, fun j l' hs' hk => hmin j l' ⟨hs', List.ne_nil_of_mem
      (List.mem_map.mp hk).choose_spec.1⟩ hk⟩
  · rintro ⟨i, l, hs, hkv, hmin⟩
    exact ⟨i, l, ⟨hs, List.ne_nil_of_mem hkv⟩, hkv, fun j l' hs' hk => hmin j l' hs'.1 hk⟩

theorem isMerge_filter_ne_nil {S : List (ℕ × List (κ × ν))} {out : List (κ × ν)} :
    IsMerge (S.filter fun s => s.2 ≠ []) out ↔ IsMerge S out := by
  simp only [IsMerge, firstValue_filter_ne_nil]

/-! ## Taking out the least key -/

/-- A source without its entries of key `k`, gone when left empty. -/
def dropKey (k : κ) (s : ℕ × List (κ × ν)) : Option (ℕ × List (κ × ν)) :=
  let l := s.2.filter fun e => e.1 ≠ k
  if l = [] then none else some (s.1, l)

/-- The sources without the entries of key `k`, dropping those left empty. -/
def removeKey (k : κ) (S : List (ℕ × List (κ × ν))) : List (ℕ × List (κ × ν)) :=
  S.filterMap (dropKey k)

attribute [local simp] dropKey in
/-- A source that starts at `k` loses its first entry. -/
theorem dropKey_cons_self {k : κ} {v : ν} {r : List (κ × ν)} (i : ℕ) (hr : ∀ e ∈ r, k < e.1) :
    dropKey k (i, (k, v) :: r) = if r = [] then none else some (i, r) := by
  have hkeep : r.filter (fun e => e.1 ≠ k) = r :=
    List.filter_eq_self.mpr fun e he => by simpa using (hr e he).ne'
  simp only [dropKey]
  rw [List.filter_cons_of_neg (by simp), hkeep]

/-- A source above `k` stays as it is. -/
theorem dropKey_of_lt {k : κ} {l : List (κ × ν)} (i : ℕ) (hl : l ≠ []) (h : ∀ e ∈ l, k < e.1) :
    dropKey k (i, l) = some (i, l) := by
  have hkeep : l.filter (fun e => e.1 ≠ k) = l :=
    List.filter_eq_self.mpr fun e he => by simpa using (h e he).ne'
  simp only [dropKey]
  rw [hkeep, if_neg hl]

attribute [local simp] removeKey in
theorem mem_removeKey {k : κ} {S : List (ℕ × List (κ × ν))} {i : ℕ} {l : List (κ × ν)} :
    (i, l) ∈ removeKey k S ↔
      ∃ m, (i, m) ∈ S ∧ l = m.filter (fun e => e.1 ≠ k) ∧ l ≠ [] := by
  simp only [removeKey, dropKey, List.mem_filterMap]
  constructor
  · rintro ⟨⟨j, m⟩, hs, h⟩
    split at h
    · exact absurd h (by simp)
    · next hne =>
      obtain ⟨rfl, rfl⟩ := Prod.mk.inj (Option.some.inj h)
      exact ⟨m, hs, rfl, hne⟩
  · rintro ⟨m, hs, rfl, hne⟩
    exact ⟨(i, m), hs, by simp only [hne, ↓reduceIte]⟩

theorem mem_keys_removeKey {k k' : κ} {S : List (ℕ × List (κ × ν))} :
    k' ∈ keys (removeKey k S) ↔ k' ∈ keys S ∧ k' ≠ k := by
  simp only [Merge.mem_keys, List.mem_map]
  constructor
  · rintro ⟨⟨i, l⟩, hs, ⟨e, he, rfl⟩⟩
    obtain ⟨m, hm, rfl, -⟩ := mem_removeKey.mp hs
    obtain ⟨he, hne⟩ := List.mem_filter.mp he
    exact ⟨⟨(i, m), hm, e, he, rfl⟩, of_decide_eq_true hne⟩
  · rintro ⟨⟨⟨i, m⟩, hm, ⟨e, he, rfl⟩⟩, hne⟩
    have hef : e ∈ m.filter fun e => e.1 ≠ k := List.mem_filter.mpr ⟨he, decide_eq_true hne⟩
    exact ⟨(i, m.filter fun e => e.1 ≠ k),
      mem_removeKey.mpr ⟨m, hm, rfl, List.ne_nil_of_mem hef⟩, e, hef, rfl⟩

/-- Taking out `k` leaves the first value of every other key. -/
theorem firstValue_removeKey {k k' : κ} (hk : k' ≠ k) {S : List (ℕ × List (κ × ν))} {v : ν} :
    FirstValue (removeKey k S) k' v ↔ FirstValue S k' v := by
  -- A source has `k'` before the removal exactly when it has it after.
  have hkeep : ∀ m : List (κ × ν), ∀ v, (k', v) ∈ m.filter (fun e => e.1 ≠ k) ↔ (k', v) ∈ m :=
    fun m v => by simp [List.mem_filter, hk]
  have hkeep' : ∀ m : List (κ × ν),
      k' ∈ (m.filter fun e => e.1 ≠ k).map Prod.fst ↔ k' ∈ m.map Prod.fst := fun m => by
    simp only [List.mem_map, Prod.exists, exists_and_right, exists_eq_right]
    exact exists_congr fun v => hkeep m v
  constructor
  · rintro ⟨i, l, hs, hkv, hmin⟩
    obtain ⟨m, hm, rfl, -⟩ := mem_removeKey.mp hs
    refine ⟨i, m, hm, (hkeep m v).mp hkv, fun j m' hm' hk' => hmin j _ ?_ ((hkeep' m').mpr hk')⟩
    exact mem_removeKey.mpr ⟨m', hm', rfl, fun h => by
      have := (hkeep' m').mpr hk'
      rw [h] at this
      simp at this⟩
  · rintro ⟨i, m, hm, hkv, hmin⟩
    have hf := (hkeep m v).mpr hkv
    refine ⟨i, _, mem_removeKey.mpr ⟨m, hm, rfl, List.ne_nil_of_mem hf⟩, hf,
      fun j l' hs' hk' => ?_⟩
    obtain ⟨m', hm', rfl, -⟩ := mem_removeKey.mp hs'
    exact hmin j m' hm' ((hkeep' m').mp hk')

theorem WellFormed.removeKey {S : List (ℕ × List (κ × ν))} (hS : WellFormed S) (k : κ) :
    WellFormed (removeKey k S) := by
  refine ⟨?_, fun s hs => ?_⟩
  · -- The numbers left are a sublist of the numbers before.
    have hsub : ((Merge.removeKey k S).map Prod.fst).Sublist (S.map Prod.fst) := by
      clear hS
      induction S with
      | nil => simp [Merge.removeKey]
      | cons s S ih =>
        simp only [Merge.removeKey, Merge.dropKey, List.filterMap_cons] at ih ⊢
        split
        · exact ih.cons _
        · next b hb =>
          have hfst : b.1 = s.1 := by
            split at hb
            · exact absurd hb (by simp)
            · rw [← Option.some.inj hb]
          rw [List.map_cons, List.map_cons, hfst]
          exact ih.cons_cons _
    exact hS.nodup.sublist hsub
  · obtain ⟨i, l⟩ := s
    obtain ⟨m, hm, rfl, -⟩ := mem_removeKey.mp hs
    exact (hS.sorted _ hm).sublist (List.Sublist.map _ List.filter_sublist)

/-- One step of a merge: the least key with its first value, then the merge of
the sources without that key. -/
theorem isMerge_cons {S : List (ℕ × List (κ × ν))} (hS : WellFormed S) {k : κ} {v : ν}
    {out : List (κ × ν)} (hfirst : FirstValue S k v) (hmin : ∀ k' ∈ keys S, k ≤ k')
    (hout : IsMerge (removeKey k S) out) : IsMerge S ((k, v) :: out) := by
  obtain ⟨hsorted, hmem⟩ := hout
  -- Every key after the first is a key of `S` other than `k`.
  have hlater : ∀ k' ∈ out.map Prod.fst, k < k' := by
    intro k' hk'
    obtain ⟨⟨_, v'⟩, hkv, rfl⟩ := List.mem_map.mp hk'
    obtain ⟨hkS, hne⟩ := mem_keys_removeKey.mp ((hmem _ v').mp hkv).mem_keys
    exact lt_of_le_of_ne (hmin _ hkS) (Ne.symm hne)
  refine ⟨List.pairwise_cons.mpr ⟨hlater, hsorted⟩, fun k' v' => ?_⟩
  rw [List.mem_cons, hmem]
  by_cases hk : k' = k
  · subst hk
    -- `k` is no key of the rest: the pair is the first one.
    have hnot : ¬ FirstValue (removeKey k' S) k' v' := fun h =>
      (mem_keys_removeKey.mp h.mem_keys).2 rfl
    simp only [Prod.mk.injEq, true_and, hnot, or_false]
    exact ⟨fun h => h ▸ hfirst, fun h => hfirst.unique hS h |>.symm⟩
  · simp only [Prod.mk.injEq, hk, false_and, false_or]
    exact firstValue_removeKey hk

end Merge
