import Mathlib

/-!
# Index ranges

The indices `s, s + 1, …, s + n - 1` of a list, as `List.range' s n`. Filtering them by a
predicate that is constant on the pieces of a split in three (`filter_range'_gap`,
`filter_range'_window`), and reading a list at them: a slice of a list is the list read at the
slice's indices (`map_take_drop`).
-/

namespace IndexRange

variable {α β : Type*}

theorem range'_split3 {s m k n : ℕ} (h : m + k ≤ n) :
    List.range' s n =
      List.range' s m ++ List.range' (s + m) k ++ List.range' (s + m + k) (n - m - k) := by
  rw [List.range'_append_1, show s + m + k = s + (m + k) by omega, List.range'_append_1]
  congr 1
  omega

theorem filter_range'_of_true {p : ℕ → Bool} {s n : ℕ}
    (h : ∀ i, s ≤ i → i < s + n → p i = true) : (List.range' s n).filter p = List.range' s n :=
  List.filter_eq_self.mpr fun i hi => h i (List.mem_range'_1.mp hi).1 (List.mem_range'_1.mp hi).2

theorem filter_range'_of_false {p : ℕ → Bool} {s n : ℕ}
    (h : ∀ i, s ≤ i → i < s + n → p i = false) : (List.range' s n).filter p = [] :=
  List.filter_eq_nil_iff.mpr fun i hi => by
    rw [h i (List.mem_range'_1.mp hi).1 (List.mem_range'_1.mp hi).2]
    exact Bool.false_ne_true

/-- Filtering by a predicate that fails exactly on `[s + m, s + m + k)` removes that piece. -/
theorem filter_range'_gap {p : ℕ → Bool} {s n : ℕ} (m k : ℕ) (hmk : m + k ≤ n)
    (h : ∀ i, s ≤ i → i < s + n → (p i = true ↔ i < s + m ∨ s + m + k ≤ i)) :
    (List.range' s n).filter p = List.range' s m ++ List.range' (s + m + k) (n - m - k) := by
  rw [range'_split3 hmk, List.filter_append, List.filter_append]
  have h₁ : (List.range' s m).filter p = List.range' s m :=
    filter_range'_of_true fun i hs hi => (h i hs (by omega)).mpr (Or.inl hi)
  have h₂ : (List.range' (s + m) k).filter p = [] :=
    filter_range'_of_false fun i hs hi => by
      rw [← Bool.not_eq_true, h i (by omega) (by omega)]
      omega
  have h₃ : (List.range' (s + m + k) (n - m - k)).filter p = List.range' (s + m + k) (n - m - k) :=
    filter_range'_of_true fun i hs hi => (h i (by omega) (by omega)).mpr (Or.inr hs)
  rw [h₁, h₂, h₃, List.append_nil]

/-- Filtering by a predicate that holds only on `[s + m, s + m + k)`, and there as `q` does. -/
theorem filter_range'_window {p q : ℕ → Bool} {s n : ℕ} (m k : ℕ) (hmk : m + k ≤ n)
    (h : ∀ i, s ≤ i → i < s + n → p i = (decide (s + m ≤ i ∧ i < s + m + k) && q i)) :
    (List.range' s n).filter p = (List.range' (s + m) k).filter q := by
  rw [range'_split3 hmk, List.filter_append, List.filter_append]
  have h₁ : (List.range' s m).filter p = [] :=
    filter_range'_of_false fun i hs hi => by
      rw [h i hs (by omega)]
      simp only [Bool.and_eq_false_iff, decide_eq_false_iff_not]
      omega
  have h₂ : (List.range' (s + m) k).filter p = (List.range' (s + m) k).filter q :=
    List.filter_congr fun i hi => by
      obtain ⟨hs, hi⟩ := List.mem_range'_1.mp hi
      rw [h i (by omega) (by omega), decide_eq_true (⟨hs, hi⟩ : s + m ≤ i ∧ i < s + m + k),
        Bool.true_and]
  have h₃ : (List.range' (s + m + k) (n - m - k)).filter p = [] :=
    filter_range'_of_false fun i hs hi => by
      rw [h i (by omega) (by omega)]
      simp only [Bool.and_eq_false_iff, decide_eq_false_iff_not]
      omega
  rw [h₁, h₂, h₃, List.nil_append, List.append_nil]

/-- A slice of a list is the list read at the slice's indices. -/
theorem map_take_drop (f : α → β) (l : List α) {s n : ℕ} (h : s + n ≤ l.length) :
    ((l.drop s).take n).map f = (List.range' s n).filterMap fun i => l[i]?.map f := by
  induction n generalizing s with
  | zero => simp
  | succ n ih =>
    rw [List.drop_eq_getElem_cons (by omega), List.take_succ_cons, List.map_cons,
      List.range'_succ, List.filterMap_cons, List.getElem?_eq_getElem (by omega), Option.map_some,
      ih (by omega)]

/-- Reading a list past its first `r` items is reading it at the indices moved up by `r`. -/
theorem filterMap_drop (f : α → β) (l : List α) (r : ℕ) (is : List ℕ) :
    is.filterMap (fun i => (l.drop r)[i]?.map f) =
      (is.map (r + ·)).filterMap fun i => l[i]?.map f := by
  simp only [List.filterMap_map, Function.comp_def, List.getElem?_drop]

/-- Two adjacent slices make one. -/
theorem take_drop_append {l : List α} {r m r' : ℕ} (h₁ : r ≤ m) (h₂ : m ≤ r') :
    (l.drop r).take (m - r) ++ (l.drop m).take (r' - m) = (l.drop r).take (r' - r) := by
  rw [show r' - r = (m - r) + (r' - m) by omega, List.take_add, List.drop_drop,
    Nat.add_sub_cancel' h₁]

/-- A slice that ends inside a list is a slice of any list it begins. -/
theorem take_drop_append_of_le {l l' : List α} {r m : ℕ} (h₁ : r ≤ m) (h₂ : m ≤ l.length) :
    ((l ++ l').drop r).take (m - r) = (l.drop r).take (m - r) := by
  rw [List.drop_append_of_le_length (by omega), List.take_append_of_le_length (by simp; omega)]

/-- Filtering the keys of a slice out of the list from the slice on leaves the list after the
slice, when no two items share a key. -/
theorem filter_drop_take_keys [DecidableEq β] (f : α → β) {l : List α} (hl : (l.map f).Nodup)
    {r r' : ℕ} (h : r ≤ r') :
    (l.drop r).filter (fun a => !decide (f a ∈ ((l.map f).drop r).take (r' - r))) = l.drop r' := by
  rw [← List.map_drop, ← List.map_take]
  set t := (l.drop r).take (r' - r)
  have hsplit : l.drop r = t ++ l.drop r' := by
    rw [← List.take_append_drop (r' - r) (l.drop r), List.drop_drop, Nat.add_sub_cancel' h]
  -- the keys of the slice and of the rest are apart
  have hdisj : (t.map f).Disjoint ((l.drop r').map f) := by
    have hnd : ((l.drop r).map f).Nodup := hl.sublist ((List.drop_sublist r l).map f)
    rw [hsplit, List.map_append] at hnd
    exact List.disjoint_of_nodup_append hnd
  rw [hsplit, List.filter_append]
  have h₁ : t.filter (fun a => !decide (f a ∈ t.map f)) = [] :=
    List.filter_eq_nil_iff.mpr fun a ha => by simp [List.mem_map_of_mem ha]
  have h₂ : (l.drop r').filter (fun a => !decide (f a ∈ t.map f)) = l.drop r' :=
    List.filter_eq_self.mpr fun a ha => by
      simpa using fun hmem => hdisj hmem (List.mem_map_of_mem ha)
  rw [h₁, h₂, List.nil_append]

end IndexRange
