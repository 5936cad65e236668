import Mathlib

/-!
# Ranks by a key

`rankBy f l x` counts the elements of `l` whose key `f` is below that of `x`: the
rank of `x` in `l` when equal keys share a rank. The elements of rank below `n`
are what `FETCH FIRST n ROWS WITH TIES` keeps; on a list ordered by the key they
are those whose key is at most that of the `n`-th element (`rankBy_lt_iff`).
-/

namespace List

variable {α β : Type*} [LinearOrder β] (f : α → β)

/-- The elements of `l` whose key is below `x`'s. -/
def rankBy (l : List α) (x : α) : ℕ := l.countP fun s => f s < f x

variable {f}

theorem rankBy_perm {l l' : List α} (h : l.Perm l') (x : α) : rankBy f l x = rankBy f l' x :=
  h.countP_eq _

attribute [local simp] rankBy in
theorem rankBy_cons (a : α) (l : List α) (x : α) :
    rankBy f (a :: l) x = rankBy f l x + if f a < f x then 1 else 0 := by
  by_cases h : f a < f x <;> simp [rankBy, h]

theorem rankBy_mono {x y : α} (h : f x ≤ f y) (l : List α) : rankBy f l x ≤ rankBy f l y :=
  List.countP_mono_left fun s _ hs => by simpa using lt_of_lt_of_le (by simpa using hs) h

/-- An element of `l` is counted in the rank of every element of larger key. -/
theorem rankBy_lt_rankBy {l : List α} {x y : α} (hx : x ∈ l) (h : f x < f y) :
    rankBy f l x < rankBy f l y := by
  -- Split both counts by whether the key is below `x`'s: the first part agrees, and the
  -- second is empty for `x` but holds `x` itself for `y`.
  unfold rankBy
  rw [List.countP_eq_countP_filter_add l _ (fun s => decide (f s < f x)),
    List.countP_eq_countP_filter_add l (fun s => decide (f s < f y)) (fun s => decide (f s < f x))]
  have hsame : (l.filter fun s => decide (f s < f x)).countP (fun s => decide (f s < f x)) =
      (l.filter fun s => decide (f s < f x)).countP (fun s => decide (f s < f y)) := by
    apply List.countP_congr
    intro s hs
    have : f s < f x := by simpa using (List.mem_filter.mp hs).2
    simp [this, this.trans h]
  have hzero : (l.filter fun s => !decide (f s < f x)).countP (fun s => decide (f s < f x)) = 0 := by
    rw [List.countP_eq_zero]
    intro s hs
    simpa using (List.mem_filter.mp hs).2
  have hpos : 0 < (l.filter fun s => !decide (f s < f x)).countP (fun s => decide (f s < f y)) :=
    List.countP_pos_iff.mpr ⟨x, List.mem_filter.mpr ⟨hx, by simp⟩, by simpa using h⟩
  omega

/-- An element of `l` is not counted in its own rank. -/
theorem rankBy_lt_length {l : List α} {x : α} (hx : x ∈ l) : rankBy f l x < l.length := by
  unfold rankBy
  rw [List.countP_eq_length_filter]
  exact List.length_filter_lt_length_iff_exists.mpr ⟨x, hx, by simp⟩

/-- Every element of a sub-multiset below `x`'s key counts in `x`'s rank. -/
theorem length_le_rankBy {m l : List α} (hm : m.Subperm l) {x : α} (h : ∀ s ∈ m, f s < f x) :
    m.length ≤ rankBy f l x := by
  have : m.countP (fun s => f s < f x) = m.length := List.countP_eq_length.mpr (by simpa using h)
  rw [← this]
  exact hm.countP_le _

/-- On a list ordered by the key, an element's rank is below `n` exactly when its key is at
most that of the `n`-th element. -/
theorem rankBy_lt_iff {l : List α} (hl : l.Pairwise fun a b => f a ≤ f b) {n : ℕ} (hpos : 0 < n)
    (hn : n - 1 < l.length) (x : α) : rankBy f l x < n ↔ f x ≤ f l[n - 1] := by
  obtain ⟨e, he⟩ : ∃ e, l[n - 1] = e := ⟨_, rfl⟩
  have hsplit : l.take (n - 1) ++ e :: l.drop n = l := by
    rw [← he]
    conv_rhs => rw [← List.take_append_drop (n - 1) l]
    rw [List.drop_eq_getElem_cons hn, Nat.sub_add_cancel hpos]
  rw [he]
  have hl' := hsplit ▸ hl
  rw [List.pairwise_append, List.pairwise_cons] at hl'
  -- Every element before the `n`-th has key at most its key, every one after at least.
  have hbefore : ∀ s ∈ l.take (n - 1), f s ≤ f e := fun s hs => hl'.2.2 s hs e List.mem_cons_self
  have hafter : ∀ s ∈ e :: l.drop n, f e ≤ f s := by
    intro s hs
    rcases List.mem_cons.mp hs with rfl | hs
    · exact le_rfl
    · exact hl'.2.1.1 s hs
  have htake : (l.take (n - 1)).length = n - 1 := List.length_take_of_le (by omega)
  constructor
  · intro hlt
    by_contra hgt
    -- The first `n` elements all have keys below `x`'s.
    have hsub : (l.take (n - 1) ++ [e]).Subperm l := by
      conv_rhs => rw [← hsplit]
      exact (List.Sublist.append_left (by simp) _).subperm
    have hle := length_le_rankBy hsub (x := x) (by
      intro s hs
      rcases List.mem_append.mp hs with hs | hs
      · exact lt_of_le_of_lt (hbefore s hs) (not_le.mp hgt)
      · rw [List.mem_singleton.mp hs]
        exact not_le.mp hgt)
    simp only [List.length_append, List.length_singleton, htake] at hle
    omega
  · intro hle
    have hcount : rankBy f l e ≤ n - 1 := by
      have h₀ : (e :: l.drop n).countP (fun s => f s < f e) = 0 := by
        rw [List.countP_eq_zero]
        intro s hs
        simpa using hafter s hs
      have h₁ := List.countP_le_length (p := fun s => decide (f s < f e)) (l := l.take (n - 1))
      unfold rankBy
      conv_lhs => rw [← hsplit]
      rw [List.countP_append, h₀]
      omega
    have := rankBy_mono hle l
    omega

end List
