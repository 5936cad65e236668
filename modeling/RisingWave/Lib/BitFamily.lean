import Mathlib

/-!
# Families of bit vectors

A bit vector is a `List Bool`, whose bit `i` is set when `bits[i]? = some true`. A family of
bit vectors partitions the positions below `N` when every position is set in exactly one of
them (`owners L i = 1`); the weights of such a family then add up to `N`. `Subbits a b` says
that every bit set in `a` is set in `b`.
-/

namespace BitFamily

/-- Every bit set in `a` is set in `b`. -/
def Subbits (a b : List Bool) : Prop := ∀ i : ℕ, a[i]? = some true → b[i]? = some true

/-- The number of vectors of `L` with bit `i` set. -/
def owners (L : List (List Bool)) (i : ℕ) : ℕ := L.countP fun bits => bits[i]? = some true

theorem Subbits.refl (a : List Bool) : Subbits a a := fun _ h => h

theorem Subbits.trans {a b c : List Bool} (hab : Subbits a b) (hbc : Subbits b c) :
    Subbits a c := fun i h => hbc i (hab i h)

theorem owners_perm {L L' : List (List Bool)} (h : L.Perm L') (i : ℕ) :
    owners L i = owners L' i :=
  h.countP_eq _

theorem owners_append (L L' : List (List Bool)) (i : ℕ) :
    owners (L ++ L') i = owners L i + owners L' i :=
  List.countP_append

@[simp] theorem owners_nil (i : ℕ) : owners [] i = 0 := rfl

attribute [local simp] owners in
theorem owners_cons (bits : List Bool) (L : List (List Bool)) (i : ℕ) :
    owners (bits :: L) i = owners L i + if bits[i]? = some true then 1 else 0 := by
  simp [owners, List.countP_cons]

/-- The weight of a bit vector, position by position. -/
theorem count_true_eq_sum (bits : List Bool) :
    bits.count true = ∑ i ∈ Finset.range bits.length, if bits[i]? = some true then 1 else 0 := by
  induction bits with
  | nil => simp
  | cons b bits ih =>
    rw [List.length_cons, Finset.sum_range_succ', List.count_cons, ih]
    cases b <;> simp

/-- Counting the owners of each position counts the weights of the vectors. -/
theorem sum_owners {L : List (List Bool)} {N : ℕ} (hlen : ∀ bits ∈ L, bits.length = N) :
    ∑ i ∈ Finset.range N, owners L i = (L.map (·.count true)).sum := by
  induction L with
  | nil => simp [owners]
  | cons bits L ih =>
    have hN : bits.length = N := hlen bits List.mem_cons_self
    simp only [owners_cons, Finset.sum_add_distrib, List.map_cons, List.sum_cons]
    rw [ih fun b hb => hlen b (List.mem_cons_of_mem _ hb), ← hN, ← count_true_eq_sum,
      Nat.add_comm]

/-- The weights of a family partitioning the positions below `N` add up to `N`. -/
theorem sum_count_eq_of_owners {L : List (List Bool)} {N : ℕ}
    (hlen : ∀ bits ∈ L, bits.length = N) (hown : ∀ i < N, owners L i = 1) :
    (L.map (·.count true)).sum = N := by
  rw [← sum_owners hlen, Finset.sum_congr rfl fun i hi => hown i (Finset.mem_range.mp hi)]
  simp

/-! ## Moving one bit -/

section Move

variable {a b : List Bool} {i : ℕ}

/-- Moving bit `i` from `a`, where it is set, to `b`, where it is clear, keeps every position's
number of owners. -/
theorem owners_pair_move (ha : a[i]? = some true) (hb : b[i]? = some false) (j : ℕ) :
    owners [a.set i false, b.set i true] j = owners [a, b] j := by
  obtain ⟨hia, hai⟩ := List.getElem?_eq_some_iff.mp ha
  obtain ⟨hib, hbi⟩ := List.getElem?_eq_some_iff.mp hb
  simp only [owners, List.countP_cons, List.countP_nil, List.getElem?_set]
  by_cases hij : i = j
  · subst hij
    simp [hia, hib, hai, hbi]
  · simp [hij]

theorem count_set_false (ha : a[i]? = some true) :
    (a.set i false).count true + 1 = a.count true := by
  obtain ⟨hia, hai⟩ := List.getElem?_eq_some_iff.mp ha
  rw [List.count_set hia, hai]
  have hpos : 0 < a.count true := List.count_pos_iff.mpr (List.mem_of_getElem? ha)
  simp only [BEq.rfl, if_true]
  simp
  omega

theorem count_set_true (hb : b[i]? = some false) :
    (b.set i true).count true = b.count true + 1 := by
  obtain ⟨hib, hbi⟩ := List.getElem?_eq_some_iff.mp hb
  rw [List.count_set hib, hbi]
  simp

theorem subbits_set_false (a : List Bool) (i : ℕ) : Subbits (a.set i false) a := by
  intro j hj
  rw [List.getElem?_set] at hj
  split_ifs at hj <;> simp_all

theorem subbits_set_true (b : List Bool) (i : ℕ) : Subbits b (b.set i true) := by
  intro j hj
  rw [List.getElem?_set]
  split_ifs with hij hib
  · rfl
  · subst hij
    exact absurd (List.getElem?_eq_some_iff.mp hj).1 hib
  · exact hj

end Move

end BitFamily
