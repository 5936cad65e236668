import Mathlib.Data.List.Lex
import Mathlib.Data.Prod.Lex
import Mathlib.Order.Lattice

/-!
# Linear orders on machine words and lexicographic byte strings

Lean's core library gives `UInt8`, `UInt32` and `UInt64` an `Ord` and lemmas
about `≤`, but Mathlib gives them no `LinearOrder`. The instances below reuse
the core `≤`, `<` and `compare`, so every order-theoretic lemma of Mathlib
applies to the machine words without a second, competing order.

Byte strings are compared with the core `compare` on lists, the lexicographic
`List.compareLex`, which is how Rust compares `[u8]` slices. Mathlib orders
lists by `List.Lex (· < ·)`; `List.compare_eq_compareOfLessAndEq` shows that the
two agree, so a comparison written as in the source can be reasoned about in the
order. The empty list is the least element.
-/

instance UInt8.instLinearOrder : LinearOrder UInt8 where
  le_refl := UInt8.le_refl
  le_trans _ _ _ := UInt8.le_trans
  le_antisymm _ _ := UInt8.le_antisymm
  le_total := UInt8.le_total
  lt_iff_le_not_ge _ _ := by
    rw [← UInt8.not_le]
    exact ⟨fun h => ⟨UInt8.le_of_lt (UInt8.not_le.mp h), h⟩, fun h => h.2⟩
  toDecidableLE := inferInstance
  toDecidableLT := inferInstance
  toDecidableEq := inferInstance
  compare_eq_compareOfLessAndEq _ _ := rfl

instance UInt32.instLinearOrder : LinearOrder UInt32 where
  le_refl := UInt32.le_refl
  le_trans _ _ _ := UInt32.le_trans
  le_antisymm _ _ := UInt32.le_antisymm
  le_total := UInt32.le_total
  lt_iff_le_not_ge _ _ := by
    rw [← UInt32.not_le]
    exact ⟨fun h => ⟨UInt32.le_of_lt (UInt32.not_le.mp h), h⟩, fun h => h.2⟩
  toDecidableLE := inferInstance
  toDecidableLT := inferInstance
  toDecidableEq := inferInstance
  compare_eq_compareOfLessAndEq _ _ := rfl

instance UInt64.instLinearOrder : LinearOrder UInt64 where
  le_refl := UInt64.le_refl
  le_trans _ _ _ := UInt64.le_trans
  le_antisymm _ _ := UInt64.le_antisymm
  le_total := UInt64.le_total
  lt_iff_le_not_ge _ _ := by
    rw [← UInt64.not_le]
    exact ⟨fun h => ⟨UInt64.le_of_lt (UInt64.not_le.mp h), h⟩, fun h => h.2⟩
  toDecidableLE := inferInstance
  toDecidableLT := inferInstance
  toDecidableEq := inferInstance
  compare_eq_compareOfLessAndEq _ _ := rfl

namespace List

variable {α : Type*} [LinearOrder α]

theorem cons_lt_cons_iff' {a b : α} {l r : List α} :
    a :: l < b :: r ↔ a < b ∨ a = b ∧ l < r := by
  constructor
  · intro h
    cases h with
    | cons h => exact .inr ⟨rfl, h⟩
    | rel h => exact .inl h
  · rintro (h | ⟨rfl, h⟩)
    · exact .rel h
    · exact .cons h

theorem cons_le_cons_iff' {a b : α} {l r : List α} :
    a :: l ≤ b :: r ↔ a < b ∨ a = b ∧ l ≤ r := by
  rw [le_iff_lt_or_eq, le_iff_lt_or_eq, cons_lt_cons_iff', List.cons.injEq]
  tauto

/-- A list lies at or below every list it starts. -/
theorem le_of_prefix {a b : List α} (h : a <+: b) : a ≤ b := by
  obtain ⟨s, rfl⟩ := h
  induction a with
  | nil =>
    cases s with
    | nil => exact le_rfl
    | cons x s => exact le_of_lt List.Lex.nil
  | cons x a ih => exact cons_le_cons_iff'.mpr (.inr ⟨rfl, ih⟩)

/-- The core lexicographic `compare` on lists is the `compare` of Mathlib's
lexicographic order. -/
theorem compare_eq_compareOfLessAndEq (l r : List α) :
    compare l r = compareOfLessAndEq l r := by
  induction l generalizing r with
  | nil =>
    cases r with
    | nil => simp [compareOfLessAndEq]
    | cons b r => simp [compareOfLessAndEq]
  | cons a l ih =>
    cases r with
    | nil =>
      have : ¬ a :: l < [] := List.not_lex_nil
      simp [compareOfLessAndEq, this]
    | cons b r =>
      rw [List.compare_cons_cons, ih r]
      rcases lt_trichotomy a b with h | rfl | h
      · have : compare a b = .lt := compare_lt_iff_lt.mpr h
        simp [this, compareOfLessAndEq, cons_lt_cons_iff', h, h.ne]
      · simp [compareOfLessAndEq]
      · have : compare a b = .gt := compare_gt_iff_gt.mpr h
        simp [this, compareOfLessAndEq, cons_lt_cons_iff', h.ne', not_lt_of_gt h]

@[simp] theorem compare_lex_eq_lt {l r : List α} : compare l r = .lt ↔ l < r := by
  rw [compare_eq_compareOfLessAndEq]
  exact compareOfLessAndEq_eq_lt

@[simp] theorem compare_lex_eq_eq {l r : List α} : compare l r = .eq ↔ l = r := by
  rw [compare_eq_compareOfLessAndEq]
  exact compareOfLessAndEq_eq_eq le_refl not_le

@[simp] theorem compare_lex_eq_gt {l r : List α} : compare l r = .gt ↔ r < l := by
  rw [compare_eq_compareOfLessAndEq]
  exact compareOfLessAndEq_eq_gt le_antisymm le_total not_le l r

/-- Comparing two concatenations whose first parts have one length compares the
first parts, then the second parts. -/
theorem compare_append_of_length_eq {l₁ l₂ r₁ r₂ : List α} (h : l₁.length = l₂.length) :
    compare (l₁ ++ r₁) (l₂ ++ r₂) = (compare l₁ l₂).then (compare r₁ r₂) := by
  induction l₁ generalizing l₂ with
  | nil =>
    rw [List.length_nil, eq_comm, List.length_eq_zero_iff] at h
    subst h
    simp
  | cons a l₁ ih =>
    cases l₂ with
    | nil => simp at h
    | cons b l₂ =>
      simp only [List.length_cons, Nat.add_right_cancel_iff] at h
      simp only [List.cons_append, List.compare_cons_cons, ih h, Ordering.then_assoc]

/-- No list lies strictly between `a` and `a ++ [z]` when `z` is least: `a ++ [z]`
is the successor of `a`. -/
theorem not_lt_append_least {z : α} (hz : ∀ x, z ≤ x) {a k : List α} (h₁ : a < k) :
    ¬ k < a ++ [z] := by
  induction a generalizing k with
  | nil =>
    cases k with
    | nil => exact absurd h₁ (lt_irrefl _)
    | cons b k =>
      -- `b :: k < [z]` needs `b < z`, or `b = z` and `k < []`.
      rw [List.nil_append, cons_lt_cons_iff']
      rintro (h | ⟨-, h⟩)
      · exact not_lt_of_ge (hz b) h
      · exact List.not_lex_nil h
  | cons c a ih =>
    cases k with
    | nil => exact absurd h₁ List.not_lex_nil
    | cons b k =>
      rw [List.cons_append, cons_lt_cons_iff']
      rw [cons_lt_cons_iff'] at h₁
      rintro (h | ⟨rfl, h⟩)
      · rcases h₁ with h₁ | ⟨rfl, -⟩
        · exact lt_asymm h₁ h
        · exact lt_irrefl _ h
      · rcases h₁ with h₁ | ⟨-, h₁⟩
        · exact lt_irrefl _ h₁
        · exact ih h₁ h

/-- Two lists neither of which is a prefix of the other compare as their extensions do. -/
theorem append_lt_append_iff_of_not_prefix {a b : List α} (hab : ¬ a <+: b) (hba : ¬ b <+: a)
    (s t : List α) : a ++ s < b ++ t ↔ a < b := by
  induction a generalizing b with
  | nil => exact absurd (List.nil_prefix) hab
  | cons x a ih =>
    cases b with
    | nil => exact absurd (List.nil_prefix) hba
    | cons y b =>
      rw [List.cons_append, List.cons_append, cons_lt_cons_iff', cons_lt_cons_iff']
      by_cases hxy : x = y
      · subst hxy
        rw [List.cons_prefix_cons] at hab hba
        simp only [true_and] at hab hba
        simp [ih hab hba]
      · simp [hxy]

omit [LinearOrder α] in
/-- A list that neither starts nor is started by `b` starts no extension of `b`. -/
theorem not_prefix_append_of_not_prefix {a b : List α} (hab : ¬ a <+: b) (hba : ¬ b <+: a)
    (s : List α) : ¬ a <+: b ++ s := fun h =>
  (List.prefix_or_prefix_of_prefix h (List.prefix_append b s)).elim hab hba

/-- A map that reverses a linear order is injective. -/
theorem injective_of_lt_iff {f : α → α} (hf : ∀ x y, f x < f y ↔ y < x) {x y : α}
    (h : f x = f y) : x = y := by
  refine le_antisymm (not_lt.mp fun hyx => ?_) (not_lt.mp fun hxy => ?_)
  · have hlt := (hf x y).mpr hyx
    rw [h] at hlt
    exact lt_irrefl _ hlt
  · have hlt := (hf y x).mpr hxy
    rw [h] at hlt
    exact lt_irrefl _ hlt

/-- Mapping an order-reversing `f` over two lists, neither a prefix of the other, reverses
their comparison. -/
theorem map_lt_map_iff_of_not_prefix {f : α → α} (hf : ∀ x y, f x < f y ↔ y < x)
    {a b : List α} (hab : ¬ a <+: b) (hba : ¬ b <+: a) : a.map f < b.map f ↔ b < a := by
  induction a generalizing b with
  | nil => exact absurd (List.nil_prefix) hab
  | cons x a ih =>
    cases b with
    | nil => exact absurd (List.nil_prefix) hba
    | cons y b =>
      rw [List.map_cons, List.map_cons, cons_lt_cons_iff', cons_lt_cons_iff', hf]
      by_cases hxy : x = y
      · subst hxy
        rw [List.cons_prefix_cons] at hab hba
        simp only [true_and] at hab hba
        simp [ih hab hba]
      · have hfxy : f x ≠ f y := fun h => hxy (injective_of_lt_iff hf h)
        simp [hfxy, Ne.symm hxy]

/-- Behind first parts of one length, lists compare by the first parts, then the rest. -/
theorem append_lt_append_iff_of_length_eq {a b : List α} (h : a.length = b.length)
    (s t : List α) : a ++ s < b ++ t ↔ a < b ∨ a = b ∧ s < t := by
  rw [← compare_lex_eq_lt, compare_append_of_length_eq h, Ordering.then_eq_lt,
    compare_lex_eq_lt, compare_lex_eq_eq, compare_lex_eq_lt]

theorem append_lt_append_left_iff (p : List α) {a b : List α} : p ++ a < p ++ b ↔ a < b := by
  rw [append_lt_append_iff_of_length_eq rfl]
  simp

theorem append_le_append_left_iff (p : List α) {a b : List α} : p ++ a ≤ p ++ b ↔ a ≤ b := by
  rw [← not_lt, append_lt_append_left_iff, not_lt]

/-- A list behind `a` lies in a range between two lists behind `b`, of the length of `a`,
exactly when `a = b` and the rest lies in the range of the rests. -/
theorem append_mem_Ico_iff_of_length_eq {a b : List α} (h : a.length = b.length)
    (x y z : List α) : (b ++ x ≤ a ++ z ∧ a ++ z < b ++ y) ↔ a = b ∧ x ≤ z ∧ z < y := by
  rw [← not_lt, append_lt_append_iff_of_length_eq h, append_lt_append_iff_of_length_eq h]
  rcases lt_trichotomy a b with hab | rfl | hab
  · simp [hab, hab.ne]
  · simp
  · simp [not_lt_of_gt hab, hab.ne']

/-- A list above `k` copies of a greatest element starts with them. -/
theorem prefix_of_replicate_lt {z : α} (hz : ∀ x, x ≤ z) {k : ℕ} {x : List α}
    (h : List.replicate k z < x) : List.replicate k z <+: x := by
  induction k generalizing x with
  | zero => exact List.nil_prefix
  | succ k ih =>
    cases x with
    | nil => exact absurd h List.not_lex_nil
    | cons y x =>
      rw [List.replicate_succ, cons_lt_cons_iff'] at h
      rcases h with h | ⟨rfl, h⟩
      · exact absurd (hz y) (not_le_of_gt h)
      · rw [List.replicate_succ, List.cons_prefix_cons]
        exact ⟨rfl, ih h⟩

end List

/-- The empty list is the least list. -/
instance List.instOrderBot {α : Type*} [LinearOrder α] : OrderBot (List α) where
  bot := []
  bot_le l := by
    cases l with
    | nil => exact le_rfl
    | cons a l => exact le_of_lt List.Lex.nil

/-- Complementing bytes reverses their order. -/
theorem UInt8.complement_lt_complement_iff (a b : UInt8) : ~~~a < ~~~b ↔ b < a := by
  rw [UInt8.lt_iff_toNat_lt, UInt8.lt_iff_toNat_lt, UInt8.toNat_not, UInt8.toNat_not]
  have := a.toNat_lt
  have := b.toNat_lt
  simp only [UInt8.size] at *
  omega

theorem UInt8.le_max (x : UInt8) : x ≤ 0xff := by
  rw [UInt8.le_iff_toNat_le]
  have := x.toNat_lt
  show x.toNat ≤ 255
  omega

theorem UInt8.lt_add_one_of_ne_max {b : UInt8} (hb : b ≠ 0xff) : b < b + 1 := by
  rw [UInt8.lt_iff_toNat_lt, UInt8.toNat_add, UInt8.toNat_one]
  have : b.toNat ≠ 255 := fun h => hb (UInt8.toNat_inj.mp (by rw [h]; rfl))
  have := b.toNat_lt
  omega

/-- No byte lies strictly between `b` and `b + 1`. -/
theorem UInt8.add_one_le_of_lt {b c : UInt8} (h : b < c) : b + 1 ≤ c := by
  rw [UInt8.le_iff_toNat_le, UInt8.toNat_add, UInt8.toNat_one]
  rw [UInt8.lt_iff_toNat_lt] at h
  have := c.toNat_lt
  omega
