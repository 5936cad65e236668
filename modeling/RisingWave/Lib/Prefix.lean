import Mathlib.Data.List.Destutter
import Mathlib.Data.List.SplitBy

/-!
# Prefixes of ordered lists

Facts about reading a prefix of a list: `partition_point` finds its end;
cutting a list into runs (`List.splitBy`) commutes with taking the prefix when
the predicate is constant on each run; `List.destutter` commutes with taking
the prefix and keeps, as its last element, one related to the prefix's last;
and a list with an element satisfying `p` splits at the last such element.
-/

namespace List

variable {α : Type*}

/-- `slice::partition_point`: on a list partitioned by `p` (elements satisfying
`p` first), the index of the first element that does not satisfy it. -/
def partitionPoint (p : α → Bool) (l : List α) : ℕ := (l.takeWhile p).length

attribute [local simp] partitionPoint in
theorem getLast?_takeWhile (p : α → Bool) (l : List α) :
    (l.takeWhile p).getLast? =
      if partitionPoint p l = 0 then none else l[partitionPoint p l - 1]? := by
  rw [getLast?_eq_getElem?, partitionPoint]
  split
  · next h => simp [List.length_eq_zero_iff.mp h]
  · have hlen : (l.takeWhile p).length - 1 < (l.takeWhile p).length := by omega
    rw [List.getElem?_eq_getElem hlen]
    have hpre : l.takeWhile p <+: l := List.takeWhile_prefix p
    rw [hpre.getElem hlen]
    exact (List.getElem?_eq_getElem _).symm

theorem take_partitionPoint (p : α → Bool) (l : List α) :
    l.take (partitionPoint p l) = l.takeWhile p := by
  have hpre : l.takeWhile p <+: l := takeWhile_prefix p
  exact (prefix_iff_eq_take.mp hpre).symm

theorem drop_partitionPoint (p : α → Bool) (l : List α) :
    l.drop (partitionPoint p l) = l.dropWhile p := by
  induction l with
  | nil => rfl
  | cons a l ih =>
    by_cases ha : p a
    · simp [partitionPoint, takeWhile_cons_of_pos ha, dropWhile_cons_of_pos ha, ← ih]
    · simp [partitionPoint, takeWhile_cons_of_neg ha, dropWhile_cons_of_neg ha]

/-- Below the partition point every element satisfies `p`. -/
theorem getElem?_of_lt_partitionPoint {p : α → Bool} {l : List α} {i : ℕ}
    (hi : i < partitionPoint p l) : ∃ x, l[i]? = some x ∧ p x := by
  have hpre : l.takeWhile p <+: l := takeWhile_prefix p
  have hi' : i < (l.takeWhile p).length := hi
  refine ⟨(l.takeWhile p)[i], ?_, ?_⟩
  · rw [hpre.getElem hi']
    exact getElem?_eq_getElem _
  · exact List.all_eq_true.mp all_takeWhile _ (getElem_mem hi')

/-- At the partition point the list ends or `p` fails. -/
theorem getElem?_partitionPoint (p : α → Bool) (l : List α) :
    ∀ x, l[partitionPoint p l]? = some x → ¬ p x := by
  induction l with
  | nil => simp
  | cons a l ih =>
    intro x hx
    by_cases ha : p a
    · simp only [partitionPoint, takeWhile_cons_of_pos ha, length_cons, getElem?_cons_succ] at hx
      exact ih x hx
    · simp only [partitionPoint, takeWhile_cons_of_neg ha, length_nil, getElem?_cons_zero,
        Option.some.injEq] at hx
      exact hx ▸ ha

/-- The partition point is at most the index of any element that fails `p`. -/
theorem partitionPoint_le_of_getElem? {p : α → Bool} {l : List α} {i : ℕ} {x : α}
    (hx : l[i]? = some x) (hp : p x = false) : partitionPoint p l ≤ i := by
  by_contra hlt
  obtain ⟨y, hy, hpy⟩ := getElem?_of_lt_partitionPoint (Nat.lt_of_not_le hlt)
  rw [hx, Option.some.injEq] at hy
  rw [← hy, hp] at hpy
  exact Bool.false_ne_true hpy

@[simp] theorem partitionPoint_nil (p : α → Bool) : partitionPoint p [] = 0 := rfl

theorem partitionPoint_cons (p : α → Bool) (a : α) (l : List α) :
    partitionPoint p (a :: l) = if p a then partitionPoint p l + 1 else 0 := by
  by_cases ha : p a
  · simp [partitionPoint, takeWhile_cons_of_pos ha, ha]
  · simp [partitionPoint, takeWhile_cons_of_neg ha, ha]

/-- The partition point only reads `p` on the list's elements. -/
theorem partitionPoint_congr {p q : α → Bool} {l : List α} (h : ∀ x ∈ l, p x = q x) :
    partitionPoint p l = partitionPoint q l := by
  induction l with
  | nil => rfl
  | cons a l ih =>
    rw [partitionPoint_cons, partitionPoint_cons, h a mem_cons_self,
      ih fun x hx => h x (mem_cons_of_mem a hx)]

theorem partitionPoint_map {β : Type*} (p : β → Bool) (f : α → β) (l : List α) :
    partitionPoint p (l.map f) = partitionPoint (p ∘ f) l := by
  rw [partitionPoint, partitionPoint, takeWhile_map, length_map]

theorem partitionPoint_le_length (p : α → Bool) (l : List α) : partitionPoint p l ≤ l.length := by
  have hpre : l.takeWhile p <+: l := takeWhile_prefix p
  exact hpre.length_le

/-- A weaker predicate has a later partition point. -/
theorem partitionPoint_mono {p q : α → Bool} (h : ∀ x, p x → q x) (l : List α) :
    partitionPoint p l ≤ partitionPoint q l := by
  induction l with
  | nil => exact le_rfl
  | cons a l ih =>
    by_cases ha : p a
    · simp only [partitionPoint, takeWhile_cons_of_pos ha, takeWhile_cons_of_pos (h a ha),
        length_cons]
      exact Nat.succ_le_succ ih
    · simp [partitionPoint, takeWhile_cons_of_neg ha]

/-- Taking the prefix of runs on which `p` holds, then joining them, is taking the
prefix of the joined list, when `p` is constant on each run. -/
theorem flatten_takeWhile_head {p : α → Bool} {G : List (List α)}
    (hne : ∀ g ∈ G, g ≠ []) (hconst : ∀ g ∈ G, ∀ a ∈ g, ∀ b ∈ g, p a = p b) :
    (G.takeWhile fun g => g.head?.any p).flatten = G.flatten.takeWhile p := by
  induction G with
  | nil => rfl
  | cons g G ih =>
    have ih := ih (fun g hg => hne g (mem_cons_of_mem _ hg))
      (fun g hg => hconst g (mem_cons_of_mem _ hg))
    obtain ⟨a, g', rfl⟩ := List.exists_cons_of_ne_nil (hne _ mem_cons_self)
    have hg := hconst _ mem_cons_self
    by_cases ha : p a
    · have hall : ∀ b ∈ a :: g', p b := fun b hb => (hg b hb a mem_cons_self).trans ha
      rw [List.takeWhile_cons_of_pos (by simpa using ha), List.flatten_cons, List.flatten_cons,
        List.takeWhile_append_of_pos hall, ih]
    · simp [ha]

/-- On a list along which `p` can only turn from true to false, nothing after the
prefix on which `p` holds satisfies `p`. -/
theorem not_of_mem_dropWhile {p : α → Bool} {l : List α}
    (hl : l.Pairwise fun a b => p b → p a) {e : α} (he : e ∈ l.dropWhile p) : ¬ p e := by
  induction l with
  | nil => simp at he
  | cons a l ih =>
    rw [List.pairwise_cons] at hl
    by_cases ha : p a
    · rw [List.dropWhile_cons_of_pos ha] at he
      exact ih hl.2 he
    · rw [List.dropWhile_cons_of_neg ha] at he
      rcases List.mem_cons.mp he with rfl | he
      · exact ha
      · exact fun hp => ha (hl.1 e he hp)

/-- On such a list, dropping the prefix on which `p` holds is filtering `p` out. -/
theorem dropWhile_eq_filter_not {p : α → Bool} {l : List α}
    (hl : l.Pairwise fun a b => p b → p a) : l.dropWhile p = l.filter fun a => !p a := by
  induction l with
  | nil => rfl
  | cons a l ih =>
    by_cases ha : p a
    · rw [List.dropWhile_cons_of_pos ha, ih (List.pairwise_cons.mp hl).2,
        List.filter_cons_of_neg (by simp [ha])]
    · -- From the first element on, `p` fails everywhere.
      have hall : ∀ b ∈ a :: l, ¬ p b := fun b hb =>
        not_of_mem_dropWhile hl (by rw [List.dropWhile_cons_of_neg ha]; exact hb)
      rw [List.dropWhile_cons_of_neg ha, List.filter_eq_self.mpr (by simpa using hall)]

/-- A list ordered by a Boolean key is its `false` elements followed by its
`true` ones. -/
theorem filter_not_append_filter_of_pairwise {f : α → Bool} {l : List α}
    (hl : l.Pairwise fun a b => f a ≤ f b) : l.filter (fun a => !f a) ++ l.filter f = l := by
  induction l with
  | nil => rfl
  | cons a l ih =>
    rw [List.pairwise_cons] at hl
    cases ha : f a
    · simp [ha, ih hl.2]
    · have hall : ∀ b ∈ l, f b = true := fun b hb => by
        have := hl.1 b hb
        rw [ha] at this
        exact Bool.eq_true_of_true_le this
      have hfalse : l.filter (fun a => !f a) = [] := by
        rw [List.filter_eq_nil_iff]
        intro b hb
        simp [hall b hb]
      simp [ha, hfalse, List.filter_eq_self.mpr hall]

/-- A run on which consecutive elements agree under `f` agrees under `f` throughout. -/
theorem eq_of_mem_of_isChain {β : Type*} {f : α → β} {l : List α}
    (hl : l.IsChain fun x y => f x = f y) {a b : α} (ha : a ∈ l) (hb : b ∈ l) : f a = f b := by
  have hrep := isChain_eq_iff_eq_replicate.mp ((isChain_map f).mpr hl)
  cases l with
  | nil => simp at ha
  | cons c l =>
    have hc : (c :: l).map f = replicate (c :: l).length (f c) := by simpa using hrep
    have hfa : f a = f c := eq_of_mem_replicate (hc ▸ mem_map_of_mem ha)
    have hfb : f b = f c := eq_of_mem_replicate (hc ▸ mem_map_of_mem hb)
    rw [hfa, hfb]

section Destutter

variable (R : α → α → Prop) [DecidableRel R]

theorem destutter'_eq_cons_tail (a : α) (l : List α) :
    destutter' R a l = a :: (destutter' R a l).tail := by
  induction l generalizing a with
  | nil => rfl
  | cons b l ih =>
    by_cases h : R a b
    · simp [destutter'_cons_pos _ h]
    · rw [destutter'_cons_neg _ h]
      exact ih a

/-- `destutter'` of a concatenation starts with `destutter'` of the first part. -/
theorem destutter'_append_prefix (a : α) (l₁ l₂ : List α) :
    ∃ rest, destutter' R a (l₁ ++ l₂) = destutter' R a l₁ ++ rest ∧ rest <+ l₂ := by
  induction l₁ generalizing a with
  | nil =>
    refine ⟨(destutter' R a l₂).tail, ?_, ?_⟩
    · rw [List.nil_append, destutter'_nil, destutter'_eq_cons_tail R a l₂]
      rfl
    · have h := destutter'_sublist l₂ R a
      rw [destutter'_eq_cons_tail R a l₂] at h
      exact List.cons_sublist_cons.mp h
  | cons b l₁ ih =>
    by_cases h : R a b
    · obtain ⟨rest, h1, h2⟩ := ih b
      exact ⟨rest, by simp [destutter'_cons_pos _ h, h1], h2⟩
    · obtain ⟨rest, h1, h2⟩ := ih a
      exact ⟨rest, by simp [destutter'_cons_neg _ h, h1], h2⟩

/-- The last element of `destutter' R a l` is the last of `a :: l`, or one against
which the last of `a :: l` was discarded. -/
theorem getLast_destutter' (a : α) (l : List α) :
    (a :: l).getLast (cons_ne_nil _ _) = (destutter' R a l).getLast (destutter'_ne_nil _ _) ∨
      ¬ R ((destutter' R a l).getLast (destutter'_ne_nil _ _)) ((a :: l).getLast (cons_ne_nil _ _)) := by
  induction l generalizing a with
  | nil => simp [destutter'_nil]
  | cons b l ih =>
    by_cases h : R a b
    · simp only [destutter'_cons_pos _ h, List.getLast_cons (cons_ne_nil _ _),
        List.getLast_cons (destutter'_ne_nil _ _)]
      exact ih b
    · simp only [destutter'_cons_neg _ h, List.getLast_cons (cons_ne_nil _ _)]
      cases l with
      | nil => simp [destutter'_nil, h]
      | cons c l =>
        have := ih a
        simp only [List.getLast_cons (cons_ne_nil _ _)] at this ⊢
        exact this

end Destutter

/-- A list with an element satisfying `p` splits at the last one. -/
theorem exists_split_last {p : α → Bool} {l : List α} (h : ∃ x ∈ l, p x) :
    ∃ l₁ x l₂, l = l₁ ++ x :: l₂ ∧ p x ∧ ∀ y ∈ l₂, p y = false := by
  induction l with
  | nil => simp at h
  | cons a l ih =>
    by_cases hl : ∃ x ∈ l, p x
    · obtain ⟨l₁, x, l₂, rfl, hx, hl₂⟩ := ih hl
      exact ⟨a :: l₁, x, l₂, rfl, hx, hl₂⟩
    · -- No later element satisfies `p`, so `a` does.
      have ha : p a := by
        obtain ⟨x, hx, hpx⟩ := h
        rcases List.mem_cons.mp hx with rfl | hx
        · exact hpx
        · exact absurd ⟨x, hx, hpx⟩ hl
      refine ⟨[], a, l, rfl, ha, fun y hy => ?_⟩
      simpa using fun hpy => hl ⟨y, hy, hpy⟩

/-- Splitting a list that ends in `y` before one of its elements: the part from
that element on also ends in `y`. -/
theorem exists_of_append_cons_eq_concat {a b m : List α} {x y : α}
    (h : a ++ x :: m = b ++ [y]) : ∃ i, x :: m = i ++ [y] ∧ a ++ i = b := by
  obtain ⟨i, z, hi⟩ : ∃ i z, x :: m = i ++ [z] :=
    ⟨(x :: m).dropLast, (x :: m).getLast (by simp), (dropLast_append_getLast (by simp)).symm⟩
  rw [hi, ← List.append_assoc] at h
  obtain ⟨hb, hz⟩ := List.append_inj' h rfl
  exact ⟨i, by rw [hi, List.singleton_inj.mp hz], hb⟩

end List
