import Mathlib.Order.Basic
import Mathlib.Data.List.Basic
import Mathlib.Data.Set.Function

/-!
# Wildcard patterns

A pattern of `any` (a run of any length), `one` (any one element) and literals, over any
alphabet, as SQL `LIKE` has, and the lists it matches (`wildMatch`). `tokenize` reads a pattern
from its text, in which an escape element makes the element after it a literal.

Three facts carry a matcher that backtracks only to its last `any`: `any` is tried at each
suffix in turn (`wildMatch_any`); what `any` followed by a pattern matches on a suffix, it
matches on every longer suffix (`wildMatch_any_of_drop_le`); and a pattern without `any`
matches exactly as many elements as it has (`wildMatch_append_of_starFree`). Together they let
the matcher forget an earlier `any` once it reaches a later one (`wildMatch_any_exchange`).
-/

namespace Wildcard

/-- A pattern element. -/
inductive Tok (α : Type*) where
  | any
  | one
  | lit (a : α)
  deriving DecidableEq

variable {α : Type*} [DecidableEq α]

/-- The lists a pattern matches: `any` at each suffix in turn. -/
def wildMatch : List (Tok α) → List α → Bool
  | [], s => s.isEmpty
  | .any :: p, s => (List.range (s.length + 1)).any fun i => wildMatch p (s.drop i)
  | .one :: p, s =>
    match s with
    | [] => false
    | _ :: s => wildMatch p s
  | .lit c :: p, s =>
    match s with
    | [] => false
    | a :: s => decide (a = c) && wildMatch p s

section Lemmas

variable {p q r : List (Tok α)} {s : List α}

@[simp] theorem wildMatch_nil (s : List α) : wildMatch [] s = s.isEmpty := rfl

@[simp] theorem wildMatch_one_nil (p : List (Tok α)) : wildMatch (.one :: p) [] = false := rfl

@[simp] theorem wildMatch_one_cons (p : List (Tok α)) (a : α) (s : List α) :
    wildMatch (.one :: p) (a :: s) = wildMatch p s := rfl

@[simp] theorem wildMatch_lit_nil (p : List (Tok α)) (c : α) :
    wildMatch (.lit c :: p) [] = false := rfl

@[simp] theorem wildMatch_lit_cons (p : List (Tok α)) (c a : α) (s : List α) :
    wildMatch (.lit c :: p) (a :: s) = (decide (a = c) && wildMatch p s) := rfl

attribute [local simp] wildMatch in
theorem wildMatch_any_iff :
    wildMatch (.any :: p) s = true ↔ ∃ i ≤ s.length, wildMatch p (s.drop i) = true := by
  simp [wildMatch, Nat.lt_succ_iff]

/-- `any` matches nothing here, or one element more. -/
theorem wildMatch_any (p : List (Tok α)) (s : List α) :
    wildMatch (.any :: p) s = (wildMatch p s || wildMatch (.any :: p) (s.drop 1)) := by
  apply Bool.eq_iff_iff.mpr
  rw [Bool.or_eq_true, wildMatch_any_iff, wildMatch_any_iff]
  constructor
  · rintro ⟨i, hi, hm⟩
    cases i with
    | zero => exact .inl hm
    | succ i => exact .inr ⟨i, by simp; omega, by rwa [List.drop_drop, Nat.add_comm]⟩
  · rintro (hm | ⟨i, hi, hm⟩)
    · exact ⟨0, Nat.zero_le _, hm⟩
    · -- past the end `drop 1` is the empty list, where `i` is `0`
      cases s with
      | nil => exact ⟨0, Nat.zero_le _, by simpa using hm⟩
      | cons a s => exact ⟨i + 1, by simp at hi ⊢; omega, by simpa using hm⟩

@[simp] theorem wildMatch_any_nil (p : List (Tok α)) : wildMatch (.any :: p) [] = wildMatch p [] := by
  simp [wildMatch]

omit [DecidableEq α] in
theorem drop_eq_cons_of_getElem? {i : ℕ} {a : α} (h : s[i]? = some a) :
    s.drop i = a :: s.drop (i + 1) := by
  obtain ⟨hi, rfl⟩ := List.getElem?_eq_some_iff.mp h
  exact List.drop_eq_getElem_cons hi

/-- `one` on a suffix: the element there, if there is one. -/
theorem wildMatch_one_drop (p : List (Tok α)) (s : List α) (i : ℕ) :
    wildMatch (.one :: p) (s.drop i) = (decide (i < s.length) && wildMatch p (s.drop (i + 1))) := by
  by_cases hi : i < s.length
  · rw [drop_eq_cons_of_getElem? (List.getElem?_eq_getElem hi), wildMatch_one_cons]
    simp [hi]
  · rw [List.drop_eq_nil_of_le (by omega)]
    simp [hi]

/-- A literal on a suffix: the element there, if it is that literal. -/
theorem wildMatch_lit_drop (p : List (Tok α)) (c : α) (s : List α) (i : ℕ) :
    wildMatch (.lit c :: p) (s.drop i) =
      (decide (s[i]? = some c) && wildMatch p (s.drop (i + 1))) := by
  cases h : s[i]? with
  | none =>
    rw [List.drop_eq_nil_of_le (List.getElem?_eq_none_iff.mp h)]
    simp
  | some a =>
    rw [drop_eq_cons_of_getElem? h, wildMatch_lit_cons]
    simp

/-- What `any` then `p` matches on a suffix, it matches on every longer suffix. -/
theorem wildMatch_any_of_drop_le {i j : ℕ} (hij : i ≤ j)
    (h : wildMatch (.any :: p) (s.drop j) = true) : wildMatch (.any :: p) (s.drop i) = true := by
  obtain ⟨k, hk, hm⟩ := wildMatch_any_iff.mp h
  rw [List.drop_drop] at hm
  simp only [List.length_drop] at hk
  refine wildMatch_any_iff.mpr ⟨min (j + k) s.length - i, by simp; omega, ?_⟩
  rw [List.drop_drop]
  -- past the end both suffixes are empty
  by_cases hle : j + k ≤ s.length
  · rwa [show i + (min (j + k) s.length - i) = j + k by omega]
  · rw [List.drop_eq_nil_of_le (by omega : s.length ≤ i + (min (j + k) s.length - i))]
    rwa [List.drop_eq_nil_of_le (by omega : s.length ≤ j + k)] at hm

/-- A pattern without `any`. -/
def StarFree (q : List (Tok α)) : Prop := .any ∉ q

attribute [local simp] StarFree in
omit [DecidableEq α] in
theorem StarFree.append {q q' : List (Tok α)} (hq : StarFree q) (hq' : StarFree q') :
    StarFree (q ++ q') := by
  simp only [StarFree, List.mem_append, not_or] at hq hq' ⊢
  exact ⟨hq, hq'⟩

/-- A pattern without `any` takes exactly as many elements as it has. -/
theorem wildMatch_append_of_starFree (hq : StarFree q) (h : wildMatch (q ++ r) s = true) :
    q.length ≤ s.length ∧ wildMatch r (s.drop q.length) = true := by
  induction q generalizing s with
  | nil => exact ⟨Nat.zero_le _, h⟩
  | cons t q ih =>
    have hq' : StarFree q := fun hmem => hq (List.mem_cons_of_mem t hmem)
    cases s with
    | nil => cases t <;> simp_all [StarFree]
    | cons a s =>
      cases t with
      | any => exact absurd List.mem_cons_self hq
      | one =>
        obtain ⟨hle, hm⟩ := ih hq' (by simpa using h)
        exact ⟨by simp; omega, by simpa using hm⟩
      | lit c =>
        simp only [List.cons_append, wildMatch_lit_cons, Bool.and_eq_true] at h
        obtain ⟨hle, hm⟩ := ih hq' h.2
        exact ⟨by simp; omega, by simpa using hm⟩

/-- Once a later `any` is reached past a run `q` without `any`, an earlier `any` adds nothing:
whatever it would let match, the later one matches from where `q` ends at the earliest. -/
theorem wildMatch_any_exchange (hq : StarFree q)
    (h : wildMatch (.any :: (q ++ .any :: r)) s = true) :
    wildMatch (.any :: r) (s.drop q.length) = true := by
  obtain ⟨i, -, hm⟩ := wildMatch_any_iff.mp h
  have hrest := (wildMatch_append_of_starFree hq hm).2
  rw [List.drop_drop] at hrest
  exact wildMatch_any_of_drop_le (by omega) hrest

end Lemmas

/-! ## Reading a pattern -/

section Tokenize

variable (esc anyC oneC : α)

/-- The pattern a text stands for: `oneC` is `one`, `anyC` is `any`, and `esc` makes the
element after it a literal (itself a literal at the end). -/
def tokenize : List α → List (Tok α)
  | [] => []
  | c :: p =>
    if c = oneC then .one :: tokenize p
    else if c = anyC then .any :: tokenize p
    else if c = esc then
      match p with
      | c' :: p' => .lit c' :: tokenize p'
      | [] => [.lit c]
    else .lit c :: tokenize p

@[simp] theorem tokenize_nil : tokenize esc anyC oneC [] = [] := rfl

variable {esc anyC oneC} {p : List α} {i : ℕ} {c : α}

attribute [local simp] tokenize in
theorem tokenize_drop_of_one (h : p[i]? = some oneC) :
    tokenize esc anyC oneC (p.drop i) = .one :: tokenize esc anyC oneC (p.drop (i + 1)) := by
  rw [drop_eq_cons_of_getElem? h, tokenize.eq_def]
  simp

theorem tokenize_drop_of_any (h : p[i]? = some anyC) (hne : anyC ≠ oneC) :
    tokenize esc anyC oneC (p.drop i) = .any :: tokenize esc anyC oneC (p.drop (i + 1)) := by
  rw [drop_eq_cons_of_getElem? h, tokenize.eq_def]
  simp [hne]

/-- An escape and the element after it are one literal. -/
theorem tokenize_drop_of_esc (h : p[i]? = some esc) (hne1 : esc ≠ oneC) (hne2 : esc ≠ anyC)
    (hc : p[i + 1]? = some c) :
    tokenize esc anyC oneC (p.drop i) = .lit c :: tokenize esc anyC oneC (p.drop (i + 2)) := by
  rw [drop_eq_cons_of_getElem? h, drop_eq_cons_of_getElem? hc, tokenize.eq_def]
  simp [hne1, hne2]

/-- Any other element, and an escape at the end, is a literal of itself. -/
theorem tokenize_drop_of_lit (h : p[i]? = some c) (hne1 : c ≠ oneC) (hne2 : c ≠ anyC)
    (hesc : c ≠ esc ∨ p[i + 1]? = none) :
    tokenize esc anyC oneC (p.drop i) = .lit c :: tokenize esc anyC oneC (p.drop (i + 1)) := by
  rw [drop_eq_cons_of_getElem? h, tokenize.eq_def]
  rcases hesc with hesc | hend
  · simp [hne1, hne2, hesc]
  · -- an escape at the end: nothing follows it
    have hnil : p.drop (i + 1) = [] := List.drop_eq_nil_of_le (by simpa using hend)
    simp [hne1, hne2, hnil]

end Tokenize

/-! ## Another alphabet

A map that keeps the elements in use apart carries patterns, texts and matches over. -/

section Map

variable {β : Type*} [DecidableEq β]

/-- A pattern element over another alphabet. -/
def Tok.map (f : α → β) : Tok α → Tok β
  | .any => .any
  | .one => .one
  | .lit a => .lit (f a)

variable {f : α → β} {S : Set α}

attribute [local simp] Tok.map in
theorem wildMatch_map (hf : Set.InjOn f S) (q : List (Tok α)) (s : List α)
    (hq : ∀ a, .lit a ∈ q → a ∈ S) (hs : ∀ a ∈ s, a ∈ S) :
    wildMatch (q.map (Tok.map f)) (s.map f) = wildMatch q s := by
  induction q generalizing s with
  | nil => simp
  | cons t q ih =>
    have hq' : ∀ a, .lit a ∈ q → a ∈ S := fun a ha => hq a (List.mem_cons_of_mem t ha)
    cases t with
    | any =>
      simp only [List.map_cons, Tok.map, wildMatch, List.length_map, ← List.map_drop]
      congr 1
      funext i
      exact ih _ hq' fun a ha => hs a (List.mem_of_mem_drop ha)
    | one =>
      cases s with
      | nil => rfl
      | cons a s => exact ih s hq' fun b hb => hs b (List.mem_cons_of_mem a hb)
    | lit c =>
      cases s with
      | nil => rfl
      | cons a s =>
        have hfa : f a = f c ↔ a = c := hf.eq_iff (hs a List.mem_cons_self) (hq c List.mem_cons_self)
        simp only [List.map_cons, Tok.map, wildMatch_lit_cons, hfa]
        rw [ih s hq' fun b hb => hs b (List.mem_cons_of_mem a hb)]

omit [DecidableEq β] in
theorem mem_of_lit_mem_tokenize {esc anyC oneC a : α} {p : List α}
    (h : .lit a ∈ tokenize esc anyC oneC p) : a ∈ p := by
  fun_induction tokenize esc anyC oneC p <;> grind

theorem tokenize_map (hf : Set.InjOn f S) {esc anyC oneC : α} (hesc : esc ∈ S) (hany : anyC ∈ S)
    (hone : oneC ∈ S) (p : List α) (hp : ∀ a ∈ p, a ∈ S) :
    tokenize (f esc) (f anyC) (f oneC) (p.map f) = (tokenize esc anyC oneC p).map (Tok.map f) := by
  have hne : ∀ {a b : α}, a ∈ S → b ∈ S → a ≠ b → f a ≠ f b := fun ha hb hab h => hab (hf ha hb h)
  have hp' : ∀ {c : α} {p : List α}, (∀ a ∈ c :: p, a ∈ S) → ∀ a ∈ p, a ∈ S :=
    fun h a ha => h a (List.mem_cons_of_mem _ ha)
  fun_induction tokenize esc anyC oneC p with
  | case1 => rfl
  | case2 p ih =>
    rw [List.map_cons, tokenize.eq_def]
    simp [ih (hp' hp), Tok.map]
  | case3 p hao ih =>
    rw [List.map_cons, tokenize.eq_def]
    simp [hne hany hone hao, ih (hp' hp), Tok.map]
  | case4 c p heo hea ih =>
    simp [tokenize, hne hesc hone heo, hne hesc hany hea, ih (hp' (hp' hp)), Tok.map]
  | case5 heo hea => simp [tokenize, hne hesc hone heo, hne hesc hany hea, Tok.map]
  | case6 c p hco hca hce ih =>
    have hc : c ∈ S := hp c List.mem_cons_self
    rw [List.map_cons, tokenize.eq_def]
    simp [hne hc hone hco, hne hc hany hca, hne hc hesc hce, ih (hp' hp), Tok.map]

end Map

end Wildcard
